/-
  Subject: The JSON of the admin server, written call by call and sent in chunks.

  * `JsonWriter` -- the calls of the emitter and the single flag that places the commas;
  * `ChunkedJsonWriter` -- its bytes in a queue that is handed to a sink at any time;
  * `Writes.spells` -- the calls that match a tree write a text that reads back to it;
  * **`streamed_json_reads_back`** -- so do the chunks, wherever they are cut.
-/
import Moqx.Types

namespace Moqx

open List

inductive Json where
  | null
  | bool (b : Bool)
  | int (v : Int)
  | string (s : Bytes)
  | array (items : List Json)
  | object (fields : List (Bytes × Json))

/-! ## 1. The emitter -/

/-- The methods of `JsonWriter` but `doubleVal`; a `field` is its `key` and its value. -/
inductive JsonCall where
  | beginObject
  | endObject
  | beginArray
  | endArray
  | key (k : Bytes)
  | strVal (v : Bytes)
  | boolVal (v : Bool)
  | intVal (v : Int64)
  | uintVal (v : UInt64)
  | nullVal

namespace JsonWriter

def hexDigit (n : UInt8) : UInt8 := if n < 10 then 0x30 + n else 0x57 + n

/-- What stands for a byte that is not written as it is. -/
def escape (c : UInt8) : Option Bytes :=
  if c = 0x22 then some [0x5c, 0x22]
  else if c = 0x5c then some [0x5c, 0x5c]
  else if c = 0x0a then some [0x5c, 0x6e]
  else if c = 0x0d then some [0x5c, 0x72]
  else if c = 0x09 then some [0x5c, 0x74]
  else if 0x20 ≤ c then none
  else some [0x5c, 0x75, 0x30, 0x30, hexDigit (c / 16), hexDigit (c % 16)]

/-- The loop over the bytes; `run` is the unescaped run that is not pushed yet. -/
def writeRuns (run : Bytes) : Bytes → Bytes
  | [] => run
  | c :: s =>
    match escape c with
    | none => writeRuns (run ++ [c]) s
    | some e => run ++ e ++ writeRuns [] s

def writeString (s : Bytes) : Bytes := 0x22 :: writeRuns [] s ++ [0x22]

def toDecimal (n : Nat) : Bytes :=
  if n < 10 then [(0x30 + n).toUInt8] else toDecimal (n / 10) ++ [(0x30 + n % 10).toUInt8]

/-- `std::to_string`. -/
def stdToString (v : Int) : Bytes := if v < 0 then 0x2d :: toDecimal v.natAbs else toDecimal v.natAbs

def maybeComma (needsComma : Bool) : Bytes := if needsComma then [0x2c] else []

/-- What a call appends, and whether the next value needs a comma. -/
def call (needsComma : Bool) : JsonCall → Bytes × Bool
  | .beginObject => (maybeComma needsComma ++ [0x7b], false)
  | .endObject => ([0x7d], true)
  | .beginArray => (maybeComma needsComma ++ [0x5b], false)
  | .endArray => ([0x5d], true)
  | .key k => (maybeComma needsComma ++ writeString k ++ [0x3a], false)
  | .strVal v => (maybeComma needsComma ++ writeString v, true)
  | .boolVal true => (maybeComma needsComma ++ [0x74, 0x72, 0x75, 0x65], true)
  | .boolVal false => (maybeComma needsComma ++ [0x66, 0x61, 0x6c, 0x73, 0x65], true)
  | .intVal v => (maybeComma needsComma ++ stdToString v.toInt, true)
  | .uintVal v => (maybeComma needsComma ++ stdToString v.toNat, true)
  | .nullVal => (maybeComma needsComma ++ [0x6e, 0x75, 0x6c, 0x6c], true)

def write (needsComma : Bool) : List JsonCall → Bytes × Bool
  | [] => ([], needsComma)
  | c :: calls =>
    let first := call needsComma c
    let rest := write first.2 calls
    (first.1 ++ rest.1, rest.2)

end JsonWriter

inductive Json.Writes : Json → List JsonCall → Prop where
  | null : Writes .null [.nullVal]
  | bool (b : Bool) : Writes (.bool b) [.boolVal b]
  | int (v : Int64) : Writes (.int v.toInt) [.intVal v]
  | uint (v : UInt64) : Writes (.int v.toNat) [.uintVal v]
  | string (s : Bytes) : Writes (.string s) [.strVal s]
  | array (parts : List (Json × List JsonCall)) : (∀ p ∈ parts, Writes p.1 p.2) →
      Writes (.array (parts.map (·.1))) (.beginArray :: parts.flatMap (·.2) ++ [.endArray])
  | object (parts : List (Bytes × Json × List JsonCall)) : (∀ p ∈ parts, Writes p.2.1 p.2.2) →
      Writes (.object (parts.map fun p => (p.1, p.2.1)))
        (.beginObject :: parts.flatMap (fun p => .key p.1 :: p.2.2) ++ [.endObject])

/-! ## 2. Chunks -/

structure ChunkedJsonWriter where
  queue : Bytes := []
  needsComma : Bool := false
  alive : Bool := true
  /-- What the sink was given. -/
  chunks : List Bytes := []

namespace ChunkedJsonWriter

inductive Op where
  | json (call : JsonCall)
  | maybeFlush
  | flush

/-- The sink answers whether it takes more. -/
def flush (sink : List Bytes → Bytes → Bool) (w : ChunkedJsonWriter) : ChunkedJsonWriter :=
  if w.queue.isEmpty then w
  else if w.alive then
    { w with queue := [], chunks := w.chunks ++ [w.queue], alive := sink w.chunks w.queue }
  else { w with queue := [] }

def step (sink : List Bytes → Bytes → Bool) (threshold : Nat) (w : ChunkedJsonWriter) : Op → ChunkedJsonWriter
  | .json c =>
    let written := JsonWriter.call w.needsComma c
    { w with queue := w.queue ++ written.1, needsComma := written.2 }
  | .maybeFlush => if threshold ≤ w.queue.length then w.flush sink else w
  | .flush => w.flush sink

def Op.call? : Op → Option JsonCall
  | .json c => some c
  | _ => none

end ChunkedJsonWriter

/-! ## 3. The reader -/

namespace Json

def isSpace (c : UInt8) : Bool := c ∈ [0x20, 0x0a, 0x0d, 0x09]

def skipSpace (data : Bytes) : Bytes := data.dropWhile isSpace

def hexValue (c : UInt8) : Option Nat :=
  if 0x30 ≤ c ∧ c ≤ 0x39 then some (c.toNat - 0x30)
  else if 0x61 ≤ c ∧ c ≤ 0x66 then some (c.toNat - 0x57)
  else if 0x41 ≤ c ∧ c ≤ 0x46 then some (c.toNat - 0x37)
  else none

def hexCode (digits : Bytes) : Option Nat := digits.foldlM (fun n c => (hexValue c).map (16 * n + ·)) 0

def utf8 (code : Nat) : Bytes :=
  if code < 0x80 then [code.toUInt8]
  else if code < 0x800 then [(0xc0 + code / 64).toUInt8, (0x80 + code % 64).toUInt8]
  else [(0xe0 + code / 4096).toUInt8, (0x80 + code / 64 % 64).toUInt8, (0x80 + code % 64).toUInt8]

def readString : Bytes → Option (Bytes × Bytes)
  | 0x22 :: r => some ([], r)
  | 0x5c :: 0x75 :: a :: b :: c :: d :: r =>
    (hexCode [a, b, c, d]).bind fun code => (readString r).map fun s => (utf8 code ++ s.1, s.2)
  | 0x5c :: e :: r =>
    ([(0x22, 0x22), (0x5c, 0x5c), (0x2f, 0x2f), (0x62, 0x08), (0x66, 0x0c), (0x6e, 0x0a), (0x72, 0x0d),
      (0x74, 0x09)].lookup e).bind fun c => (readString r).map fun s => (c :: s.1, s.2)
  | c :: r => if c < 0x20 ∨ c = 0x5c then none else (readString r).map fun s => (c :: s.1, s.2)
  | [] => none

def isDigit (c : UInt8) : Bool := 0x30 ≤ c && c ≤ 0x39

def decimalValue (digits : Bytes) : Nat := digits.foldl (fun n c => 10 * n + (c.toNat - 0x30)) 0

def readDigits (data : Bytes) : Option (Nat × Bytes) :=
  let digits := data.takeWhile isDigit
  if digits = [] ∨ (digits.head? = some 0x30 ∧ digits.length ≠ 1) then none
  else some (decimalValue digits, data.dropWhile isDigit)

variable {α β : Type*}

/-- Elements up to the closing bracket, the first without a comma before it. -/
def readElements (element : Bytes → Option (α × Bytes)) (close : UInt8) :
    Nat → Bool → Bytes → Option (List α × Bytes)
  | 0, _, _ => none
  | fuel + 1, needsComma, data =>
    match skipSpace data with
    | [] => none
    | c :: r =>
      if c = close then some ([], r)
      else if needsComma && c != 0x2c then none
      else (element (if needsComma then r else c :: r)).bind fun x =>
        (readElements element close fuel true x.2).map fun xs => (x.1 :: xs.1, xs.2)

def readField (value : Bytes → Option (Json × Bytes)) (data : Bytes) : Option ((Bytes × Json) × Bytes) :=
  match skipSpace data with
  | 0x22 :: r => (readString r).bind fun k =>
    match skipSpace k.2 with
    | 0x3a :: r => (value r).map fun v => ((k.1, v.1), v.2)
    | _ => none
  | _ => none

def readValue : Nat → Bytes → Option (Json × Bytes)
  | 0, _ => none
  | fuel + 1, data =>
    if (skipSpace data).head?.any isDigit then (readDigits (skipSpace data)).map fun p => (.int p.1, p.2)
    else
      match skipSpace data with
      | 0x2d :: r => (readDigits r).map fun p => (.int (-p.1), p.2)
      | 0x22 :: r => (readString r).map fun p => (.string p.1, p.2)
      | 0x5b :: r => (readElements (readValue fuel) 0x5d fuel false r).map fun p => (.array p.1, p.2)
      | 0x7b :: r => (readElements (readField (readValue fuel)) 0x7d fuel false r).map fun p => (.object p.1, p.2)
      | 0x74 :: 0x72 :: 0x75 :: 0x65 :: r => some (.bool true, r)
      | 0x66 :: 0x61 :: 0x6c :: 0x73 :: 0x65 :: r => some (.bool false, r)
      | 0x6e :: 0x75 :: 0x6c :: 0x6c :: r => some (.null, r)
      | _ => none

def parse (data : Bytes) : Option Json :=
  match readValue data.length data with
  | some (t, r) => if skipSpace r = [] then some t else none
  | none => none

/-! ## 4. Strings and numbers -/

open JsonWriter

variable {rest : Bytes} {n : Nat}

def written (c : UInt8) : Bytes := (escape c).getD [c]

theorem writeRuns_eq (run s : Bytes) : writeRuns run s = run ++ s.flatMap written := by
  induction s generalizing run with
  | nil => simp [writeRuns]
  | cons c s ih =>
    unfold writeRuns
    cases he : escape c <;> simp [ih, written, he]

theorem utf8_control : ∀ n < 0x20, utf8 n = [UInt8.ofNat n] ∧
    hexCode [0x30, 0x30, hexDigit (UInt8.ofNat n / 16), hexDigit (UInt8.ofNat n % 16)] = some n := by
  decide

theorem readString_byte (c : UInt8) :
    readString (written c ++ rest) = (readString rest).map fun s => (c :: s.1, s.2) := by
  unfold written escape
  split_ifs with h1 h2 h3 h4 h5 h6
  · subst h1; rfl
  · subst h2; rfl
  · subst h3; rfl
  · subst h4; rfl
  · subst h5; rfl
  · have hlow : ¬c < 0x20 := UInt8.not_lt.mpr h6
    simp [readString, h2, hlow]
  · obtain ⟨hutf, hcode⟩ := utf8_control c.toNat (UInt8.lt_iff_toNat_lt.mp (UInt8.not_le.mp h6))
    rw [UInt8.ofNat_toNat] at hutf hcode
    simp [readString, hcode, hutf]

theorem readString_written (s : Bytes) : readString (s.flatMap written ++ 0x22 :: rest) = some (s, rest) := by
  induction s with
  | nil => rfl
  | cons c s ih =>
    rw [flatMap_cons, append_assoc, readString_byte, ih]
    rfl

theorem writeString_append (s rest : Bytes) :
    writeString s ++ rest = 0x22 :: (s.flatMap written ++ 0x22 :: rest) := by
  rw [writeString, writeRuns_eq]
  simp

theorem digit_facts : ∀ d < 10, isDigit (0x30 + d).toUInt8 = true ∧ (0x30 + d).toUInt8.toNat - 0x30 = d ∧
    isSpace (0x30 + d).toUInt8 = false ∧ (0x30 + d).toUInt8 ≠ 0x5d := by
  decide

theorem toDecimal_spec (n : Nat) : (∀ c ∈ toDecimal n, isDigit c = true) ∧ decimalValue (toDecimal n) = n ∧
    ∃ d r, toDecimal n = d :: r ∧ (d = 0x30 → n = 0) ∧ isSpace d = false ∧ d ≠ 0x5d := by
  fun_induction toDecimal n with
  | case1 n h =>
    obtain ⟨hd, hv, hspace⟩ := digit_facts n h
    refine ⟨by simpa using hd, by simpa [decimalValue] using hv, _, [], rfl, fun h0 => ?_, hspace⟩
    rw [h0] at hv
    exact hv.symm
  | case2 n h ih =>
    obtain ⟨hd, hv, -⟩ := digit_facts (n % 10) (Nat.mod_lt _ (by decide))
    obtain ⟨hdigits, hvalue, d, r, hr, hzero, hspace⟩ := ih
    refine ⟨?_, ?_, d, r ++ [_], by rw [hr]; rfl, fun h0 => ?_, hspace⟩
    · intro c hc
      rcases mem_append.mp hc with hc | hc
      · exact hdigits c hc
      · exact mem_singleton.mp hc ▸ hd
    · unfold decimalValue at hvalue ⊢
      rw [foldl_append, hvalue, foldl_cons, foldl_nil, hv]
      omega
    · have := hzero h0
      omega

theorem readDigits_toDecimal (h : rest.head?.any isDigit = false) :
    readDigits (toDecimal n ++ rest) = some (n, rest) := by
  obtain ⟨hdigits, hvalue, d, r, hr, hzero, -⟩ := toDecimal_spec n
  have hstop : rest.takeWhile isDigit = [] ∧ rest.dropWhile isDigit = rest := by
    cases rest with
    | nil => exact ⟨rfl, rfl⟩
    | cons c rest =>
      rw [head?_cons, Option.any_some] at h
      simp [h]
  have hlead : ¬(toDecimal n = [] ∨ (toDecimal n).head? = some 0x30 ∧ (toDecimal n).length ≠ 1) := by
    rintro (hnil | ⟨hhead, hlen⟩)
    · rw [hr] at hnil
      cases hnil
    · rw [hr, head?_cons, Option.some_inj] at hhead
      rw [hzero hhead] at hlen
      exact hlen (by simp [toDecimal])
  unfold readDigits
  rw [takeWhile_append_of_pos hdigits, dropWhile_append_of_pos hdigits, hstop.1, hstop.2,
    append_nil]
  exact (if_neg hlead).trans (by rw [hvalue])

/-! ## 5. The calls of a tree -/

variable {read : Nat → Bytes → Option (α × Bytes)} {close : UInt8} {calls : List JsonCall}

theorem skipSpace_cons {c : UInt8} (h : isSpace c = false) : skipSpace (c :: rest) = c :: rest :=
  dropWhile_cons_of_neg (by simp [h])

theorem write_append (b : Bool) (calls calls' : List JsonCall) : write b (calls ++ calls') =
    ((write b calls).1 ++ (write (write b calls).2 calls').1, (write (write b calls).2 calls').2) := by
  induction calls generalizing b with
  | nil => rfl
  | cons c calls ih => simp [write, ih]

/-- The calls write a text that is read as one element before the closing bracket. -/
structure Spells (read : Nat → Bytes → Option (α × Bytes)) (close : UInt8) (x : α) (calls : List JsonCall)
    (spelling : Bytes) : Prop where
  write (needsComma : Bool) : write needsComma calls = (maybeComma needsComma ++ spelling, true)
  read (fuel : Nat) (rest : Bytes) : spelling.length ≤ fuel → rest.head?.any isDigit = false →
    read fuel (spelling ++ rest) = some (x, rest)
  start : ∃ c r, spelling = c :: r ∧ isSpace c = false ∧ c ≠ close

theorem readElements_write {x : β → α} {c : β → List JsonCall} {f : β → Bytes} {parts : List β} {fuel : Nat}
    (hclose : close = 0x5d ∨ close = 0x7d) (h : ∀ p ∈ parts, Spells read close (x p) (c p) (f p)) (b : Bool)
    (hn : (JsonWriter.write b (parts.flatMap c)).1.length < n) (hfuel : n ≤ fuel) :
    readElements (read fuel) close n b ((JsonWriter.write b (parts.flatMap c)).1 ++ close :: rest) =
      some (parts.map x, rest) := by
  obtain ⟨hdigit, hne, hspace⟩ : isDigit close = false ∧ 0x2c ≠ close ∧ isSpace close = false := by
    rcases hclose with rfl | rfl <;> decide
  induction parts generalizing b n with
  | nil =>
    obtain ⟨n, rfl⟩ := Nat.exists_eq_add_of_lt hn
    simp [readElements, JsonWriter.write, skipSpace_cons hspace]
  | cons p parts ih =>
    have hp := h p mem_cons_self
    have hparts : ∀ q ∈ parts, Spells read close (x q) (c q) (f q) := fun q hq => h q (mem_cons_of_mem _ hq)
    obtain ⟨d, r, hd, hds, hdc⟩ := hp.start
    rw [flatMap_cons, write_append, hp.write] at hn ⊢
    have hstop : ((JsonWriter.write true (parts.flatMap c)).1 ++ close :: rest).head?.any isDigit = false := by
      cases parts with
      | nil => simpa [JsonWriter.write] using hdigit
      | cons q parts => simp [write_append, (hparts q mem_cons_self).write, maybeComma, isDigit]
    simp only [append_assoc, hd, length_append, length_cons] at hn ⊢
    obtain ⟨n, rfl⟩ : ∃ m, n = m + 1 := ⟨n - 1, by omega⟩
    have hread := hp.read fuel _ (by rw [hd, length_cons]; omega) hstop
    have hrest := ih hparts true (show _ < n by omega) (by omega)
    rw [hd, cons_append] at hread
    cases b with
    | true => simp [maybeComma, readElements, @skipSpace_cons _ 0x2c rfl, hne, hread, hrest]
    | false => simp [maybeComma, readElements, skipSpace_cons hds, hdc, hread, hrest]

theorem Spells.value {t : Json} {c : UInt8} {r : Bytes}
    (hw : ∀ b, JsonWriter.write b calls = (maybeComma b ++ c :: r, true)) (hc : isSpace c = false ∧ c ≠ 0x5d)
    (hr : ∀ fuel rest, r.length ≤ fuel → rest.head?.any isDigit = false →
      readValue (fuel + 1) (c :: (r ++ rest)) = some (t, rest)) : Spells readValue 0x5d t calls (c :: r) := by
  refine ⟨hw, fun fuel rest hfuel hrest => ?_, c, r, rfl, hc⟩
  cases fuel with
  | zero => cases hfuel
  | succ fuel => exact hr fuel rest (Nat.le_of_succ_le_succ hfuel) hrest

theorem write_one {call : JsonCall} {spelling : Bytes}
    (h : ∀ b, JsonWriter.call b call = (maybeComma b ++ spelling, true)) (b : Bool) :
    JsonWriter.write b [call] = (maybeComma b ++ spelling, true) := by
  simp [JsonWriter.write, h]

theorem spells_int {call : JsonCall} {v : Int}
    (h : ∀ b, JsonWriter.call b call = (maybeComma b ++ stdToString v, true)) :
    Spells readValue 0x5d (.int v) [call] (stdToString v) := by
  have hw := write_one h
  unfold stdToString at hw ⊢
  split_ifs at hw ⊢ with hneg
  · refine .value hw (by decide) fun fuel rest _ hrest => ?_
    show (readDigits _).map _ = _
    rw [readDigits_toDecimal hrest, Option.map_some, ← Int.eq_neg_natAbs_of_nonpos (Int.le_of_lt hneg)]
  · obtain ⟨hdigits, -, d, r, hr, -, hspace⟩ := toDecimal_spec v.natAbs
    have hd := hdigits d (hr ▸ mem_cons_self)
    rw [hr] at hw ⊢
    refine .value hw hspace fun fuel rest _ hrest => ?_
    rw [readValue, skipSpace_cons hspace.1, head?_cons, Option.any_some, if_pos hd, ← cons_append, ← hr,
      readDigits_toDecimal hrest, Option.map_some, Int.natAbs_of_nonneg (Int.not_lt.mp hneg)]

theorem Spells.field {t : Json} {spelling : Bytes} (h : Spells readValue 0x5d t calls spelling) (k : Bytes) :
    Spells (fun fuel => readField (readValue fuel)) 0x7d (k, t) (.key k :: calls)
      (writeString k ++ 0x3a :: spelling) := by
  refine ⟨fun b => ?_, fun fuel rest hfuel hrest => ?_, 0x22, _, writeString_append k _, by decide⟩
  · simp [JsonWriter.write, call, h.write, maybeComma]
  · rw [length_append, length_cons] at hfuel
    rw [append_assoc, writeString_append]
    show (readString _).bind _ = _
    rw [readString_written]
    show (readValue fuel (spelling ++ rest)).map _ = _
    rw [h.read fuel rest (by omega) hrest]
    rfl

theorem spells_sequence {begins ends : JsonCall} {c : UInt8} {node : List α → Json}
    {x : β → α} {calls : β → List JsonCall} {f : β → Bytes} {parts : List β}
    (hc : isSpace c = false ∧ c ≠ 0x5d) (hclose : close = 0x5d ∨ close = 0x7d)
    (hbegins : ∀ b, call b begins = (maybeComma b ++ [c], false)) (hends : ∀ b, call b ends = ([close], true))
    (hread : ∀ fuel data, readValue (fuel + 1) (c :: data) =
      (readElements (read fuel) close fuel false data).map fun p => (node p.1, p.2))
    (h : ∀ p ∈ parts, Spells read close (x p) (calls p) (f p)) :
    Spells readValue 0x5d (node (parts.map x)) (begins :: parts.flatMap calls ++ [ends])
      (c :: ((JsonWriter.write false (parts.flatMap calls)).1 ++ [close])) := by
  refine .value (fun b => ?_) hc fun fuel rest hfuel _ => ?_
  · simp [JsonWriter.write, hbegins, hends, write_append]
  · rw [length_append] at hfuel
    rw [hread, append_assoc]
    exact congrArg _ (readElements_write hclose h false hfuel le_rfl)

/-- **The calls of a tree** write a text that reads back to it. -/
theorem Writes.spells {t : Json} (h : Writes t calls) : ∃ spelling, Spells readValue 0x5d t calls spelling := by
  induction h with
  | null => exact ⟨_, .value (write_one fun _ => rfl) (by decide) fun _ _ _ _ => rfl⟩
  | bool b =>
    cases b with
    | true => exact ⟨_, .value (write_one fun _ => rfl) (by decide) fun _ _ _ _ => rfl⟩
    | false => exact ⟨_, .value (write_one fun _ => rfl) (by decide) fun _ _ _ _ => rfl⟩
  | int v => exact ⟨_, spells_int fun _ => rfl⟩
  | uint v => exact ⟨_, spells_int fun _ => rfl⟩
  | string s =>
    refine ⟨0x22 :: (s.flatMap written ++ [0x22]), .value (write_one fun b => ?_) (by decide) fun fuel rest _ _ => ?_⟩
    · rw [call, ← writeString_append, append_nil]
    · rw [append_assoc]
      show (readString (s.flatMap written ++ 0x22 :: rest)).map _ = _
      rw [readString_written]
      rfl
  | array parts _ ih =>
    choose! f hf using ih
    exact ⟨_, spells_sequence (by decide) (.inl rfl) (fun _ => rfl) (fun _ => rfl) (fun _ _ => rfl) hf⟩
  | object parts _ ih =>
    choose! f hf using ih
    exact ⟨_, spells_sequence (by decide) (.inr rfl) (fun _ => rfl) (fun _ => rfl) (fun _ _ => rfl)
      fun p hp => (hf p hp).field p.1⟩

end Json

/-! ## 6. The chunks -/

namespace ChunkedJsonWriter

variable {sink : List Bytes → Bytes → Bool} {w : ChunkedJsonWriter} {calls : List JsonCall}

/-- With a live sink nothing is lost: the calls wrote what was sent, and then what is queued. -/
structure Sends (w : ChunkedJsonWriter) (calls : List JsonCall) : Prop where
  alive : w.alive = true
  write : JsonWriter.write false calls = (w.chunks.flatten ++ w.queue, w.needsComma)

variable (hsink : ∀ chunks chunk, sink chunks chunk = true)

include hsink

theorem Sends.flush (h : w.Sends calls) : (w.flush sink).Sends calls ∧ (w.flush sink).queue = [] := by
  unfold ChunkedJsonWriter.flush
  split_ifs with hempty halive
  · exact ⟨h, isEmpty_iff.mp hempty⟩
  · exact ⟨⟨hsink _ _, by simpa using h.write⟩, rfl⟩
  · exact absurd h.alive halive

theorem Sends.step (threshold : Nat) (h : w.Sends calls) (op : Op) :
    (w.step sink threshold op).Sends (calls ++ op.call?.toList) := by
  have hflush := (h.flush hsink).1
  cases op with
  | json c => exact ⟨h.alive, by simp [Json.write_append, h.write, JsonWriter.write, ChunkedJsonWriter.step, Op.call?]⟩
  | flush => simpa [ChunkedJsonWriter.step, Op.call?] using hflush
  | maybeFlush =>
    simp only [Op.call?, Option.toList_none, append_nil, ChunkedJsonWriter.step]
    split_ifs
    · exact hflush
    · exact h

theorem Sends.run (threshold : Nat) (ops : List Op) (h : w.Sends calls) :
    (ops.foldl (ChunkedJsonWriter.step sink threshold) w).Sends (calls ++ ops.flatMap (·.call?.toList)) := by
  induction ops generalizing w calls with
  | nil => simpa using h
  | cons op ops ih =>
    rw [flatMap_cons, ← append_assoc]
    exact ih (h.step hsink threshold op)

end ChunkedJsonWriter

/-- **The chunks of a document are one JSON text** that reads back to its tree, wherever the writer is flushed
    between the calls, with a sink that takes all of them. -/
theorem streamed_json_reads_back (sink : List Bytes → Bytes → Bool)
    (hsink : ∀ chunks chunk, sink chunks chunk = true) (threshold : Nat) (t : Json)
    (ops : List ChunkedJsonWriter.Op) (h : t.Writes (ops.flatMap (·.call?.toList))) :
    Json.parse ((ops.foldl (ChunkedJsonWriter.step sink threshold) {}).flush sink).chunks.flatten = some t := by
  have hstart : ChunkedJsonWriter.Sends {} [] := ⟨rfl, rfl⟩
  obtain ⟨hsent, hqueue⟩ := (hstart.run hsink threshold ops).flush hsink
  obtain ⟨spelling, hs⟩ := h.spells
  obtain ⟨htext, -⟩ := Prod.mk.inj (hsent.write.symm.trans (hs.write false))
  rw [hqueue, append_nil] at htext
  have hread := hs.read spelling.length [] le_rfl rfl
  rw [append_nil] at hread
  rw [htext]
  show Json.parse spelling = some t
  rw [Json.parse, hread]
  rfl

/-- An array with a control byte, flushed inside. -/
theorem streamed_json_reads_back_array :
    Json.parse (([.json .beginArray, .json (.strVal [0x1f]), .flush, .json (.intVal (-7)), .json .endArray].foldl
      (ChunkedJsonWriter.step (fun _ _ => true) 8) {}).flush fun _ _ => true).chunks.flatten =
      some (.array [.string [0x1f], .int (-7)]) := by
  refine streamed_json_reads_back _ (fun _ _ => rfl) 8 _ _ ?_
  refine .array [(_, [.strVal _]), (_, [.intVal _])] fun p hp => ?_
  rcases mem_pair.mp hp with rfl | rfl
  · exact .string _
  · exact .int (-7)

end Moqx
