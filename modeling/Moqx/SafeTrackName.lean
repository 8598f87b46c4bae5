/-
  Subject: The safe rendering of track names and its inverse.

  * `safeName` for bytes, namespaces and full names -- the rendering;
  * `parseSafeBytes`, `parseSafeNamespace`, `parseSafeFullTrackName` -- the parsers;
  * `rfind_separator` -- the last separator is the one that was written;
  * the round trip, and which names share a rendering.
-/
import Moqx.Types

namespace Moqx

open FullTrackName List

/-! ## 1. The rendering -/

def kHyphen : UInt8 := 0x2d

def kDot : UInt8 := 0x2e

/-- `a`-`z`, `A`-`Z`, `0`-`9` and the underscore stay as they are. -/
def passesThrough (c : UInt8) : Bool :=
  (0x61 ≤ c && c ≤ 0x7a) || (0x41 ≤ c && c ≤ 0x5a) || (0x30 ≤ c && c ≤ 0x39) || c == 0x5f

/-- The digits `0123456789abcdef`. -/
def kHexDigits : List UInt8 :=
  [0x30, 0x31, 0x32, 0x33, 0x34, 0x35, 0x36, 0x37, 0x38, 0x39, 0x61, 0x62, 0x63, 0x64, 0x65, 0x66]

def hexDigit (n : UInt8) : UInt8 := kHexDigits.getD n.toNat 0

/-- A byte as it is, or a dot and two digits. -/
def safeByte (c : UInt8) : Bytes :=
  if passesThrough c then [c] else [kDot, hexDigit (c >>> 4), hexDigit (c &&& 0x0f)]

def appendSafe (out bytes : Bytes) : Bytes := bytes.foldl (fun out ch => out ++ safeByte ch) out

def safeNameBytes (bytes : Bytes) : Bytes := appendSafe [] bytes

/-- The flag says that no tuple has been written yet. -/
def appendSafeNamespace (out : Bytes) (ns : List Bytes) : Bytes :=
  (ns.foldl (fun (p : Bytes × Bool) tuple => (appendSafe (if p.2 then p.1 else p.1 ++ [kHyphen]) tuple, false))
    (out, true)).1

def safeNameNamespace (ns : List Bytes) : Bytes := appendSafeNamespace [] ns

def FullTrackName.safeName (ftn : FullTrackName) : Bytes :=
  appendSafe (appendSafeNamespace [] ftn.trackNamespace ++ [kHyphen, kHyphen]) ftn.trackName

/-! ## 2. The parsers -/

/-- What a digit is worth to `from_chars` with base 16. -/
def hexValue (c : UInt8) : Option Nat :=
  if 0x30 ≤ c ∧ c ≤ 0x39 then some (c.toNat - 0x30)
  else if 0x61 ≤ c ∧ c ≤ 0x66 then some (c.toNat - 0x61 + 10)
  else if 0x41 ≤ c ∧ c ≤ 0x46 then some (c.toNat - 0x41 + 10)
  else none

/-- Both characters have to be digits. -/
def decodeHexPair (hi lo : UInt8) : Option UInt8 := do
  let h ← hexValue hi
  let l ← hexValue lo
  some (UInt8.ofNat (h * 16 + l))

def parseSafeBytes : Bytes → Option Bytes
  | [] => some []
  | c :: rest =>
    if passesThrough c then (parseSafeBytes rest).map (c :: ·)
    else if c ≠ kDot then none
    else
      match rest with
      | hi :: lo :: rest =>
        match decodeHexPair hi lo with
        | some byte => (parseSafeBytes rest).map (byte :: ·)
        | none => none
      | _ => none

/-- The pieces between the hyphens are decoded in order, up to the first that is not in the safe form. -/
def parseSafeNamespace (text : Bytes) : Option (List Bytes) :=
  if text.isEmpty then some [] else (text.splitOn kHyphen).mapM parseSafeBytes

def rfind (pattern : Bytes) : Bytes → Option Nat
  | [] => if pattern.isEmpty then some 0 else none
  | c :: text =>
    match rfind pattern text with
    | some i => some (i + 1)
    | none => if pattern.isPrefixOf (c :: text) then some 0 else none

def parseSafeFullTrackName (text : Bytes) : Option FullTrackName := do
  let split ← rfind [kHyphen, kHyphen] text
  let ns ← parseSafeNamespace (text.take split)
  let track ← parseSafeBytes (text.drop (split + 2))
  some ⟨ns, track⟩

/-! ## 3. Bytes -/

theorem appendSafe_eq (out bytes : Bytes) : appendSafe out bytes = out ++ bytes.flatMap safeByte := by
  unfold appendSafe
  induction bytes generalizing out with
  | nil => rw [foldl_nil, flatMap_nil, append_nil]
  | cons c bytes ih => rw [foldl_cons, ih, flatMap_cons, append_assoc]

theorem safeNameBytes_eq (bytes : Bytes) : safeNameBytes bytes = bytes.flatMap safeByte := appendSafe_eq [] bytes

theorem safeNameBytes_cons (c : UInt8) (bytes : Bytes) :
    safeNameBytes (c :: bytes) = safeByte c ++ safeNameBytes bytes := by
  rw [safeNameBytes_eq, safeNameBytes_eq, flatMap_cons]

theorem hexValue_hexDigit : ∀ n : Fin 16, hexValue (hexDigit (UInt8.ofNat n)) = some n := by decide

theorem hexDigit_ne_hyphen : ∀ n : Fin 16, hexDigit (UInt8.ofNat n) ≠ kHyphen := by decide

theorem halves (c : UInt8) : ∃ hi lo : Fin 16, c >>> 4 = UInt8.ofNat hi ∧ c &&& 0x0f = UInt8.ofNat lo ∧
    c = UInt8.ofNat (hi * 16 + lo) := by
  have hc : c.toNat < 256 := c.toNat_lt
  have hhi : (c >>> 4).toNat = c.toNat / 16 := by
    rw [UInt8.toNat_shiftRight]
    exact Nat.shiftRight_eq_div_pow c.toNat 4
  have hlo : (c &&& 0x0f).toNat = c.toNat % 16 := by
    rw [UInt8.toNat_and]
    exact Nat.and_two_pow_sub_one_eq_mod c.toNat 4
  refine ⟨⟨c.toNat / 16, by omega⟩, ⟨c.toNat % 16, by omega⟩, ?_, ?_, ?_⟩
  · show c >>> 4 = UInt8.ofNat (c.toNat / 16)
    rw [← hhi, UInt8.ofNat_toNat]
  · show c &&& 0x0f = UInt8.ofNat (c.toNat % 16)
    rw [← hlo, UInt8.ofNat_toNat]
  · show c = UInt8.ofNat (c.toNat / 16 * 16 + c.toNat % 16)
    rw [show c.toNat / 16 * 16 + c.toNat % 16 = c.toNat by omega, UInt8.ofNat_toNat]

theorem decodeHexPair_hexDigit (c : UInt8) : decodeHexPair (hexDigit (c >>> 4)) (hexDigit (c &&& 0x0f)) = some c := by
  obtain ⟨hi, lo, hhi, hlo, hc⟩ := halves c
  rw [hhi, hlo, decodeHexPair, hexValue_hexDigit, hexValue_hexDigit, hc]
  rfl

theorem parseSafeBytes_safeByte (c : UInt8) (rest : Bytes) :
    parseSafeBytes (safeByte c ++ rest) = (parseSafeBytes rest).map (c :: ·) := by
  unfold safeByte
  by_cases hpass : passesThrough c = true
  · rw [if_pos hpass, singleton_append, parseSafeBytes.eq_def]
    simp only [hpass, if_true]
  · rw [if_neg hpass]
    show parseSafeBytes (kDot :: hexDigit (c >>> 4) :: hexDigit (c &&& 0x0f) :: rest) = _
    rw [parseSafeBytes, if_neg (by decide), if_neg (by decide)]
    simp only [decodeHexPair_hexDigit]

theorem parseSafeBytes_safeNameBytes (bytes : Bytes) : parseSafeBytes (safeNameBytes bytes) = some bytes := by
  induction bytes with
  | nil => rfl
  | cons c bytes ih => rw [safeNameBytes_cons, parseSafeBytes_safeByte, ih, Option.map_some]

theorem hyphen_notMem_safeByte (c : UInt8) : kHyphen ∉ safeByte c := by
  unfold safeByte
  by_cases hpass : passesThrough c = true
  · rw [if_pos hpass, mem_singleton]
    intro h
    rw [← h] at hpass
    exact absurd hpass (by decide)
  · obtain ⟨hi, lo, hhi, hlo, -⟩ := halves c
    rw [if_neg hpass, hhi, hlo]
    intro h
    simp only [mem_cons, not_mem_nil, or_false] at h
    rcases h with h | h | h
    · exact absurd h (by decide)
    · exact hexDigit_ne_hyphen hi h.symm
    · exact hexDigit_ne_hyphen lo h.symm

theorem hyphen_notMem_safeNameBytes (bytes : Bytes) : kHyphen ∉ safeNameBytes bytes := by
  rw [safeNameBytes_eq, mem_flatMap]
  intro h
  obtain ⟨c, -, hc⟩ := h
  exact hyphen_notMem_safeByte c hc

theorem safeNameBytes_eq_nil {bytes : Bytes} : safeNameBytes bytes = [] ↔ bytes = [] := by
  constructor
  · intro h
    have hparse := parseSafeBytes_safeNameBytes bytes
    rw [h] at hparse
    exact (Option.some.inj hparse).symm
  · intro h
    rw [h]
    rfl

/-! ## 4. Namespaces -/

theorem foldl_appendSafe (out : Bytes) (ns : List Bytes) :
    (ns.foldl (fun (p : Bytes × Bool) tuple =>
        (appendSafe (if p.2 then p.1 else p.1 ++ [kHyphen]) tuple, false)) (out, false)).1 =
      out ++ ns.flatMap fun tuple => kHyphen :: safeNameBytes tuple := by
  induction ns generalizing out with
  | nil => rw [foldl_nil, flatMap_nil, append_nil]
  | cons tuple ns ih =>
    rw [foldl_cons, ih, flatMap_cons, appendSafe_eq, safeNameBytes_eq]
    simp only [Bool.false_eq_true, if_false, append_assoc, cons_append, nil_append]

theorem safeNameNamespace_cons (tuple : Bytes) (ns : List Bytes) : safeNameNamespace (tuple :: ns) =
    safeNameBytes tuple ++ ns.flatMap fun tuple => kHyphen :: safeNameBytes tuple := by
  rw [safeNameNamespace, appendSafeNamespace, foldl_cons, foldl_appendSafe]
  rfl

theorem safeNameNamespace_eq (ns : List Bytes) :
    safeNameNamespace ns = [kHyphen].intercalate (ns.map safeNameBytes) := by
  cases ns with
  | nil => rfl
  | cons tuple ns =>
    rw [safeNameNamespace_cons]
    induction ns generalizing tuple with
    | nil => simp [intercalate]
    | cons next ns ih =>
      rw [map_cons, map_cons, intercalate_cons_cons, ← map_cons, ← ih, flatMap_cons]
      simp

theorem splitOn_safeNameNamespace {ns : List Bytes} (h : ns ≠ []) :
    (safeNameNamespace ns).splitOn kHyphen = ns.map safeNameBytes := by
  rw [safeNameNamespace_eq]
  refine splitOn_intercalate kHyphen (fun l hl => ?_) (fun hmap => h (map_eq_nil_iff.mp hmap))
  obtain ⟨tuple, -, rfl⟩ := mem_map.mp hl
  exact hyphen_notMem_safeNameBytes tuple

theorem mapM_parseSafeBytes (ns : List Bytes) : (ns.map safeNameBytes).mapM parseSafeBytes = some ns := by
  induction ns with
  | nil => rfl
  | cons tuple ns ih =>
    rw [map_cons, mapM_cons, parseSafeBytes_safeNameBytes, ih]
    rfl

theorem safeNameNamespace_eq_nil {ns : List Bytes} : safeNameNamespace ns = [] ↔ ns = [] ∨ ns = [[]] := by
  cases ns with
  | nil => exact ⟨fun _ => Or.inl rfl, fun _ => rfl⟩
  | cons tuple ns =>
    rw [safeNameNamespace_cons, append_eq_nil_iff, safeNameBytes_eq_nil]
    cases ns with
    | nil => simp
    | cons next ns => simp

def readBackNamespace (ns : List Bytes) : List Bytes := if ns = [[]] then [] else ns

theorem parseSafeNamespace_safeNameNamespace (ns : List Bytes) :
    parseSafeNamespace (safeNameNamespace ns) = some (readBackNamespace ns) := by
  unfold parseSafeNamespace readBackNamespace
  by_cases hnil : safeNameNamespace ns = []
  · rw [hnil]
    rcases safeNameNamespace_eq_nil.mp hnil with rfl | rfl
    · rfl
    · rfl
  · have hns : ns ≠ [] ∧ ns ≠ [[]] := by
      rw [safeNameNamespace_eq_nil, not_or] at hnil
      exact hnil
    rw [if_neg hns.2, if_neg (by rwa [List.isEmpty_iff]), splitOn_safeNameNamespace hns.1, mapM_parseSafeBytes]

/-! ## 5. Full names -/

theorem rfind_none {x : UInt8} {text : Bytes} (h : x ∉ text) : rfind [x, x] text = none := by
  induction text with
  | nil => rfl
  | cons c text ih =>
    rw [mem_cons, not_or] at h
    rw [rfind, ih h.2]
    simp [h.1]

/-- **The last pair of hyphens** is the one that was written, for no hyphen comes behind it. -/
theorem rfind_separator {x : UInt8} {rest : Bytes} (h : x ∉ rest) (text : Bytes) :
    rfind [x, x] (text ++ x :: x :: rest) = some text.length := by
  induction text with
  | nil =>
    have hone : rfind [x, x] (x :: rest) = none := by
      rw [rfind, rfind_none h]
      cases rest with
      | nil => simp
      | cons y rest =>
        rw [mem_cons, not_or] at h
        simp [h.1]
    rw [nil_append, rfind, hone]
    simp
  | cons c text ih => rw [cons_append, rfind, ih, length_cons]

theorem FullTrackName.safeName_eq (ftn : FullTrackName) : ftn.safeName =
    safeNameNamespace ftn.trackNamespace ++ kHyphen :: kHyphen :: safeNameBytes ftn.trackName := by
  rw [safeName, appendSafe_eq, ← safeNameBytes_eq, append_assoc]
  rfl

def FullTrackName.readBack (ftn : FullTrackName) : FullTrackName :=
  { ftn with trackNamespace := readBackNamespace ftn.trackNamespace }

theorem parseSafeFullTrackName_of_safeName (ftn : FullTrackName) :
    parseSafeFullTrackName ftn.safeName = some ftn.readBack := by
  have hsplit := rfind_separator (hyphen_notMem_safeNameBytes ftn.trackName) (safeNameNamespace ftn.trackNamespace)
  have htrack : ((safeNameNamespace ftn.trackNamespace) ++ kHyphen :: kHyphen :: safeNameBytes ftn.trackName).drop
      ((safeNameNamespace ftn.trackNamespace).length + 2) = safeNameBytes ftn.trackName := by
    rw [← drop_drop, drop_left]
    rfl
  rw [safeName_eq, parseSafeFullTrackName, hsplit]
  simp only [Option.bind_eq_bind, Option.bind_some]
  rw [take_left, parseSafeNamespace_safeNameNamespace, Option.bind_some, htrack, parseSafeBytes_safeNameBytes]
  rfl

theorem safeNameNamespace_readBack (ns : List Bytes) :
    safeNameNamespace (readBackNamespace ns) = safeNameNamespace ns := by
  unfold readBackNamespace
  split
  · rename_i h
    rw [h]
    rfl
  · rfl

theorem FullTrackName.safeName_readBack (ftn : FullTrackName) : ftn.readBack.safeName = ftn.safeName := by
  rw [safeName_eq, safeName_eq, readBack, safeNameNamespace_readBack]

theorem FullTrackName.safeName_eq_iff {a b : FullTrackName} : a.safeName = b.safeName ↔ a.readBack = b.readBack := by
  constructor
  · intro h
    have ha := parseSafeFullTrackName_of_safeName a
    rw [h, parseSafeFullTrackName_of_safeName b] at ha
    exact (Option.some.inj ha).symm
  · intro h
    rw [← a.safeName_readBack, h, b.safeName_readBack]

theorem readBackNamespace_eq_iff {ns ns' : List Bytes} : readBackNamespace ns = readBackNamespace ns' ↔
    ns = ns' ∨ ns = [[]] ∧ ns' = [] ∨ ns = [] ∧ ns' = [[]] := by
  unfold readBackNamespace
  by_cases hns : ns = [[]]
  · subst hns
    by_cases hns' : ns' = [[]]
    · simp [hns']
    · rw [if_pos rfl, if_neg hns']
      constructor
      · intro h
        exact Or.inr (Or.inl ⟨rfl, h.symm⟩)
      · intro h
        rcases h with h | ⟨-, h⟩ | ⟨h, -⟩
        · exact absurd h.symm hns'
        · exact h.symm
        · cases h
  · rw [if_neg hns]
    by_cases hns' : ns' = [[]]
    · subst hns'
      simp [hns]
    · simp [hns, hns']

/-- The names differ only in that one has no namespace tuple where the other has an empty one. -/
def FullTrackName.DifferByEmptyTuple (a b : FullTrackName) : Prop :=
  a.trackName = b.trackName ∧
    (a.trackNamespace = [[]] ∧ b.trackNamespace = [] ∨ a.trackNamespace = [] ∧ b.trackNamespace = [[]])

/-- **Safe names can be read back**, but for the namespace with a single empty tuple, which is read back as
    the empty one; and two names have the same rendering exactly if they are equal or differ in that way. -/
theorem safe_names_read_back (ftn : FullTrackName) :
    parseSafeFullTrackName ftn.safeName =
        some (if ftn.trackNamespace = [[]] then ⟨[], ftn.trackName⟩ else ftn) ∧
      ∀ other : FullTrackName, ftn.safeName = other.safeName ↔ ftn = other ∨ ftn.DifferByEmptyTuple other := by
  constructor
  · rw [parseSafeFullTrackName_of_safeName, readBack, readBackNamespace]
    by_cases h : ftn.trackNamespace = [[]]
    · rw [if_pos h, if_pos h]
    · rw [if_neg h, if_neg h]
  · intro other
    rw [safeName_eq_iff, FullTrackName.DifferByEmptyTuple]
    obtain ⟨ns, name⟩ := ftn
    obtain ⟨ns', name'⟩ := other
    simp only [readBack, mk.injEq, readBackNamespace_eq_iff]
    tauto

end Moqx
