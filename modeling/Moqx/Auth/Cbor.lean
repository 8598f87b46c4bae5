/-
  Subject: THE CLAIM FILTER: the reader of a token's CBOR, against the grammar of data items.

  * `readType`, `readInt`, `readBytes`, `skip` -- the reader: what it read, and the bytes it has left;
  * `hasOnlyEnforcedClaims` -- the filter of `strict_claims`;
  * `Head`, `Item` -- the grammar of data items, with the reader's count of what is in a map;
  * `EnforcedToken` -- the tokens whose claims are all enforced;
  * `cbor_skip_exact`, `claim_filter_exact` -- the reader and the filter accept exactly these;
  * `authenticateSetup`, `permitted_request_backed` -- what backs a request that is permitted.
-/
import Moqx.Auth.Model

namespace Moqx.Auth

open List

/-! ## 1. The reader -/

namespace CborReader

/-- The number of bytes that hold the argument, by the additional information. -/
def argumentBytes : Nat → Option Nat
  | 24 => some 1
  | 25 => some 2
  | 26 => some 4
  | 27 => some 8
  | _ => none

/-- At most eight bytes are read, so nothing is shifted out of the 64 bits. -/
def bigEndian (bytes : Bytes) : Nat := bytes.foldl (fun value b => value <<< 8 ||| b.toNat) 0

def majorOf (first : UInt8) : Nat := first.toNat >>> 5

def addlOf (first : UInt8) : Nat := first.toNat &&& 0x1f

/-- The major type and the value. -/
def readType : Bytes → Option ((Nat × Nat) × Bytes)
  | [] => none
  | first :: rest =>
    if addlOf first < 24 then some ((majorOf first, addlOf first), rest)
    else
      match argumentBytes (addlOf first) with
      | none => none
      | some bytes =>
        if rest.length < bytes then none
        else some ((majorOf first, bigEndian (rest.take bytes)), rest.drop bytes)

def int64Max : Nat := 2 ^ 63 - 1

/-- The value of an item of one major type. -/
def readMajor (major : Nat) (r : Bytes) : Option (Nat × Bytes) :=
  match readType r with
  | some ((m, value), r) => if m = major then some (value, r) else none
  | none => none

def readUInt : Bytes → Option (Nat × Bytes) := readMajor 0

def readArrayLen : Bytes → Option (Nat × Bytes) := readMajor 4

def readMapLen : Bytes → Option (Nat × Bytes) := readMajor 5

def readInt (r : Bytes) : Option (Int × Bytes) :=
  match readType r with
  | some ((0, value), r) => if int64Max < value then none else some (value, r)
  | some ((1, value), r) => if int64Max < value then none else some (-1 - value, r)
  | _ => none

def readBytes (r : Bytes) : Option (Bytes × Bytes) :=
  match readType r with
  | some ((2, len), r) | some ((3, len), r) => if r.length < len then none else some (r.take len, r.drop len)
  | _ => none

/-- The loop over the items of an array or a map. -/
def skipItems (skip : Bytes → Option Bytes) : Nat → Bytes → Option Bytes
  | 0, r => some r
  | n + 1, r => (skip r).bind (skipItems skip n)

/-- `skip`, nested less than `depth` deep. -/
def skipTo : Nat → Bytes → Option Bytes
  | 0, _ => none
  | depth + 1, r =>
    match readType r with
    | some ((0, _), r) | some ((1, _), r) => some r
    | some ((2, value), r) | some ((3, value), r) => if r.length < value then none else some (r.drop value)
    | some ((4, value), r) => skipItems (skipTo depth) value r
    -- the bound of the loop is a 64-bit product
    | some ((5, value), r) => skipItems (skipTo depth) (value * 2 % 2 ^ 64) r
    | _ => none

/-- Every level of nesting takes a byte. -/
def skip (r : Bytes) : Option Bytes := skipTo (r.length + 1) r

end CborReader

open CborReader

/-! ## 2. The filter -/

section filter

-- The keys of the enforced claims, `CLAIM_EXP` and `CLAIM_MOQT`.
variable (claimExp claimMoqt : Int)

/-- One claim; `seen` tells which of the two there have been. -/
def readClaim (seen : Bool × Bool) (r : Bytes) : Option ((Bool × Bool) × Bytes) :=
  match readInt r with
  | none => none
  | some (key, r) =>
    if key = claimExp then
      if seen.1 then none
      else
        match readUInt r with
        | none => none
        | some (exp, r) => if int64Max < exp then none else some ((true, seen.2), r)
    else if key = claimMoqt then
      if seen.2 then none else (skip r).map fun r => ((seen.1, true), r)
    else none

/-- The loop over the claims, and the check that nothing follows them. -/
def onlyEnforced : Nat → Bool × Bool → Bytes → Bool
  | 0, _, r => r.isEmpty
  | n + 1, seen, r =>
    match readClaim claimExp claimMoqt seen r with
    | none => false
    | some (seen, r) => onlyEnforced n seen r

/-- The third item of an array of four. -/
def readPayload (cwtBytes : Bytes) : Option Bytes :=
  match readArrayLen cwtBytes with
  | some (4, r) => (((skip r).bind skip).bind readBytes).map (·.1)
  | _ => none

def hasOnlyEnforcedClaims (cwtBytes : Bytes) : Bool :=
  match (readPayload cwtBytes).bind readMapLen with
  | none => false
  | some (numClaims, r) => onlyEnforced claimExp claimMoqt numClaims (false, false) r

end filter

/-! ## 3. The grammar -/

/-- The head of an item: its first byte, and the argument behind it where it does not fit in there. -/
inductive Head (major : Nat) : Nat → Bytes → Prop where
  | short {first : UInt8} : majorOf first = major → addlOf first < 24 → Head major (addlOf first) [first]
  | long {first : UInt8} {argument : Bytes} : majorOf first = major → 24 ≤ addlOf first →
    argumentBytes (addlOf first) = some argument.length → Head major (bigEndian argument) (first :: argument)

/-- One complete data item of definite length. A map of fewer than 2^63 entries has a key and a value for each;
    of more the reader takes what is left of their number in 64 bits. -/
inductive Item : Bytes → Prop where
  | int {major value : Nat} {head : Bytes} : Head major value head → major = 0 ∨ major = 1 → Item head
  | string {major : Nat} {head content : Bytes} : Head major content.length head → major = 2 ∨ major = 3 →
    Item (head ++ content)
  | array {head : Bytes} {parts : List Bytes} : Head 4 parts.length head → (∀ part ∈ parts, Item part) →
    Item (head ++ parts.flatten)
  | map {value : Nat} {head : Bytes} {parts : List Bytes} : Head 5 value head → value * 2 % 2 ^ 64 = parts.length →
    (∀ part ∈ parts, Item part) → Item (head ++ parts.flatten)

/-- An integer of 64 bits with a sign. -/
def IntItem (key : Int) (b : Bytes) : Prop :=
  ∃ value, value ≤ int64Max ∧ (Head 0 value b ∧ key = value ∨ Head 1 value b ∧ key = -1 - value)

/-- A claim as it stands in the map. -/
structure ClaimItem where
  key : Int
  keyBytes : Bytes
  value : Bytes

/-- The expiry, as an unsigned integer that is one of 64 bits with a sign too, or the scopes, as any item. -/
def ClaimItem.Enforced (claimExp claimMoqt : Int) (c : ClaimItem) : Prop :=
  IntItem c.key c.keyBytes ∧ (c.key = claimExp ∧ (∃ exp ≤ int64Max, Head 0 exp c.value) ∨
    c.key ≠ claimExp ∧ c.key = claimMoqt ∧ Item c.value)

def claimBytes (claims : List ClaimItem) : Bytes := (claims.map fun c => c.keyBytes ++ c.value).flatten

/-- An array of four, whose third item is a string that is a map of enforced claims, each at most once. Of the fourth
    item nothing is said. -/
def EnforcedToken (claimExp claimMoqt : Int) (cwt : Bytes) : Prop :=
  ∃ (cose protected_ unprotected head map tag : Bytes) (major : Nat) (claims : List ClaimItem),
    cwt = cose ++ (protected_ ++ (unprotected ++ (head ++ (map ++ claimBytes claims ++ tag)))) ∧
    Head 4 4 cose ∧ Item protected_ ∧ Item unprotected ∧
    (major = 2 ∨ major = 3) ∧ Head major (map ++ claimBytes claims).length head ∧
    Head 5 claims.length map ∧ (claims.map (·.key)).Nodup ∧ ∀ c ∈ claims, c.Enforced claimExp claimMoqt

/-! ## 4. Reading and skipping -/

variable {major value depth n : Nat} {r r' b head : Bytes} {parts : List Bytes} {key claimExp claimMoqt : Int}

theorem Head.length_pos (h : Head major value head) : 0 < head.length := by
  cases h <;> exact Nat.succ_pos _

theorem part_length_lt {part : Bytes} (hhead : Head major value head) (hp : part ∈ parts)
    (h : (head ++ parts.flatten).length < n + 1) : part.length < n := by
  have := (sublist_flatten_of_mem hp).length_le
  have := hhead.length_pos
  rw [length_append] at h
  omega

theorem readType_iff : readType r = some ((major, value), r') ↔ ∃ head, Head major value head ∧ r = head ++ r' := by
  constructor
  · intro h
    cases r with
    | nil => cases h
    | cons first rest =>
      rw [readType] at h
      split at h
      · rename_i hlt
        cases h
        exact ⟨[first], .short rfl hlt, rfl⟩
      · rename_i hlt
        split at h
        · cases h
        · rename_i bytes hbytes
          split at h
          · cases h
          · rename_i hlen
            cases h
            refine ⟨first :: rest.take bytes, .long rfl (Nat.le_of_not_lt hlt) ?_, ?_⟩
            · rw [hbytes, length_take, Nat.min_eq_left (Nat.le_of_not_lt hlen)]
            · rw [cons_append, take_append_drop]
  · rintro ⟨head, hhead, rfl⟩
    cases hhead with
    | short hmajor hlt => rw [cons_append, readType, if_pos hlt, hmajor, nil_append]
    | long hmajor hge hlen =>
      rw [cons_append, readType, if_neg (Nat.not_lt.mpr hge), hlen]
      dsimp only
      rw [if_neg (by rw [length_append]; omega), take_left, drop_left, hmajor]

theorem Head.readType (h : Head major value head) : readType (head ++ r) = some ((major, value), r) :=
  readType_iff.mpr ⟨_, h, rfl⟩

theorem skipItems_complete {skip : Bytes → Option Bytes} (h : ∀ part ∈ parts, ∀ t, skip (part ++ t) = some t)
    (t : Bytes) : skipItems skip parts.length (parts.flatten ++ t) = some t := by
  induction parts with
  | nil => rfl
  | cons part parts ih =>
    obtain ⟨hpart, hparts⟩ := forall_mem_cons.mp h
    rw [flatten_cons, append_assoc, length_cons, skipItems, hpart]
    exact ih hparts

/-- An item is skipped, with any depth that is enough for its length. -/
theorem skipTo_complete (h : Item b) (hd : b.length < depth) (t : Bytes) : skipTo depth (b ++ t) = some t := by
  induction h generalizing depth t with
  | int hhead hm =>
    obtain _ | depth := depth
    · cases hd
    · rw [skipTo, hhead.readType]
      rcases hm with rfl | rfl <;> rfl
  | string hhead hm =>
    obtain _ | depth := depth
    · cases hd
    · rw [append_assoc, skipTo, hhead.readType]
      rcases hm with rfl | rfl <;> simp
  | array hhead _ ih =>
    obtain _ | depth := depth
    · cases hd
    · rw [append_assoc, skipTo, hhead.readType]
      exact skipItems_complete (fun part hp t => ih part hp (part_length_lt hhead hp hd) t) t
  | map hhead hn _ ih =>
    obtain _ | depth := depth
    · cases hd
    · rw [append_assoc, skipTo, hhead.readType]
      show skipItems (skipTo depth) (_ * 2 % 2 ^ 64) _ = _
      rw [hn]
      exact skipItems_complete (fun part hp t => ih part hp (part_length_lt hhead hp hd) t) t

theorem skipItems_sound {skip : Bytes → Option Bytes} (hskip : ∀ {r r'}, skip r = some r' → ∃ b, Item b ∧ r = b ++ r')
    (h : skipItems skip n r = some r') :
    ∃ parts : List Bytes, parts.length = n ∧ (∀ part ∈ parts, Item part) ∧ r = parts.flatten ++ r' := by
  induction n generalizing r with
  | zero =>
    cases h
    exact ⟨[], rfl, forall_mem_nil _, rfl⟩
  | succ n ih =>
    obtain ⟨r₁, hfirst, hrest⟩ := Option.bind_eq_some_iff.mp h
    obtain ⟨b, hb, rfl⟩ := hskip hfirst
    obtain ⟨parts, rfl, hparts, rfl⟩ := ih hrest
    exact ⟨b :: parts, rfl, forall_mem_cons.mpr ⟨hb, hparts⟩, by rw [flatten_cons, append_assoc]⟩

theorem string_sound (hhead : Head major value head) (hm : major = 2 ∨ major = 3)
    (h : (if r.length < value then none else some (r.drop value)) = some r') :
    ∃ b, Item b ∧ head ++ r = b ++ r' := by
  split at h
  · cases h
  · rename_i hlen
    cases h
    refine ⟨head ++ r.take value, .string ?_ hm, by rw [append_assoc, take_append_drop]⟩
    rwa [length_take, Nat.min_eq_left (Nat.le_of_not_lt hlen)]

/-- What is skipped is an item. -/
theorem skipTo_sound (h : skipTo depth r = some r') : ∃ b, Item b ∧ r = b ++ r' := by
  induction depth generalizing r r' with
  | zero => cases h
  | succ depth ih =>
    rw [skipTo] at h
    split at h
    case h_7 => cases h
    all_goals
      rename_i hread
      obtain ⟨head, hhead, rfl⟩ := readType_iff.mp hread
    · cases h
      exact ⟨head, .int hhead (Or.inl rfl), rfl⟩
    · cases h
      exact ⟨head, .int hhead (Or.inr rfl), rfl⟩
    · exact string_sound hhead (Or.inl rfl) h
    · exact string_sound hhead (Or.inr rfl) h
    · obtain ⟨parts, rfl, hparts, rfl⟩ := skipItems_sound ih h
      exact ⟨_, .array hhead hparts, (append_assoc ..).symm⟩
    · obtain ⟨parts, hlen, hparts, rfl⟩ := skipItems_sound ih h
      exact ⟨_, .map hhead hlen.symm hparts, (append_assoc ..).symm⟩

theorem skip_iff : skip r = some r' ↔ ∃ b, Item b ∧ r = b ++ r' := by
  refine ⟨skipTo_sound, ?_⟩
  rintro ⟨b, hb, rfl⟩
  refine skipTo_complete hb ?_ r'
  rw [length_append]
  omega

theorem readMajor_iff : readMajor major r = some (value, r') ↔ ∃ head, Head major value head ∧ r = head ++ r' := by
  rw [← readType_iff, readMajor]
  split
  · rename_i hread
    simp only [hread, Option.some.injEq, Prod.mk.injEq]
    split <;> simp_all
  · rename_i hread
    simp [hread]

theorem readInt_iff : readInt r = some (key, r') ↔ ∃ b, IntItem key b ∧ r = b ++ r' := by
  constructor
  · intro h
    unfold readInt at h
    split at h
    case h_3 => cases h
    all_goals
      rename_i hread
      obtain ⟨head, hhead, rfl⟩ := readType_iff.mp hread
      split at h
      · cases h
      rename_i hle
      cases h
    · exact ⟨head, ⟨_, Nat.le_of_not_lt hle, .inl ⟨hhead, rfl⟩⟩, rfl⟩
    · exact ⟨head, ⟨_, Nat.le_of_not_lt hle, .inr ⟨hhead, rfl⟩⟩, rfl⟩
  · rintro ⟨b, ⟨value, hle, ⟨hhead, rfl⟩ | ⟨hhead, rfl⟩⟩, rfl⟩ <;>
    · rw [readInt, hhead.readType]
      exact if_neg (Nat.not_lt.mpr hle)

theorem readBytes_iff : readBytes r = some (b, r') ↔
    ∃ major head, (major = 2 ∨ major = 3) ∧ Head major b.length head ∧ r = head ++ (b ++ r') := by
  constructor
  · intro h
    unfold readBytes at h
    split at h
    case h_3 => cases h
    all_goals
      rename_i hread
      obtain ⟨head, hhead, rfl⟩ := readType_iff.mp hread
      split at h
      · cases h
      rename_i hle
      cases h
      rw [← Nat.min_eq_left (Nat.le_of_not_lt hle), ← length_take] at hhead
    · exact ⟨_, head, .inl rfl, hhead, by rw [take_append_drop]⟩
    · exact ⟨_, head, .inr rfl, hhead, by rw [take_append_drop]⟩
  · rintro ⟨major, head, hm, hhead, rfl⟩
    rw [readBytes, hhead.readType]
    rcases hm with rfl | rfl <;> simp

/-- **Skipping is exact**: `skip` takes an item off the front of the bytes and leaves what is behind it, if there is one
    there, and there is at most one. -/
theorem cbor_skip_exact (r : Bytes) :
    (∀ r', skip r = some r' ↔ ∃ b, Item b ∧ r = b ++ r') ∧ {b | Item b ∧ b <+: r}.Subsingleton := by
  refine ⟨fun _ => skip_iff, ?_⟩
  rintro b ⟨hb, s, rfl⟩ b' ⟨hb', s', h⟩
  have hs : skip (b ++ s) = some s := skip_iff.mpr ⟨b, hb, rfl⟩
  rw [skip_iff.mpr ⟨b', hb', h.symm⟩] at hs
  cases hs
  exact (append_cancel_right h).symm

/-- A map that announces 2^63 entries and has none. -/
example : skip [0xbb, 0x80, 0, 0, 0, 0, 0, 0, 0] = some [] := by decide

/-! ## 5. The claims -/

namespace ClaimItem

/-- The claim has not been seen. -/
def Fresh (claimExp : Int) (seen : Bool × Bool) (c : ClaimItem) : Prop :=
  if c.key = claimExp then seen.1 = false else seen.2 = false

/-- What has been seen after it. -/
def after (claimExp : Int) (seen : Bool × Bool) (c : ClaimItem) : Bool × Bool :=
  if c.key = claimExp then (true, seen.2) else (seen.1, true)

variable {c c' : ClaimItem} {seen seen' : Bool × Bool}

/-- There are only two keys. -/
theorem Enforced.fresh_after (hc : c.Enforced claimExp claimMoqt) (hc' : c'.Enforced claimExp claimMoqt) :
    c'.Fresh claimExp (c.after claimExp seen) ↔ c'.key ≠ c.key ∧ c'.Fresh claimExp seen := by
  unfold Fresh after
  rcases hc.2 with ⟨h, -⟩ | ⟨hne, h, -⟩ <;> rcases hc'.2 with ⟨h', -⟩ | ⟨hne', h', -⟩ <;>
    simp_all
  exact fun _ => Ne.symm hne

end ClaimItem

variable {seen seen' : Bool × Bool}

theorem readClaim_iff : readClaim claimExp claimMoqt seen r = some (seen', r') ↔
    ∃ c : ClaimItem, c.Enforced claimExp claimMoqt ∧ c.Fresh claimExp seen ∧ seen' = c.after claimExp seen ∧
      r = c.keyBytes ++ (c.value ++ r') := by
  constructor
  · intro h
    unfold readClaim at h
    split at h
    · cases h
    rename_i key r₁ hkey
    obtain ⟨k, hk, rfl⟩ := readInt_iff.mp hkey
    split at h
    · rename_i hexp
      split at h
      · cases h
      rename_i hseen
      split at h
      · cases h
      rename_i exp r₂ hread
      obtain ⟨v, hv, rfl⟩ := readMajor_iff.mp hread
      split at h
      · cases h
      rename_i hle
      cases h
      refine ⟨⟨key, k, v⟩, ⟨hk, .inl ⟨hexp, exp, Nat.le_of_not_lt hle, hv⟩⟩, ?_, (if_pos hexp).symm, rfl⟩
      exact (if_pos hexp).mpr (Bool.eq_false_of_not_eq_true hseen)
    · rename_i hexp
      split at h
      · rename_i hmoqt
        split at h
        · cases h
        rename_i hseen
        obtain ⟨r₂, hskip, hr⟩ := Option.map_eq_some_iff.mp h
        cases hr
        obtain ⟨v, hv, rfl⟩ := skip_iff.mp hskip
        refine ⟨⟨key, k, v⟩, ⟨hk, .inr ⟨hexp, hmoqt, hv⟩⟩, ?_, (if_neg hexp).symm, rfl⟩
        exact (if_neg hexp).mpr (Bool.eq_false_of_not_eq_true hseen)
      · cases h
  · rintro ⟨c, ⟨hkey, hvalue⟩, hfresh, rfl, rfl⟩
    rw [readClaim, readInt_iff.mpr ⟨_, hkey, rfl⟩]
    unfold ClaimItem.Fresh at hfresh
    unfold ClaimItem.after
    rcases hvalue with ⟨hexp, exp, hle, hhead⟩ | ⟨hexp, hmoqt, hitem⟩
    · rw [if_pos hexp] at hfresh
      have hread : readUInt (c.value ++ r') = some (exp, r') := readMajor_iff.mpr ⟨_, hhead, rfl⟩
      simp [hexp, hfresh, hread, Nat.not_lt.mpr hle]
    · rw [if_neg hexp] at hfresh
      have hskip : skip (c.value ++ r') = some r' := skip_iff.mpr ⟨_, hitem, rfl⟩
      rw [if_neg hexp] 
      simp only [if_neg hexp, if_pos hmoqt, hfresh, hskip]
      rfl

theorem onlyEnforced_iff : onlyEnforced claimExp claimMoqt n seen r = true ↔
    ∃ claims : List ClaimItem, claims.length = n ∧ r = claimBytes claims ∧ (claims.map (·.key)).Nodup ∧
      ∀ c ∈ claims, c.Enforced claimExp claimMoqt ∧ c.Fresh claimExp seen := by
  induction n generalizing seen r with
  | zero =>
    rw [onlyEnforced, List.isEmpty_iff]
    constructor
    · rintro rfl
      exact ⟨[], rfl, rfl, nodup_nil, forall_mem_nil _⟩
    · rintro ⟨claims, hn, rfl, -⟩
      rw [length_eq_zero_iff.mp hn]
      rfl
  | succ n ih =>
    constructor
    · intro h
      rw [onlyEnforced] at h
      split at h
      · cases h
      rename_i hclaim
      obtain ⟨c, hc, hfresh, rfl, rfl⟩ := readClaim_iff.mp hclaim
      obtain ⟨claims, rfl, rfl, hnodup, hall⟩ := ih.mp h
      have hother := fun c' hc' => (hc.fresh_after (hall c' hc').1).mp (hall c' hc').2
      refine ⟨c :: claims, rfl, (append_assoc ..).symm, nodup_cons.mpr ⟨fun hmem => ?_, hnodup⟩,
        forall_mem_cons.mpr ⟨⟨hc, hfresh⟩, fun c' hc' => ⟨(hall c' hc').1, (hother c' hc').2⟩⟩⟩
      obtain ⟨c', hc', heq⟩ := mem_map.mp hmem
      exact (hother c' hc').1 heq
    · rintro ⟨_ | ⟨c, claims⟩, hn, rfl, hnodup, hall⟩
      · cases hn
      cases hn
      obtain ⟨⟨hc, hfresh⟩, hall⟩ := forall_mem_cons.mp hall
      obtain ⟨hnew, hnodup⟩ := nodup_cons.mp hnodup
      have hclaim : readClaim claimExp claimMoqt seen (claimBytes (c :: claims)) =
          some (c.after claimExp seen, claimBytes claims) :=
        readClaim_iff.mpr ⟨c, hc, hfresh, rfl, append_assoc ..⟩
      rw [onlyEnforced, hclaim]
      refine ih.mpr ⟨claims, rfl, rfl, hnodup, fun c' hc' => ⟨(hall c' hc').1, ?_⟩⟩
      refine (hc.fresh_after (hall c' hc').1).mpr ⟨fun heq => hnew ?_, (hall c' hc').2⟩
      exact mem_map.mpr ⟨c', hc', heq⟩

theorem hasOnlyEnforcedClaims_sound {cwt : Bytes} (h : hasOnlyEnforcedClaims claimExp claimMoqt cwt = true) :
    EnforcedToken claimExp claimMoqt cwt := by
  unfold hasOnlyEnforcedClaims at h
  split at h
  · cases h
  rename_i hread
  obtain ⟨payload, hpayload, hread⟩ := Option.bind_eq_some_iff.mp hread
  obtain ⟨map, hmap, rfl⟩ := readMajor_iff.mp hread
  obtain ⟨claims, rfl, rfl, hnodup, hall⟩ := onlyEnforced_iff.mp h
  unfold readPayload at hpayload
  split at hpayload
  · rename_i harray
    obtain ⟨cose, hcose, rfl⟩ := readMajor_iff.mp harray
    simp only [Option.map_eq_some_iff, Option.bind_eq_some_iff, skip_iff, Prod.exists, readBytes_iff] at hpayload
    obtain ⟨_, tag, ⟨_, ⟨_, ⟨p, hp, rfl⟩, u, hu, rfl⟩, major, head, hmajor, hhead, rfl⟩, rfl⟩ := hpayload
    exact ⟨cose, p, u, head, map, tag, major, claims, rfl, hcose, hp, hu, hmajor, hhead, hmap, hnodup,
      fun c hc => (hall c hc).1⟩
  · cases hpayload

/-- **The filter is exact**: of all byte strings it accepts those that are a token of enforced claims. -/
theorem claim_filter_exact (claimExp claimMoqt : Int) (cwt : Bytes) :
    hasOnlyEnforcedClaims claimExp claimMoqt cwt = true ↔ EnforcedToken claimExp claimMoqt cwt := by
  refine ⟨hasOnlyEnforcedClaims_sound, ?_⟩
  rintro ⟨cose, p, u, head, map, tag, major, claims, rfl, hcose, hp, hu, hmajor, hhead, hmap, hnodup, hall⟩
  have harray : ∀ r, readArrayLen (cose ++ r) = some (4, r) := fun r => readMajor_iff.mpr ⟨cose, hcose, rfl⟩
  have hskip : ∀ {b r}, Item b → skip (b ++ r) = some r := fun hb => skip_iff.mpr ⟨_, hb, rfl⟩
  have hbytes := readBytes_iff.mpr ⟨major, head, hmajor, hhead, @rfl _ (head ++ (map ++ claimBytes claims ++ tag))⟩
  have hlen : readMapLen (map ++ claimBytes claims) = some (_, _) := readMajor_iff.mpr ⟨map, hmap, rfl⟩
  have hfresh : ∀ c : ClaimItem, c.Fresh claimExp (false, false) := fun c => by simp [ClaimItem.Fresh]
  simp only [hasOnlyEnforcedClaims, readPayload, harray, hskip hp, hskip hu, Option.bind_some, Option.map_some,
    hbytes, hlen]
  exact onlyEnforced_iff.mpr ⟨claims, rfl, rfl, hnodup, fun c hc => ⟨hall c hc, hfresh c⟩⟩


/-! ## 6. Sessions and requests -/

/-- The grants of a session, from the tokens of its setup; they are all verified at `verifyNow`. -/
def authenticateSetup (v : AuthTokenVerifier) (setupParams : List Parameter) (verifyNow now : TimePoint) :
    Except AuthError (List Grants) :=
  if !v.config.enabled then .ok []
  else
    let tokens := findAuthTokens setupParams v.config.tokenType
    if v.config.maxTokensPerMessage < tokens.length then .error .tooManyTokens
    else
      let verified := verifyTokens v tokens verifyNow
      if v.config.requireSetupToken && tokens.isEmpty then .error .missing
      else if v.config.requireSetupToken && !allowsAny verified.grants .clientSetup [] none now then
        .error (denialError verified.grants verified.firstError)
      else .ok verified.grants

section verify

variable {v : AuthTokenVerifier} {token : AuthToken} {now : TimePoint} {grants : Grants}

theorem tryKeys_ok {keys : List HmacKey} (h : v.tryKeys token now keys = .ok grants) :
    ∃ k ∈ keys, v.tryVerify token now k = .ok grants := by
  induction keys with
  | nil => cases h
  | cons k keys ih =>
    rw [AuthTokenVerifier.tryKeys] at h
    split at h
    · obtain ⟨k', hk', hok⟩ := ih h
      exact ⟨k', mem_cons_of_mem _ hk', hok⟩
    · exact ⟨k, mem_cons_self, h⟩

/-- All tokens that verify count. -/
theorem authenticateSetup_ok {setupParams : List Parameter} {verifyNow : TimePoint} {sessionGrants : List Grants}
    (henabled : v.config.enabled = true) (h : authenticateSetup v setupParams verifyNow now = .ok sessionGrants) :
    sessionGrants = (verifyTokens v (findAuthTokens setupParams v.config.tokenType) verifyNow).grants := by
  unfold authenticateSetup at h
  rw [henabled] at h
  split at h
  · contradiction
  dsimp only at h
  repeat' split at h
  all_goals cases h
  rfl

theorem verify_ok (henabled : v.config.enabled = true) (h : v.verify token now = .ok grants) :
    ∃ k ∈ v.config.hmacKeys, v.tryVerify token now k = .ok grants := by
  unfold AuthTokenVerifier.verify at h
  rw [henabled] at h
  split at h
  · contradiction
  split at h
  · cases h
  split at h
  · cases h
  split at h
  · cases h
  · split at h
    · cases h
    · rename_i k hkey
      unfold AuthTokenVerifier.keyById at hkey
      split at hkey
      · cases hkey
      · exact ⟨k, mem_of_find?_eq_some hkey, h⟩
  · exact tryKeys_ok h

theorem tryVerify_ok {k : HmacKey} (hstrict : v.config.strictClaims = true) (h : v.tryVerify token now k = .ok grants) :
    ∃ cwt, v.format.validateCwt token.tokenValue (v.format.deriveHmacKey k.secret) = .ok cwt ∧
      grantsFromToken cwt = grants ∧ now < grants.expiresAt ∧
      v.format.hasOnlyEnforcedClaims token.tokenValue = true := by
  unfold AuthTokenVerifier.tryVerify at h
  split at h
  · cases h
  · cases h
  rename_i cwt hcwt
  dsimp only at h
  split at h
  · cases h
  rename_i hexpires
  split at h
  · cases h
  rename_i hclaims
  cases h
  exact ⟨cwt, hcwt, rfl, lt_of_not_ge hexpires, by simpa [hstrict] using hclaims⟩

/-- A token of the configured type with only enforced claims, which one of the configured keys validates, which had
    not expired when it was verified, and whose grants allow the action. -/
def Backs (v : AuthTokenVerifier) (claimExp claimMoqt : Int) (verifyNow : TimePoint) (allowed : Grants → Bool)
    (param : Parameter) : Prop :=
  param.key = authorizationToken ∧ param.asAuthToken.tokenType = v.config.tokenType ∧
    EnforcedToken claimExp claimMoqt param.asAuthToken.tokenValue ∧ ∃ k ∈ v.config.hmacKeys, ∃ cwt,
      v.format.validateCwt param.asAuthToken.tokenValue (v.format.deriveHmacKey k.secret) = .ok cwt ∧
      verifyNow < (grantsFromToken cwt).expiresAt ∧ allowed (grantsFromToken cwt) = true

theorem verifyTokens_ok {tokens : List AuthToken} (h : grants ∈ (verifyTokens v tokens now).grants) :
    ∃ token ∈ tokens, v.verify token now = .ok grants := by
  -- along the loop, with what has been verified before it
  suffices hloop : ∀ result : VerifiedTokens, grants ∈ (tokens.foldl _ result).grants →
      grants ∈ result.grants ∨ ∃ token ∈ tokens, v.verify token now = .ok grants from
    (hloop {} h).resolve_left not_mem_nil
  clear h
  induction tokens with
  | nil => exact fun _ h => .inl h
  | cons token tokens ih =>
    intro result h
    rcases ih _ h with hmem | ⟨t, ht, hok⟩
    · dsimp only at hmem
      split at hmem
      · exact .inl hmem
      · rename_i hok
        rcases mem_append.mp hmem with hmem | hmem
        · exact .inl hmem
        · rw [mem_singleton.mp hmem]
          exact .inr ⟨token, mem_cons_self, hok⟩
    · exact .inr ⟨t, mem_cons_of_mem _ ht, hok⟩

/-- Grants of verified tokens that allow the action come from one that backs it. -/
theorem verifyTokens_backs {allowed : Grants → Bool} {params : List Parameter} (henabled : v.config.enabled = true)
    (hstrict : v.config.strictClaims = true)
    (hformat : v.format.hasOnlyEnforcedClaims = hasOnlyEnforcedClaims claimExp claimMoqt)
    (h : (verifyTokens v (findAuthTokens params v.config.tokenType) now).grants.any allowed = true) :
    ∃ param ∈ params, Backs v claimExp claimMoqt now allowed param := by
  obtain ⟨grants, hgrants, hallowed⟩ := any_eq_true.mp h
  obtain ⟨token, htoken, hok⟩ := verifyTokens_ok hgrants
  obtain ⟨param, hparam, rfl⟩ := mem_map.mp htoken
  obtain ⟨hparam, hkind⟩ := mem_filter.mp hparam
  simp only [Bool.and_eq_true, beq_iff_eq] at hkind
  obtain ⟨k, hk, hok⟩ := verify_ok henabled hok
  obtain ⟨cwt, hcwt, rfl, hexpires, hclaims⟩ := tryVerify_ok hstrict hok
  rw [hformat] at hclaims
  exact ⟨param, hparam, hkind.1, hkind.2, hasOnlyEnforcedClaims_sound hclaims, k, hk, cwt, hcwt, hexpires, hallowed⟩

/-- **Every permitted request has a backer**, with authorization and `strict_claims` on: the anonymous grants allow it,
    or a token that the session was set up with, or one of the request where these count. -/
theorem permitted_request_backed (v : AuthTokenVerifier) (claimExp claimMoqt : Int)
    (henabled : v.config.enabled = true) (hstrict : v.config.strictClaims = true)
    (hformat : v.format.hasOnlyEnforcedClaims = hasOnlyEnforcedClaims claimExp claimMoqt)
    {setupParams params : List Parameter} {setupVerifyNow setupNow verifyNow now : TimePoint}
    {sessionGrants : List Grants} {action : Action} {ns : TrackNamespace} {trackName : Option Bytes}
    (hsetup : authenticateSetup v setupParams setupVerifyNow setupNow = .ok sessionGrants)
    (h : authorize v action params ns sessionGrants trackName verifyNow now = .ok ()) :
    let allowed := fun grants => allowsImpl grants action ns trackName now
    allowed v.anonymousGrants = true ∨
      (∃ param ∈ setupParams, Backs v claimExp claimMoqt setupVerifyNow allowed param) ∨
      v.config.allowRequestTokenOverride = true ∧ ∃ param ∈ params, Backs v claimExp claimMoqt verifyNow allowed param := by
  unfold authorize at h
  rw [henabled] at h
  split at h
  · contradiction
  dsimp only at h
  split at h
  · cases h
  split at h
  · rename_i hallowed
    simp only [Bool.or_eq_true] at hallowed
    rcases hallowed with (hrequest | hsession) | hanonymous
    · unfold requestGrants at hrequest
      split at hrequest
      · rename_i hoverride
        exact .inr (.inr ⟨hoverride, verifyTokens_backs henabled hstrict hformat hrequest⟩)
      · cases hrequest
    · rw [authenticateSetup_ok henabled hsetup] at hsession
      exact .inr (.inl (verifyTokens_backs henabled hstrict hformat hsession))
    · exact .inl hanonymous
  · cases h

/-- The payload of the setup token is a map without claims, and the tag is missing. -/
theorem permitted_request_backed_setup : ∃ v : AuthTokenVerifier, ∃ param : Parameter,
    Backs v 4 7 0 (fun grants => allowsImpl grants .subscribe [] none 0) param := by
  let v : AuthTokenVerifier :=
    ⟨{ enabled := true, hmacKeys := [⟨[1], [2]⟩], strictClaims := true, maxTokensPerMessage := 1 },
      ⟨id, fun _ => some none, fun _ _ => .ok { moqt := some [⟨[0, 4], ⟨[]⟩, ⟨[]⟩⟩] }, hasOnlyEnforcedClaims 4 7⟩⟩
  let param : Parameter := ⟨authorizationToken, 0, [0x84, 0x40, 0xa0, 0x41, 0xa0]⟩
  have hsetup : authenticateSetup v [param] 0 0 = .ok [grantsFromToken { moqt := some [⟨[0, 4], ⟨[]⟩, ⟨[]⟩⟩] }] := by
    decide
  rcases @permitted_request_backed v 4 7 rfl rfl rfl [param] [] 0 0 0 0 _ .subscribe [] none hsetup (by decide) with
    h | ⟨p, -, h⟩ | ⟨-, p, h, -⟩
  · exact absurd h (by decide)
  · exact ⟨v, p, h⟩
  · cases h

end verify

end Moqx.Auth
