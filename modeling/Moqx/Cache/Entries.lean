/-
  Subject: Entries come and go, and the byte counters follow.

  * `storeObjects` -- a group gets new entries, with the counters that belong to them;
  * `getCachedObjectMaybe_tidy` -- an entry expires;
  * `cacheObject_writes`, `cacheObjectAndUpdateBytes_stores` -- a whole write.
-/
import Moqx.Cache.Accounts

namespace Moqx

open AList Option Table

variable {pins : GroupRef → Nat} {lives : TrackRef → Nat} {c c' : MoqxCache} {t : TrackRef} {r : GroupRef}
  {ftn : FullTrackName} {pinned : GroupRef → Prop} {w : ObjectWrite}

namespace MoqxCache

variable {t' : TrackRef} {r' : GroupRef} {g g' : Nat}

/-! ## 1. New entries in a group -/

def storeObjects (c : MoqxCache) (r : GroupRef) (objects : AList (fun _ : Nat => CacheEntry))
    (bytes total : Nat) : MoqxCache :=
  { c.setGroup r { c.group r with objects := objects, totalBytes := bytes } with totalCachedBytes := total }

section store

variable {objects : AList (fun _ : Nat => CacheEntry)} {bytes total : Nat}

theorem storeObjects_self :
    (c.storeObjects r objects bytes total).group r = { c.group r with objects := objects, totalBytes := bytes } :=
  setGroup_self

theorem storeObjects_ne (h : r' ≠ r) : (c.storeObjects r objects bytes total).group r' = c.group r' :=
  setGroup_ne h

theorem storeObjects_lists (r' : GroupRef) :
    ((c.storeObjects r objects bytes total).group r').pinCount = (c.group r').pinCount ∧
      ((c.storeObjects r objects bytes total).group r').lruIter = (c.group r').lruIter ∧
      ((c.storeObjects r objects bytes total).group r').globalLruIter = (c.group r').globalLruIter := by
  by_cases hr : r' = r
  · subst hr
    rw [storeObjects_self]
    exact ⟨rfl, rfl, rfl⟩
  · rw [storeObjects_ne hr]
    exact ⟨rfl, rfl, rfl⟩

theorem storeObjects_keeps : Keeps pinned c (c.storeObjects r objects bytes total) where
  nextGroup := Nat.le_refl _
  nextTrack := Nat.le_refl _
  evicted _ h := h
  cache _ h _ := h
  owner _ h := h
  held _ _ h _ := h

theorem storeObjects_cachedBytes (hl : Ledger pins lives c) (hf : c.cache.lookup ftn = some t)
    (hg : c.groupAt t g = some r) :
    (c.storeObjects r objects bytes total).cachedBytes + (c.group r).totalBytes = c.cachedBytes + bytes := by
  have hgroup : (c.storeObjects r objects bytes total).trackBytes t + (c.group r).totalBytes =
      c.trackBytes t + bytes := by
    have hdiff := @total_differ _ _ _ (c.track t).groups g (fun _ r => (c.group r).totalBytes)
      (fun _ r' => ((c.storeObjects r objects bytes total).group r').totalBytes) r hg fun g' r' hne hr' => by
        rw [storeObjects_ne]
        rintro rfl
        exact hne (hl.groupOnce hr' hg).2
    rw [storeObjects_self] at hdiff
    exact hdiff
  have hother : ∀ f t', f ≠ ftn → c.cache.lookup f = some t' →
      c.trackBytes t' = (c.storeObjects r objects bytes total).trackBytes t' := by
    intro f t' hne hf'
    refine total_congr fun g' r' hr' => ?_
    rw [storeObjects_ne]
    rintro rfl
    obtain ⟨rfl, -⟩ := hl.groupOnce hr' hg
    exact hne (hl.cacheOnce hf' hf)
  have hdiff := @total_differ _ _ _ c.cache ftn (fun _ t => c.trackBytes t)
    (fun _ t => (c.storeObjects r objects bytes total).trackBytes t) t hf hother
  unfold cachedBytes
  show Table.total (fun _ t => (c.storeObjects r objects bytes total).trackBytes t) c.cache + _ = _
  omega

theorem Sound.storeObjects (hs : Sound pins lives c) (hf : c.cache.lookup ftn = some t)
    (hg : c.groupAt t g = some r) (hb : bytes = Table.total (fun _ e => e.payloadSize) objects)
    (htotal : total + (c.group r).totalBytes = c.totalCachedBytes + bytes) :
    Sound pins lives (c.storeObjects r objects bytes total) := by
  have hlists := @storeObjects_lists c r objects bytes total
  refine
    { pinCount := fun r' => by rw [(hlists r').1]; exact hs.pinCount r'
      pinBound := hs.pinBound
      trackNodup := hs.trackNodup
      allNodup := hs.allNodup
      inTrack := fun t' g' => by simp only [(hlists _).1]; exact hs.inTrack t' g'
      inAll := fun f g' => by simp only [(hlists _).1]; exact hs.inAll f g'
      iter := fun hf' hg' => by
        rw [(hlists _).1, (hlists _).2.1, (hlists _).2.2]
        exact hs.iter hf' hg'
      noIter := fun hc' hg' => by
        rw [(hlists _).2.1, (hlists _).2.2]
        exact hs.noIter hc' hg'
      unheld := fun hr hn => by
        rw [(hlists _).2.1]
        exact hs.unheld hr hn
      toNamed := ⟨hs.cacheBound, hs.cacheOnce⟩
      groupBound := hs.groupBound
      groupOnce := hs.groupOnce
      groupBytes := fun r' => ?_
      total := ?_
      noUnderflow := hs.noUnderflow
      liveCount := hs.liveCount
      liveBound := hs.liveBound
      notEvicted := hs.notEvicted
      cached := hs.cached
      emptied := @fun t' g' r' he hg' => ?_ }
  · by_cases hr : r' = r
    · subst hr
      rw [storeObjects_self]
      exact hb
    · rw [storeObjects_ne hr]
      exact hs.groupBytes r'
  · have hbytes := @storeObjects_cachedBytes _ _ c t r ftn g objects bytes total hs.toLedger hf hg
    have hold := hs.total
    show total = _
    omega
  · by_cases hr : r' = r
    · subst hr
      obtain ⟨rfl, -⟩ := hs.groupOnce hg' hg
      have hev : (c.track t').evicted = true := he
      rw [hs.notEvicted hf] at hev
      cases hev
    · rw [storeObjects_ne hr]
      exact hs.emptied he hg'

end store

variable {loc : AbsoluteLocation}

/-! ## 2. Expiry -/

theorem Ledger.entry_le {o : Nat} {e : CacheEntry} (hl : Ledger pins lives c)
    (hf : c.cache.lookup ftn = some t) (hg : c.groupAt t g = some r)
    (he : (c.group r).objects.lookup o = some e) :
    e.payloadSize ≤ (c.group r).totalBytes ∧ (c.group r).totalBytes ≤ c.totalCachedBytes := by
  refine ⟨?_, ?_⟩
  · rw [hl.groupBytes]
    exact @le_total _ _ _ (c.group r).objects o (fun _ e => e.payloadSize) e he
  · rw [hl.total]
    exact Nat.le_trans (@le_total _ _ _ (c.track t).groups g (fun _ r => (c.group r).totalBytes) r hg)
      (@le_total _ _ _ c.cache ftn (fun _ t => c.trackBytes t) t hf)

def dropExpired (c : MoqxCache) (t : TrackRef) (r : GroupRef) (loc : AbsoluteLocation) (size : Nat) :
    MoqxCache :=
  (((c.subGroupBytes r size).subBytes size).setTrack t
    { c.track t with cachedContent := (c.track t).cachedContent.remove loc loc }).eraseObject r loc.object

theorem getCachedObjectMaybe_cases {now : TimePoint} :
    (c.getCachedObjectMaybe t loc now).2 = c ∨ ∃ r e, c.groupAt t loc.group = some r ∧
      (c.group r).objects.lookup loc.object = some e ∧
      (c.getCachedObjectMaybe t loc now).2 = c.dropExpired t r loc e.payloadSize := by
  unfold getCachedObjectMaybe
  simp only
  cases hg : (c.track t).groups.lookup loc.group with
  | none => exact Or.inl rfl
  | some r =>
    simp only
    cases he : (c.group r).objects.lookup loc.object with
    | none => exact Or.inl rfl
    | some e =>
      simp only
      split
      · exact Or.inr ⟨r, e, hg, he, rfl⟩
      · split
        · exact Or.inl rfl
        · exact Or.inl rfl

theorem dropExpired_alike {size : Nat} (hg : size ≤ (c.group r).totalBytes) (ht : size ≤ c.totalCachedBytes) :
    (c.storeObjects r ((c.group r).objects.erase loc.object) ((c.group r).totalBytes - size)
      (c.totalCachedBytes - size)).Alike (c.dropExpired t r loc size) := by
  unfold dropExpired
  refine .of rfl rfl rfl rfl rfl ?_ (fun t' => ?_) fun r' => ?_
  · show ((c.underflow || decide ((c.group r).totalBytes < size)) || decide (c.totalCachedBytes < size)) =
      c.underflow
    rw [decide_eq_false (Nat.not_lt.mpr hg), decide_eq_false (Nat.not_lt.mpr ht), Bool.or_false, Bool.or_false]
  · show (c.track t').Alike ((((c.subGroupBytes r size).subBytes size).setTrack t _).track t')
    by_cases h : t' = t
    · subst h
      rw [setTrack_self]
      exact ⟨rfl, rfl, rfl, rfl⟩
    · rw [setTrack_ne h]
      exact .refl _
  · by_cases h : r' = r
    · subst h
      rw [storeObjects_self]
      unfold eraseObject
      rw [setGroup_self]
      refine ⟨?_, ?_, ?_, ?_, ?_⟩
      all_goals
        simp [setTrack, subBytes, subGroupBytes]
    · rw [storeObjects_ne h]
      unfold eraseObject
      rw [setGroup_ne h]
      show (c.group r').Alike (Function.update c.group r _ r')
      rw [Function.update_of_ne h]
      exact .refl _

theorem storeObjects_sheds {objects : AList (fun _ : Nat => CacheEntry)} {bytes total : Nat}
    (hsub : ∀ o e, objects.lookup o = some e → (c.group r).objects.lookup o = some e) :
    Sheds pinned c (c.storeObjects r objects bytes total) where
  toKeeps := storeObjects_keeps
  entries hf he := by
    refine ⟨hf, ?_⟩
    obtain ⟨r', hr', ho⟩ := bind_eq_some_iff.mp he
    refine bind_eq_some_iff.mpr ⟨r', hr', ?_⟩
    by_cases h : r' = r
    · subst h
      rw [storeObjects_self] at ho
      exact hsub _ _ ho
    · rw [storeObjects_ne h] at ho
      exact ho

theorem getCachedObjectMaybe_tidy {now : TimePoint} (hs : Sound pins lives c) (ht : t < c.nextTrack) :
    Tidy pins lives c (c.getCachedObjectMaybe t loc now).2 := by
  rcases @getCachedObjectMaybe_cases c t loc now with h | ⟨r, e, hg, he, h⟩
  · rw [h]
    exact .refl hs
  · rw [h]
    cases hev : (c.track t).evicted with
    | true =>
      rw [hs.emptied hev hg] at he
      cases he
    | false =>
      obtain ⟨ftn, hf⟩ := hs.cached ht hev
      obtain ⟨h1, h2⟩ := hs.entry_le hf hg he
      have halike := @dropExpired_alike c t r loc _ h1 (Nat.le_trans h1 h2)
      have hstore : Tidy pins lives c (c.storeObjects r ((c.group r).objects.erase loc.object)
          ((c.group r).totalBytes - e.payloadSize) (c.totalCachedBytes - e.payloadSize)) := by
        refine ⟨hs.storeObjects hf hg ?_ ?_, storeObjects_sheds fun o e' ho => (lookup_erase_iff.mp ho).2⟩
        · have := hs.groupBytes r
          unfold CacheGroup.objectBytes at this
          rw [total_erase he] at this
          omega
        · omega
      exact hstore.trans (halike.tidy hstore.1)

/-! ## 3. What a write records besides the entry -/

section write

/-- The relation holds of whatever a write records besides the entry. -/
structure Records (Rel : MoqxCache → MoqxCache → Prop) (t : TrackRef) : Prop where
  refl : ∀ c, Rel c c
  trans : ∀ {c c' c''}, Rel c c' → Rel c' c'' → Rel c c''
  track : ∀ {c tr}, (c.track t).Marked tr → Rel c (c.setTrack t tr)
  group : ∀ {c r gr}, (c.group r).Alike gr → Rel c (c.setGroup r gr)

variable {Rel : MoqxCache → MoqxCache → Prop}

section records

variable (hr : Records Rel t)

include hr

section gaps

variable (hmake : ∀ c, Rel c (c.getOrCreateGroup t g).2)

include hmake

theorem processPriorGroupGap_records {gap : Nat} : Rel c (c.processPriorGroupGap t g gap).2 := by
  unfold processPriorGroupGap
  split
  · exact hr.refl c
  · have hgroup := hmake c
    simp only
    generalize c.getOrCreateGroup t g = p at hgroup ⊢
    split
    · split
      · exact hgroup
      · exact hgroup
    · have hseen : Rel c (p.2.setGroup p.1 { p.2.group p.1 with seenPriorGroupIdGap := some gap }) :=
        hr.trans hgroup (hr.group ⟨rfl, rfl, rfl, rfl, rfl⟩)
      split
      · split
        · exact hseen
        · exact hr.trans hseen (hr.track (CacheTrack.insertGap_marked _ _))
      · exact hseen

theorem processPriorObjectGap_records {gap o : Nat} : Rel c (c.processPriorObjectGap t g o gap).2 := by
  unfold processPriorObjectGap
  split
  · exact hr.refl c
  · split
    · simp only
      split
      · exact hmake c
      · exact hr.trans (hmake c) (hr.track (CacheTrack.insertGap_marked _ _))
    · exact hr.refl c

omit hmake in
theorem processIfPresent_records {gap : Option Nat} {f : Nat → MoqxCache → Reply × MoqxCache}
    (h : ∀ n, Rel c (f n c).2) : Rel c (processIfPresent gap f c).2 := by
  unfold processIfPresent
  cases gap with
  | none => exact hr.refl c
  | some n => exact h n

theorem processGapExtensions_records {o : Nat} {ext : Extensions} :
    Rel c (c.processGapExtensions t g o ext).2 := by
  have hfirst : Rel c (processIfPresent (ext.getIntExtension kPriorGroupIdGapExtensionType)
      (fun gap c => c.processPriorGroupGap t g gap) c).2 :=
    processIfPresent_records hr fun n => processPriorGroupGap_records hr hmake
  unfold processGapExtensions
  split
  · rename_i heq
    rw [heq] at hfirst
    exact hfirst
  · rename_i d heq
    rw [heq] at hfirst
    exact hr.trans hfirst (processIfPresent_records hr fun n => processPriorObjectGap_records hr hmake)

end gaps

theorem markEnd_records : Rel c (c.markEnd r t w) := by
  unfold markEnd
  split
  · refine hr.trans (hr.track ?_) (hr.group ⟨rfl, rfl, rfl, rfl, rfl⟩)
    split
    · split
      · split
        · exact (CacheTrack.insertGap_marked _ _).trans (CacheTrack.insertGap_marked _ _)
        · exact CacheTrack.insertGap_marked _ _
      · split
        · exact CacheTrack.insertGap_marked _ _
        · rfl
    · split
      · exact CacheTrack.insertGap_marked _ _
      · rfl
  · exact hr.refl c

theorem index_records : Rel c (c.index r t w) := by
  have hmax : ∀ d : MoqxCache, Rel d (if (d.group r).maxCachedObject ≤ w.objectID then
      d.setGroup r { d.group r with maxCachedObject := w.objectID } else d) := by
    intro d
    split
    · exact hr.group ⟨rfl, rfl, rfl, rfl, rfl⟩
    · exact hr.refl d
  refine hr.trans ?_ (hmax _)
  split
  · exact hr.track rfl
  · exact hr.refl c

end records

theorem alike_records : Records Alike t := ⟨.refl, .trans, fun h => setTrack_alike h.alike, setGroup_alike⟩

theorem alike_records_of_group : Records (fun c c' => c.groupAt t g = some r → c.Alike c') t where
  refl c _ := .refl c
  trans h h' hg := (h hg).trans (h' (((h hg).groupAt _ _).trans hg))
  track h _ := alike_records.track h
  group h _ := setGroup_alike h

theorem getOrCreateGroup_alike (c : MoqxCache) (hg : c.groupAt t g = some r) : c.Alike (c.getOrCreateGroup t g).2 := by
  unfold getOrCreateGroup
  rw [groupAt] at hg
  rw [hg]
  exact .refl c

theorem processPriorGroupGap_alike {gap : Nat} (hg : c.groupAt t g = some r) :
    c.Alike (c.processPriorGroupGap t g gap).2 :=
  processPriorGroupGap_records alike_records_of_group getOrCreateGroup_alike hg

theorem processGapExtensions_alike {o : Nat} {ext : Extensions} (hg : c.groupAt t g = some r) :
    c.Alike (c.processGapExtensions t g o ext).2 :=
  processGapExtensions_records alike_records_of_group getOrCreateGroup_alike hg

end write

end MoqxCache

/-! ## 4. The entry -/

namespace CacheEntry

variable {e : CacheEntry}

theorem refresh_payloadSize : (e.refresh w).payloadSize = e.payloadSize := by
  unfold refresh
  split <;> rfl

theorem refresh_complete : (e.refresh w).complete = e.complete := by
  unfold refresh
  split <;> rfl

theorem extend_complete : (e.extend w).complete = e.complete := by
  unfold extend
  split <;> rfl

theorem payloadSize_le_extend : e.payloadSize ≤ (e.extend w).payloadSize := by
  unfold extend
  split
  · rename_i h
    exact Nat.le_of_lt h.2
  · exact Nat.le_refl _

def merge (e : CacheEntry) (w : ObjectWrite) : CacheEntry :=
  { (e.refresh w).extend w with complete := ((e.refresh w).extend w).finishes w }

theorem payloadSize_le_merge : e.payloadSize ≤ (e.merge w).payloadSize := by
  have h : (e.refresh w).payloadSize ≤ (e.merge w).payloadSize := payloadSize_le_extend
  rw [refresh_payloadSize] at h
  exact h

/-- What a write makes of the entry that was there, if any. -/
inductive Updated (w : ObjectWrite) : Option CacheEntry → CacheEntry → Prop where
  | added : w.offset = 0 → Updated w none (.ofWrite w)
  /-- A complete entry only gets new properties. -/
  | refreshed {e : CacheEntry} : e.complete = true → Updated w (some e) (e.refresh w)
  /-- The chunk is merged into an incomplete entry. -/
  | merged {e : CacheEntry} : e.complete = false → Updated w (some e) (e.merge w)

theorem Updated.size_le {old : Option CacheEntry} (h : Updated w old e) :
    (old.elim 0 fun e => e.payloadSize) ≤ e.payloadSize := by
  cases h with
  | added => exact Nat.zero_le _
  | refreshed =>
    rw [refresh_payloadSize]
    exact Nat.le_refl _
  | merged => exact payloadSize_le_merge

end CacheEntry

namespace CacheGroup

variable {gr gr' : CacheGroup} {b : Bool}

/-- What a write makes of a group: nothing, if the entry was dropped mid-object, or else one entry
    changes and its bytes are accounted for. -/
def Wrote (gr : CacheGroup) (w : ObjectWrite) (gr' : CacheGroup) : Prop :=
  gr' = gr ∨ ∃ e, CacheEntry.Updated w (gr.objects.lookup w.objectID) e ∧
    gr' = gr.store w.objectID e
      (e.payloadSize - (gr.objects.lookup w.objectID).elim 0 fun e => e.payloadSize)

theorem writeEntry_wrote (h : gr.writeEntry w = .ok (gr', b)) : Wrote gr w gr' := by
  unfold writeEntry at h
  cases hold : gr.objects.lookup w.objectID with
  | none =>
    rw [hold] at h
    simp only at h
    split at h
    · cases h
      exact Or.inl rfl
    · rename_i ho
      cases h
      refine Or.inr ⟨.ofWrite w, ?_, ?_⟩
      · rw [hold]
        exact .added (Nat.eq_zero_of_not_pos ho)
      · rw [hold]
        rfl
  | some e =>
    rw [hold] at h
    simp only at h
    split at h
    · cases h
    · split at h
      · rename_i hc
        cases h
        refine Or.inr ⟨e.refresh w, ?_, ?_⟩
        · rw [hold]
          exact .refreshed hc
        · rw [hold, CacheEntry.refresh_payloadSize, elim_some, Nat.sub_self]
      · rename_i hc
        have hc : e.complete = false := by simpa using hc
        have hcomplete : ((e.refresh w).extend w).complete = false := by
          rw [CacheEntry.extend_complete, CacheEntry.refresh_complete, hc]
        -- both outcomes store the merged entry
        suffices hmerge : gr' = gr.store w.objectID (e.merge w) ((e.merge w).payloadSize - e.payloadSize) by
          refine Or.inr ⟨e.merge w, ?_, ?_⟩
          · rw [hold]
            exact .merged hc
          · rw [hold]
            exact hmerge
        split at h
        · rename_i hf
          cases h
          unfold CacheEntry.merge
          rw [hf]
        · rename_i hf
          cases h
          unfold CacheEntry.merge
          rw [show ((e.refresh w).extend w).finishes w = ((e.refresh w).extend w).complete by
            rw [hcomplete]; simpa using hf]

theorem Wrote.eq (h : Wrote gr w gr') : gr' =
    { gr with objects := gr'.objects, totalBytes := gr'.totalBytes } := by
  rcases h with rfl | ⟨e, -, rfl⟩
  · rfl
  · rfl

theorem Wrote.bytes (h : Wrote gr w gr') : gr.totalBytes ≤ gr'.totalBytes ∧
    gr'.objectBytes + gr.totalBytes = gr.objectBytes + gr'.totalBytes := by
  rcases h with rfl | ⟨e, hu, rfl⟩
  · exact ⟨Nat.le_refl _, rfl⟩
  · have hle := hu.size_le
    refine ⟨Nat.le_add_right _ _, ?_⟩
    show total _ (gr.objects.insert w.objectID _) + _ = total _ gr.objects + (_ + _)
    cases hold : gr.objects.lookup w.objectID with
    | none =>
      rw [total_insert_new hold]
      simp only [elim_none]
      omega
    | some old =>
      rw [hold] at hle
      simp only [elim_some] at hle
      rw [total_insert, total_erase hold]
      simp only [elim_some]
      omega

theorem Wrote.lookup (h : Wrote gr w gr') {o : Nat} {e : CacheEntry} (ho : gr'.objects.lookup o = some e) :
    gr.objects.lookup o = some e ∨
      o = w.objectID ∧ CacheEntry.Updated w (gr.objects.lookup w.objectID) e := by
  rcases h with rfl | ⟨e', hu, rfl⟩
  · exact Or.inl ho
  · replace ho : (gr.objects.insert w.objectID e').lookup o = some e := ho
    by_cases heq : o = w.objectID
    · subst heq
      rw [lookup_insert] at ho
      cases ho
      exact Or.inr ⟨rfl, hu⟩
    · rw [lookup_insert_ne heq] at ho
      exact Or.inl ho

end CacheGroup

/-! ## 5. The write -/

namespace MoqxCache

/-- Nothing that is held goes away, and the only entry that may be new is what the write `w` makes of an
    entry of the track `t`; that one may have disappeared before. -/
structure Stores (pinned : GroupRef → Prop) (t : TrackRef) (w : ObjectWrite) (c c' : MoqxCache) : Prop
    extends Keeps pinned c c' where
  entries : ∀ {ftn t' loc e}, c'.cache.lookup ftn = some t' → c'.entryAt t' loc = some e →
    c.cache.lookup ftn = some t' ∧ c.entryAt t' loc = some e ∨
      t' = t ∧ loc = w.location ∧ ∃ old, CacheEntry.Updated w old e ∧
        ∀ e', old = some e' → c.cache.lookup ftn = some t ∧ c.entryAt t loc = some e'

theorem Sheds.stores (h : Sheds pinned c c') : Stores pinned t w c c' where
  toKeeps := h.toKeeps
  entries hf he := Or.inl (h.entries hf he)

theorem Stores.mono {pinned' : GroupRef → Prop} (h : Stores pinned t w c c') (himp : ∀ r, pinned' r → pinned r) :
    Stores pinned' t w c c' :=
  { h.toKeeps.mono himp with entries := h.entries }

theorem Sheds.andStores {c'' : MoqxCache} (h : Sheds pinned c c') (h' : Stores pinned t w c' c'') :
    Stores pinned t w c c'' where
  toKeeps := h.toKeeps.trans h'.toKeeps
  entries hf he := by
    rcases h'.entries hf he with ⟨hf', he'⟩ | ⟨rfl, rfl, old, hu, hold⟩
    · exact Or.inl (h.entries hf' he')
    · refine Or.inr ⟨rfl, rfl, old, hu, fun e' h' => ?_⟩
      obtain ⟨hf', he'⟩ := hold e' h'
      exact h.entries hf' he'

theorem Stores.andSheds {c'' : MoqxCache} (h : Stores pinned t w c c') (h' : Sheds pinned c' c'') :
    Stores pinned t w c c'' where
  toKeeps := h.toKeeps.trans h'.toKeeps
  entries hf he := by
    obtain ⟨hf', he'⟩ := h'.entries hf he
    exact h.entries hf' he'

/-- What `cacheObject` can do: it only touches what the books do not record, or it also writes the
    entry. -/
inductive Writes (c : MoqxCache) (r : GroupRef) (w : ObjectWrite) : Reply → MoqxCache → Prop where
  | refused {c' : MoqxCache} {e : MoQPublishError} : c.Alike c' → Writes c r w (.error e) c'
  | written {c₁ c' : MoqxCache} {gr : CacheGroup} : c.Alike c₁ → (c₁.group r).Wrote w gr →
      (c₁.setGroup r gr).Alike c' → Writes c r w (.ok ()) c'

theorem cacheObject_writes (hg : c.groupAt t w.groupID = some r) :
    Writes c r w (c.cacheObject r t w).1 (c.cacheObject r t w).2 := by
  have hgaps := @processGapExtensions_alike c t r w.groupID w.objectID w.extensions hg
  unfold cacheObject
  split
  · exact .refused (.refl c)
  · split
    · rename_i heq
      rw [heq] at hgaps
      exact .refused hgaps
    · rename_i d heq
      rw [heq] at hgaps
      have halike : c.Alike (d.markEnd r t w) := hgaps.trans (markEnd_records alike_records)
      simp only
      split
      · exact .refused halike
      · rename_i hw
        exact .written halike (CacheGroup.writeEntry_wrote hw) (.refl _)
      · rename_i hw
        exact .written halike (CacheGroup.writeEntry_wrote hw) (index_records alike_records)

theorem Alike.setTotal (h : c.Alike c') (n : Nat) :
    Alike { c with totalCachedBytes := n } { c' with totalCachedBytes := n } :=
  ⟨⟨h.cache, h.nextGroup, h.nextTrack, h.globalGroupLRU, rfl, h.underflow, h.groups, h.groupLRU,
    h.group⟩, h.live, h.evicted⟩

theorem storeObjects_stores {gr : CacheGroup} {total : Nat} (hl : Ledger pins lives c)
    (hg : c.groupAt t w.groupID = some r) (hw : (c.group r).Wrote w gr) :
    Stores pinned t w c (c.storeObjects r gr.objects gr.totalBytes total) where
  toKeeps := storeObjects_keeps
  entries := @fun f t' loc e hf he => by
    obtain ⟨r', hr', ho⟩ := bind_eq_some_iff.mp he
    replace hr' : c.groupAt t' loc.group = some r' := hr'
    by_cases hr : r' = r
    · subst hr
      rw [storeObjects_self] at ho
      obtain ⟨rfl, hgroup⟩ := hl.groupOnce hr' hg
      rcases hw.lookup ho with ho | ⟨hobj, hu⟩
      · exact Or.inl ⟨hf, bind_eq_some_iff.mpr ⟨r', hr', ho⟩⟩
      · refine Or.inr ⟨rfl, ?_, _, hu, fun e' ho => ⟨hf, bind_eq_some_iff.mpr ⟨r', hr', ?_⟩⟩⟩
        · show loc = ⟨w.groupID, w.objectID⟩
          rw [← hgroup, ← hobj]
        · rw [hobj]
          exact ho
    · rw [storeObjects_ne hr] at ho
      exact Or.inl ⟨hf, bind_eq_some_iff.mpr ⟨r', hr', ho⟩⟩

/-- **A write** into a group that a cached track holds keeps the books right. -/
theorem cacheObjectAndUpdateBytes_stores (hs : Sound pins lives c) (hf : c.cache.lookup ftn = some t)
    (hg : c.groupAt t w.groupID = some r) :
    Sound pins lives (c.cacheObjectAndUpdateBytes r t w).2 ∧
      Stores (fun r => 0 < pins r) t w c (c.cacheObjectAndUpdateBytes r t w).2 := by
  have hwrites := cacheObject_writes hg
  unfold cacheObjectAndUpdateBytes
  generalize c.cacheObject r t w = res at hwrites
  obtain ⟨reply, d⟩ := res
  simp only at hwrites
  cases hwrites with
  | refused h => exact ⟨hs.alike h, h.sheds.stores⟩
  | @written c₁ _ gr h₁ hw h₂ =>
    have hs₁ := hs.alike h₁
    have hf₁ : c₁.cache.lookup ftn = some t := by rw [h₁.cache]; exact hf
    have hg₁ : c₁.groupAt t w.groupID = some r := (h₁.groupAt t w.groupID).trans hg
    obtain ⟨hle, hbytes⟩ := hw.bytes
    have hbooks := hs₁.groupBytes r
    -- the entry is stored and the total follows
    let total := c₁.totalCachedBytes + (gr.totalBytes - (c₁.group r).totalBytes)
    have hsound : Sound pins lives (c₁.storeObjects r gr.objects gr.totalBytes total) := by
      refine hs₁.storeObjects hf₁ hg₁ ?_ ?_
      · show gr.totalBytes = gr.objectBytes
        omega
      · show c₁.totalCachedBytes + (gr.totalBytes - (c₁.group r).totalBytes) + _ = _
        omega
    have hstores := @storeObjects_stores pins lives c₁ t r (fun r => 0 < pins r) w gr total hs₁.toLedger hg₁ hw
    -- the rest is not in the books
    have hrest : (c₁.storeObjects r gr.objects gr.totalBytes total).Alike
        (d.updateBytes (c.group r).totalBytes (d.group r).totalBytes) := by
      have hd : (d.group r).totalBytes = gr.totalBytes := by
        rw [(h₂.group r).totalBytes, setGroup_self]
      rw [hd, ← (h₁.group r).totalBytes, updateBytes, if_pos hle, h₂.total, storeObjects, ← hw.eq]
      exact h₂.setTotal _
    simp only
    generalize d.updateBytes (c.group r).totalBytes (d.group r).totalBytes = u at hrest ⊢
    have hlast : u.Alike (u.setTrack t { u.track t with lastWrite := w.now }) :=
      setTrack_alike ⟨rfl, rfl, rfl, rfl⟩
    have htidy := (hrest.trans hlast).tidy hsound
    have hevict := evictForByteLimitIfNeeded_tidy htidy.1
    exact ⟨hevict.1, h₁.sheds.andStores (hstores.andSheds (htidy.2.trans hevict.2))⟩

end MoqxCache

end Moqx
