import OpenCog.AtomSpace.Extraction

/-! The decay sweep: the bins shift by one, old atoms are flagged from the links
downwards, and the flagged set leaves every index at once. -/
namespace OpenCog

theorem importanceBin_le (av : AttentionValue) : importanceBin av.sti ≤ 65535 := by
  have := av.sti_le
  unfold importanceBin
  omega

theorem importanceBin_decaySTI (av : AttentionValue) (h : 1 ≤ importanceBin av.sti) :
    importanceBin av.decaySTI.sti = importanceBin av.sti - 1 := by
  have hne : av.sti ≠ -32768 := by
    intro e
    simp [importanceBin, e] at h
  simp only [AttentionValue.decaySTI, hne, dite_false, importanceBin]
  omega

variable {TV : Type}

namespace AtomTable
open Index

/-! ## Shifting the bins -/

/-- Everything but the attention values and their index is the same. -/
structure SameButImportance (s s' : AtomTable TV) : Prop extends SameKeys s s' where
  incoming : s'.incoming = s.incoming
  linked : s'.linked = s.linked
  decayedFlag : s'.decayedFlag = s.decayedFlag
  marked : s'.marked = s.marked

theorem SameButImportance.refl (s : AtomTable TV) : SameButImportance s s :=
  ⟨SameKeys.refl s, rfl, rfl, rfl, rfl⟩

theorem SameButImportance.trans {a b c : AtomTable TV} (h : SameButImportance a b)
    (k : SameButImportance b c) : SameButImportance a c :=
  ⟨h.toSameKeys.trans k.toSameKeys, k.incoming.trans h.incoming, k.linked.trans h.linked,
    k.decayedFlag.trans h.decayedFlag, k.marked.trans h.marked⟩

def reindex (s : AtomTable TV) (idx : Nat → List Handle) : AtomTable TV :=
  { s with importanceIndex := idx }

/-- Writing the index itself changes nothing else. -/
theorem SameButImportance.reindex {a b : AtomTable TV} (h : SameButImportance a b)
    (idx : Nat → List Handle) : SameButImportance a (b.reindex idx) :=
  ⟨⟨h.key, h.absent, h.atomSet, h.orphans, h.size, h.brkUuid, h.nodeIndex, h.linkIndex, h.typeIndex,
    h.targetTypeIndex⟩, h.incoming, h.linked, h.decayedFlag, h.marked⟩

theorem foldl_decaySTI (xs : List Handle) (hnd : xs.Nodup) (s : AtomTable TV) :
    let s' := xs.foldl (fun s h =>
      s.modify h fun a => { a with attentionValue := a.attentionValue.decaySTI }) s
    SameButImportance s s' ∧ s'.importanceIndex = s.importanceIndex ∧
      ∀ g, s'.avOf g =
        if g ∈ xs then (s.avOf g).map AttentionValue.decaySTI else s.avOf g := by
  induction xs generalizing s with
  | nil => exact ⟨SameButImportance.refl s, rfl, by simp⟩
  | cons x xs ih =>
    obtain ⟨hx, hnd⟩ := List.nodup_cons.mp hnd
    set s₁ := s.modify x fun a => { a with attentionValue := a.attentionValue.decaySTI } with hs₁
    have hstep : SameButImportance s s₁ :=
      ⟨sameKeys_modify s x (fun _ => rfl) (fun _ => rfl), incoming_modify s x fun _ => rfl,
        linked_modify s x fun _ => rfl, decayedFlag_modify s x fun _ => rfl,
        marked_modify s x fun _ => rfl⟩
    have hav : ∀ g, s₁.avOf g =
        if g = x then (s.avOf g).map AttentionValue.decaySTI else s.avOf g := by
      intro g
      by_cases e : g = x
      · subst e
        simp only [hs₁, modify, avOf, if_true, Option.map_map]
        rfl
      · simp [hs₁, modify, avOf, e]
    obtain ⟨same, hidx, hrest⟩ := ih hnd s₁
    refine ⟨hstep.trans same, hidx, ?_⟩
    intro g
    rw [List.foldl_cons, hrest, hav]
    by_cases e : g = x
    · subst e; simp [hx]
    · simp [e]

theorem decayBand_spec (s : AtomTable TV) (band : List Handle) :
    SameButImportance s (s.decayBand band) ∧
      (s.decayBand band).importanceIndex = s.importanceIndex ∧
      ∀ g, (s.decayBand band).avOf g =
        if g ∈ band then (s.avOf g).map AttentionValue.decaySTI else s.avOf g := by
  obtain ⟨same, hidx, hav⟩ := foldl_decaySTI band.dedup band.nodup_dedup s
  refine ⟨same, hidx, fun g => ?_⟩
  have := hav g
  simp only [List.mem_dedup] at this
  exact this

/-- Every stored atom is in the bin of its STI, and the bins hold nothing else. -/
def Binned (s : AtomTable TV) : Prop :=
  ∀ i h, h ∈ s.importanceIndex i ↔
    h ∈ s.atomSet ∧ ∃ av, s.avOf h = some av ∧ importanceBin av.sti = i

theorem Inv.binned {cs : ClassServer} {s : AtomTable TV} (hs : Inv cs s) : Binned s :=
  fun _ _ => hs.bins

/-- Where the loop stands before it turns to bin `k`: the bins below `k` have
taken over their successors and the atoms of bins `1..k` have decayed. -/
structure Shifted (s₀ s : AtomTable TV) (k : Nat) : Prop extends SameButImportance s₀ s where
  avOf : ∀ g av, s₀.avOf g = some av → g ∈ s₀.atomSet →
    s.avOf g = some (if 1 ≤ importanceBin av.sti ∧ importanceBin av.sti ≤ k then av.decaySTI else av)
  bins : ∀ i g, g ∈ s.importanceIndex i ↔
    if i = 0 then g ∈ s₀.importanceIndex 0 ∨ g ∈ s₀.importanceIndex 1
    else if i < k then g ∈ s₀.importanceIndex (i + 1) else g ∈ s₀.importanceIndex i

section Shift
variable {s₀ s : AtomTable TV}

/-- Decaying the atoms of bin `k` in a state where they have not decayed yet. -/
theorem avOf_decayBand (hs : Binned s₀) {k : Nat} (hk : 1 ≤ k) {g : Handle} {av : AttentionValue}
    (hg : g ∈ s₀.atomSet) (hav : s₀.avOf g = some av)
    (now : s.avOf g = some (if 1 ≤ importanceBin av.sti ∧ importanceBin av.sti < k
      then av.decaySTI else av)) (band : List Handle)
    (hband : g ∈ band ↔ g ∈ s₀.importanceIndex k) :
    (s.decayBand band).avOf g =
      some (if 1 ≤ importanceBin av.sti ∧ importanceBin av.sti ≤ k then av.decaySTI else av) := by
  have hmem : g ∈ band ↔ importanceBin av.sti = k := by
    rw [hband, hs]
    simp [hg, hav]
  rw [(decayBand_spec s band).2.2 g, now]
  by_cases e : importanceBin av.sti = k
  · have h1 : ¬ (1 ≤ importanceBin av.sti ∧ importanceBin av.sti < k) := by omega
    have h2 : 1 ≤ importanceBin av.sti ∧ importanceBin av.sti ≤ k := by omega
    rw [if_pos (hmem.mpr e), if_neg h1, if_pos h2]
    rfl
  · have h2 : (1 ≤ importanceBin av.sti ∧ importanceBin av.sti < k) ↔
        (1 ≤ importanceBin av.sti ∧ importanceBin av.sti ≤ k) := by omega
    rw [if_neg (mt hmem.mp e)]
    simp only [h2]

theorem Shifted.start (hs : Binned s₀) : Shifted s₀ s₀.mergeFirst 1 := by
  obtain ⟨same, hidx, -⟩ := decayBand_spec s₀ (s₀.importanceIndex 1)
  refine ⟨same.reindex _, ?_, ?_⟩
  · intro g av hav hg
    refine avOf_decayBand hs (Nat.le_refl 1) hg hav ?_ _ Iff.rfl
    rw [hav, if_neg (by omega)]
  · intro i g
    simp only [mergeFirst, hidx]
    by_cases e : i = 0
    · subst e; simp
    · have : ¬ i < 1 := by omega
      simp [e, this]

theorem Shifted.step (hs : Binned s₀) {k : Nat} (hk : 1 ≤ k) (h : Shifted s₀ s k) :
    Shifted s₀ (s.shiftBin k) (k + 1) := by
  have hband : ∀ g, g ∈ s.importanceIndex (k + 1) ↔ g ∈ s₀.importanceIndex (k + 1) := by
    intro g
    rw [h.bins, if_neg (by omega), if_neg (by omega)]
  set s₁ := s.reindex (Function.update s.importanceIndex k (s.importanceIndex (k + 1))) with hs₁
  have hstep : s.shiftBin k = s₁.decayBand (s.importanceIndex (k + 1)) := rfl
  obtain ⟨same, hidx, -⟩ := decayBand_spec s₁ (s.importanceIndex (k + 1))
  rw [hstep]
  refine ⟨(h.toSameButImportance.reindex _).trans same, ?_, ?_⟩
  · intro g av hav hg
    refine avOf_decayBand hs (by omega) hg hav ?_ _ (hband g)
    change s.avOf g = _
    rw [h.avOf g av hav hg]
    simp only [Nat.lt_succ_iff]
  · intro i g
    rw [hidx]
    by_cases e : i = k
    · subst e
      simp only [hs₁, AtomTable.reindex, Function.update_self, hband]
      rw [if_neg (by omega), if_pos (by omega)]
    · simp only [hs₁, AtomTable.reindex, ne_eq, e, not_false_eq_true, Function.update_of_ne, h.bins]
      have : i < k + 1 ↔ i < k := by omega
      simp only [this]

theorem Shifted.run (hs : Binned s₀) (n : Nat) {k : Nat} (hk : 1 ≤ k) (s : AtomTable TV)
    (h : Shifted s₀ s k) : Shifted s₀ ((List.range' k n).foldl shiftBin s) (k + n) := by
  induction n generalizing k s with
  | zero => exact h
  | succ n ih =>
    rw [List.range'_succ, List.foldl_cons, Nat.add_comm n 1, ← Nat.add_assoc]
    exact ih (by omega) _ (h.step hs hk)

/-- The last bin is emptied: once the loop is through, every atom is in the bin
of its decayed value. -/
theorem Shifted.finish (hs : Binned s₀) {s : AtomTable TV} {n : Nat} (hn : n = 65535)
    (h : Shifted s₀ s n) :
    Binned (s.reindex (Function.update s.importanceIndex n [])) := by
  intro i g
  change g ∈ Function.update s.importanceIndex n [] i ↔
    g ∈ s.atomSet ∧ ∃ av, s.avOf g = some av ∧ importanceBin av.sti = i
  rw [h.atomSet]
  by_cases hg : g ∈ s₀.atomSet ∧ s₀.handleMap g ≠ none
  · obtain ⟨hg, hsome⟩ := hg
    obtain ⟨a, ha⟩ := Option.ne_none_iff_exists'.mp hsome
    have hav : s₀.avOf g = some a.attentionValue := by simp [AtomTable.avOf, ha]
    have hold : ∀ j, g ∈ s₀.importanceIndex j ↔ importanceBin a.attentionValue.sti = j := by
      intro j; rw [hs]; simp [hg, hav]
    have hle := hn ▸ importanceBin_le a.attentionValue
    rw [h.avOf g _ hav hg]
    simp only [hg, true_and, Option.some.injEq, exists_eq_left']
    by_cases hpos : 1 ≤ importanceBin a.attentionValue.sti
    · rw [if_pos ⟨hpos, hle⟩, importanceBin_decaySTI _ hpos]
      by_cases e : i = n
      · subst e; simp; omega
      · rw [Function.update_of_ne e, h.bins]
        simp only [hold]
        split
        · omega
        · split <;> omega
    · rw [if_neg (fun hh => hpos hh.1)]
      by_cases e : i = n
      · subst e; simp; omega
      · rw [Function.update_of_ne e, h.bins]
        simp only [hold]
        split
        · omega
        · split <;> omega
  · have hno : ∀ j, g ∉ s₀.importanceIndex j := by
      intro j hj
      obtain ⟨hm, av, hav, -⟩ := (hs j g).mp hj
      refine hg ⟨hm, fun hn => ?_⟩
      simp [AtomTable.avOf, hn] at hav
    have hright : ¬ (g ∈ s₀.atomSet ∧ ∃ av, s.avOf g = some av ∧ importanceBin av.sti = i) := by
      rintro ⟨hm, av, hav, -⟩
      refine hg ⟨hm, fun hn => ?_⟩
      have := (h.absent g).mpr hn
      simp [AtomTable.avOf, this] at hav
    simp only [hright, iff_false]
    by_cases e : i = n
    · subst e; simp
    · rw [Function.update_of_ne e, h.bins]
      simp [hno]

/-- Every stored atom decays once, those of bin 0 without effect. -/
theorem Shifted.decayed {s : AtomTable TV} {n : Nat} (hn : n = 65535) (h : Shifted s₀ s n)
    {g : Handle} (hg : g ∈ s₀.atomSet) (hsome : s₀.handleMap g ≠ none) :
    s.avOf g = (s₀.avOf g).map AttentionValue.decaySTI := by
  obtain ⟨a, ha⟩ := Option.ne_none_iff_exists'.mp hsome
  have hav : s₀.avOf g = some a.attentionValue := by simp [AtomTable.avOf, ha]
  rw [h.avOf g _ hav hg, hav]
  have hle := importanceBin_le a.attentionValue
  by_cases hpos : 1 ≤ importanceBin a.attentionValue.sti
  · rw [if_pos ⟨hpos, hn ▸ hle⟩]
    rfl
  · rw [if_neg fun hh => hpos hh.1]
    have hge := a.attentionValue.sti_ge
    have hlow : a.attentionValue.sti = -32768 := by
      unfold importanceBin at hpos
      omega
    simp [AttentionValue.decaySTI, hlow]

/-- The loop done, the last bin is emptied. -/
theorem decayBins_eq (s : AtomTable TV) : s.decayBins =
    ((List.range' 1 (IMPORTANCE_INDEX_SIZE - 2)).foldl shiftBin s.mergeFirst).reindex
      (Function.update ((List.range' 1 (IMPORTANCE_INDEX_SIZE - 2)).foldl shiftBin
        s.mergeFirst).importanceIndex (IMPORTANCE_INDEX_SIZE - 1) []) := rfl

theorem decayBins_shifted (hs : Binned s₀) : ∃ s n, n = 65535 ∧ Shifted s₀ s n ∧
    s₀.decayBins = s.reindex (Function.update s.importanceIndex n []) := by
  have h := Shifted.run hs (IMPORTANCE_INDEX_SIZE - 2) (Nat.le_refl 1) _ (Shifted.start hs)
  have hn : 1 + (IMPORTANCE_INDEX_SIZE - 2) = IMPORTANCE_INDEX_SIZE - 1 := by
    simp [IMPORTANCE_INDEX_SIZE]
  rw [hn] at h
  exact ⟨_, IMPORTANCE_INDEX_SIZE - 1, by simp [IMPORTANCE_INDEX_SIZE], h, decayBins_eq s₀⟩

theorem decayBins_binned (hs : Binned s₀) (live : ∀ g ∈ s₀.atomSet, s₀.handleMap g ≠ none) :
    Binned s₀.decayBins ∧ SameButImportance s₀ s₀.decayBins ∧
      ∀ g ∈ s₀.atomSet, s₀.decayBins.avOf g = (s₀.avOf g).map AttentionValue.decaySTI := by
  obtain ⟨s, n, hn, h, he⟩ := decayBins_shifted hs
  rw [he]
  exact ⟨h.finish hs hn, h.reindex _, fun g hg => h.decayed hn hg (live g hg)⟩

theorem decayBins_spec {cs : ClassServer} (hs : Inv cs s₀) :
    Inv cs s₀.decayBins ∧ SameButImportance s₀ s₀.decayBins ∧
      ∀ g ∈ s₀.atomSet, s₀.decayBins.avOf g = (s₀.avOf g).map AttentionValue.decaySTI := by
  obtain ⟨hb, same, hav⟩ := decayBins_binned hs.binned fun g hg => hs.record hg
  refine ⟨hs.of_sameKeys same.toSameKeys ?_ ?_ ?_ ?_, same, hav⟩
  · intro i h
    rw [← same.atomSet]
    exact hb i h
  · rw [same.incoming]; exact hs.dual
  · rw [same.decayedFlag]; exact hs.clean
  · rw [same.linked]; exact hs.inTable

end Shift

/-! ## Flagging old atoms -/

/-- Everything but the decay flags is the same. -/
structure SameButFlags (s s' : AtomTable TV) : Prop extends SameKeys s s' where
  avOf : s'.avOf = s.avOf
  incoming : s'.incoming = s.incoming
  linked : s'.linked = s.linked
  marked : s'.marked = s.marked
  importanceIndex : s'.importanceIndex = s.importanceIndex

theorem SameButFlags.refl (s : AtomTable TV) : SameButFlags s s :=
  ⟨SameKeys.refl s, rfl, rfl, rfl, rfl, rfl⟩

theorem SameButFlags.trans {a b c : AtomTable TV} (h : SameButFlags a b) (k : SameButFlags b c) :
    SameButFlags a c :=
  ⟨h.toSameKeys.trans k.toSameKeys, k.avOf.trans h.avOf, k.incoming.trans h.incoming,
    k.linked.trans h.linked, k.marked.trans h.marked, k.importanceIndex.trans h.importanceIndex⟩

def setDecayed (s : AtomTable TV) (h : Handle) (f : Bool) : AtomTable TV :=
  s.modify h fun a => { a with removedByDecay := f }

theorem sameButFlags_setDecayed (s : AtomTable TV) (h : Handle) (f : Bool) :
    SameButFlags s (s.setDecayed h f) :=
  ⟨sameKeys_modify s h (fun _ => rfl) (fun _ => rfl), avOf_modify s h fun _ => rfl,
    incoming_modify s h fun _ => rfl, linked_modify s h fun _ => rfl, marked_modify s h fun _ => rfl,
    rfl⟩

theorem decayedFlag_setDecayed {s : AtomTable TV} {h : Handle} (hh : s.handleMap h ≠ none)
    (f : Bool) (g : Handle) :
    (s.setDecayed h f).decayedFlag g = if g = h then f else s.decayedFlag g := by
  obtain ⟨a, ha⟩ := Option.ne_none_iff_exists'.mp hh
  by_cases e : g = h
  · subst e; simp [setDecayed, decayedFlag, modify, ha]
  · simp [setDecayed, decayedFlag, modify, e]

/-- The order the recursion climbs: references go to older atoms. -/
structure Climbing (s : AtomTable TV) : Prop where
  live : ∀ x ∈ s.atomSet, s.handleMap x ≠ none
  bounded : ∀ x ∈ s.atomSet, x < s.brkUuid
  above : ∀ x ∈ s.atomSet, ∀ l ∈ s.incoming x, l ∈ s.atomSet ∧ x < l

theorem Inv.climbing {cs : ClassServer} {s : AtomTable TV} (hs : Inv cs s) : Climbing s where
  live x hx := by
    obtain ⟨t, b, hk⟩ := hs.live x hx
    obtain ⟨a, ha, -, -⟩ := exists_of_key hk
    rw [ha]; simp
  bounded x hx := hs.lt_brk hx
  above x hx l hl := hs.lt_of_incoming hx hl

theorem SameButFlags.climbing {s s' : AtomTable TV} (e : SameButFlags s s') (h : Climbing s) :
    Climbing s' where
  live x hx := mt (e.absent x).mp (h.live x (e.atomSet ▸ hx))
  bounded x hx := by rw [e.brkUuid]; exact h.bounded x (e.atomSet ▸ hx)
  above x hx l hl := by
    rw [e.atomSet] at hx ⊢
    rw [e.incoming] at hl
    exact h.above x hx l hl

/-- From `k` on, whatever refers to a flagged atom is flagged. -/
def Closed (k : Handle) (s : AtomTable TV) : Prop :=
  ∀ x ∈ s.atomSet, k ≤ x → s.decayedFlag x = true → ∀ l ∈ s.incoming x, s.decayedFlag l = true

/-- What a sweep from `k` upwards did: it flagged exactly the atoms of `res`. -/
structure Swept (k : Handle) (s s' : AtomTable TV) (res : List Handle) : Prop extends
    SameButFlags s s' where
  flags : ∀ g, s'.decayedFlag g = true ↔ s.decayedFlag g = true ∨ g ∈ res
  fresh : ∀ g ∈ res, s.decayedFlag g = false
  nodup : res.Nodup
  stored : ∀ g ∈ res, g ∈ s.atomSet ∧ k ≤ g
  closed : Closed k s'

theorem Swept.refl {k : Handle} {s : AtomTable TV} (h : Closed k s) : Swept k s s [] :=
  ⟨SameButFlags.refl s, by simp, by simp, List.nodup_nil, by simp, h⟩

/-- A sweep from further up leaves the lower part closed: it only adds flags,
and only above its start. -/
theorem Swept.trans {k l : Handle} {a b c : AtomTable TV} {p q : List Handle}
    (h : Swept k a b p) (r : Swept l b c q) (hl : k ≤ l) : Swept k a c (q ++ p) := by
  refine ⟨h.toSameButFlags.trans r.toSameButFlags, ?_, ?_, ?_, ?_, ?_⟩
  · intro g; rw [r.flags, h.flags, List.mem_append]; tauto
  · intro g hg
    rcases List.mem_append.mp hg with hq | hp
    · have := mt (h.flags g).mpr (Bool.not_eq_true _ ▸ r.fresh g hq)
      exact Bool.not_eq_true _ ▸ fun hf => this (.inl hf)
    · exact h.fresh g hp
  · refine List.nodup_append'.mpr ⟨r.nodup, h.nodup, ?_⟩
    intro g hq hp
    have := (h.flags g).mpr (.inr hp)
    rw [r.fresh g hq] at this
    cases this
  · intro g hg
    rcases List.mem_append.mp hg with hq | hp
    · obtain ⟨hm, hle⟩ := r.stored g hq
      exact ⟨h.atomSet ▸ hm, Nat.le_trans hl hle⟩
    · exact h.stored g hp
  · intro x hx hkx hf m hm
    by_cases hlx : l ≤ x
    · exact r.closed x hx hlx hf m hm
    · rcases (r.flags x).mp hf with hf' | hq
      · rw [r.incoming] at hm
        exact (r.flags m).mpr (.inl (h.closed x (r.atomSet ▸ hx) hkx hf' m hm))
      · exact absurd (r.stored x hq).2 hlx

/-! ## Which atoms are flagged -/

def isOldAt (s : AtomTable TV) (minSTI : Int) (h : Handle) : Bool :=
  ((s.handleMap h).map fun a => a.isOld minSTI).getD false

/-- `l` is `h`, or is reached from it over incoming lists. -/
def Over (s : AtomTable TV) (h l : Handle) : Prop :=
  Relation.ReflTransGen (fun x l => l ∈ s.incoming x) h l

/-- The atom and every link over it is old. -/
def Doomed (s : AtomTable TV) (minSTI : Int) (h : Handle) : Prop :=
  ∀ l, s.Over h l → s.isOldAt minSTI l = true

theorem isOldAt_eq (s : AtomTable TV) (minSTI : Int) (h : Handle) :
    s.isOldAt minSTI h =
      ((s.avOf h).map fun av => decide (av.sti < minSTI) && decide (av.lti < 1)).getD false := by
  simp only [isOldAt, avOf, Option.map_map]
  rfl

theorem SameButFlags.doomed {s s' : AtomTable TV} (e : SameButFlags s s') {minSTI : Int}
    {h : Handle} : s'.Doomed minSTI h ↔ s.Doomed minSTI h := by
  simp only [Doomed, Over, isOldAt_eq, e.avOf, e.incoming]

theorem Doomed.old {s : AtomTable TV} {minSTI : Int} {h : Handle} (hd : s.Doomed minSTI h) :
    s.isOldAt minSTI h = true := hd h .refl

theorem Doomed.above {s : AtomTable TV} {minSTI : Int} {h l : Handle} (hd : s.Doomed minSTI h)
    (hl : l ∈ s.incoming h) : s.Doomed minSTI l :=
  fun g hg => hd g (.head hl hg)

theorem doomed_of_above {s : AtomTable TV} {minSTI : Int} {h : Handle}
    (hold : s.isOldAt minSTI h = true) (hall : ∀ l ∈ s.incoming h, s.Doomed minSTI l) :
    s.Doomed minSTI h := by
  intro l hl
  rcases Relation.ReflTransGen.cases_head hl with rfl | ⟨g, hg, hl⟩
  · exact hold
  · exact hall g hg l hl

/-- A sweep that flagged doomed atoms only, with no link before one of its targets. -/
structure Culled (minSTI : Int) (k : Handle) (s s' : AtomTable TV) (res : List Handle) : Prop
    extends Swept k s s' res where
  doomed : ∀ g ∈ res, s.Doomed minSTI g
  order : res.Pairwise fun g l => g ∉ s.incoming l

theorem Culled.refl {minSTI : Int} {k : Handle} {s : AtomTable TV} (h : Closed k s) :
    Culled minSTI k s s [] :=
  ⟨Swept.refl h, by simp, .nil⟩

theorem Culled.trans {minSTI : Int} {k l : Handle} {a b c : AtomTable TV} {p q : List Handle}
    (h : Culled minSTI k a b p) (r : Culled minSTI l b c q) (hl : k ≤ l) :
    Culled minSTI k a c (q ++ p) where
  toSwept := h.toSwept.trans r.toSwept hl
  doomed g hg := by
    rcases List.mem_append.mp hg with hq | hp
    · exact h.toSameButFlags.doomed.mp (r.doomed g hq)
    · exact h.doomed g hp
  order := by
    refine List.pairwise_append.mpr ⟨r.order.imp fun hg => ?_, h.order, fun g hq m hp hm => ?_⟩
    · rwa [h.incoming] at hg
    · -- what refers to an atom flagged before was flagged before
      obtain ⟨hms, hkm⟩ := h.stored m hp
      have hf := h.closed m (h.atomSet ▸ hms) hkm ((h.flags m).mpr (.inr hp)) g (by rwa [h.incoming])
      rw [r.fresh g hq] at hf
      cases hf

/-- What the flags found from `k` on must be for a sweep to be right. -/
def Just (minSTI : Int) (k : Handle) (s : AtomTable TV) : Prop :=
  ∀ x ∈ s.atomSet, k ≤ x → s.decayedFlag x = true → s.Doomed minSTI x

theorem Culled.just {minSTI : Int} {k : Handle} {s s' : AtomTable TV} {res : List Handle}
    (h : Culled minSTI k s s' res) (hj : Just minSTI k s) : Just minSTI k s' := by
  intro x hx hle hf
  rw [h.toSameButFlags.doomed]
  rcases (h.flags x).mp hf with hf | hr
  · exact hj x (h.atomSet ▸ hx) hle hf
  · exact h.doomed x hr

theorem Just.mono {minSTI : Int} {k l : Handle} {s : AtomTable TV} (h : Just minSTI k s)
    (hl : k ≤ l) : Just minSTI l s :=
  fun x hx hle => h x hx (Nat.le_trans hl hle)

/-- The loop over the incoming list, given what the recursive calls do. -/
theorem extractOld_loop (minSTI : Int) (fuel : Nat) (s₀ : AtomTable TV) (h : Handle)
    (is : List Handle) (hc : Climbing s₀) (hclosed : Closed (h + 1) s₀)
    (hjust : Just minSTI (h + 1) s₀)
    (his : ∀ l ∈ is, l ∈ s₀.atomSet ∧ h < l) (hfuel : s₀.brkUuid ≤ h + (fuel + 1))
    (ih : ∀ (s : AtomTable TV) l, Climbing s → l ∈ s.atomSet → s.brkUuid ≤ l + fuel → Closed l s →
      Just minSTI l s → s.isOldAt minSTI l = true →
      ∃ s' res, extractOld minSTI fuel s l = some (s', res) ∧ Culled minSTI l s s' res ∧
        (s.Doomed minSTI l → s'.decayedFlag l = true)) :
    ∃ acc, is.foldlM (fun (acc : AtomTable TV × List Handle) l => do
          let b ← acc.1.handleMap l
          if b.isOld minSTI then
            let (s, extracted) ← extractOld minSTI fuel acc.1 l
            some (s, extracted ++ acc.2)
          else some acc) (s₀, []) = some acc ∧ Culled minSTI (h + 1) s₀ acc.1 acc.2 ∧
      ∀ l ∈ is, s₀.Doomed minSTI l → acc.1.decayedFlag l = true := by
  refine Exists.imp (fun acc h => ⟨h.1, h.2.2.1, fun l hl =>
    (h.2.2.2 l hl).resolve_left List.not_mem_nil⟩) (Fold.foldlM_some
    (fun rest (acc : AtomTable TV × List Handle) =>
      (∀ l ∈ rest, l ∈ s₀.atomSet ∧ h < l) ∧ Culled minSTI (h + 1) s₀ acc.1 acc.2 ∧
      ∀ l ∈ is, l ∈ rest ∨ (s₀.Doomed minSTI l → acc.1.decayedFlag l = true))
    is (s₀, []) ⟨his, Culled.refl hclosed, fun _ hl => .inl hl⟩ ?_)
  rintro l rest ⟨s, res⟩ ⟨hrest, hx, hseen⟩
  replace hx : Culled minSTI (h + 1) s₀ s res := hx
  have hlater : ∀ l ∈ rest, l ∈ s₀.atomSet ∧ h < l :=
    fun g hg => hrest g (List.mem_cons_of_mem l hg)
  obtain ⟨hl, hlt⟩ := hrest l List.mem_cons_self
  have hcs := hx.climbing hc
  have hls : l ∈ s.atomSet := hx.atomSet ▸ hl
  obtain ⟨b, hb⟩ := Option.ne_none_iff_exists'.mp (hcs.live l hls)
  have hbold : s.isOldAt minSTI l = b.isOld minSTI := by simp [isOldAt, hb]
  simp only [hb, Option.bind_eq_bind, Option.bind_some]
  cases hold : b.isOld minSTI with
  | false =>
    refine ⟨(s, res), rfl, hlater, hx, fun g hg => ?_⟩
    rcases hseen g hg with hg | hg
    · rcases List.mem_cons.mp hg with rfl | hg
      · refine .inr fun hd => ?_
        have := (hx.toSameButFlags.doomed.mpr hd).old
        rw [hbold, hold] at this
        cases this
      · exact .inl hg
    · exact .inr hg
  | true =>
    obtain ⟨s', res', he, hx', hfull⟩ := ih s l hcs hls (by rw [hx.brkUuid]; lia)
      (fun x hx₁ hx₂ => hx.closed x hx₁ (by lia)) ((hx.just hjust).mono hlt) (hbold.trans hold)
    refine ⟨(s', res' ++ res), by simp [he], hlater, hx.trans hx' hlt, fun g hg => ?_⟩
    rcases hseen g hg with hg | hg
    · rcases List.mem_cons.mp hg with rfl | hg
      · exact .inr fun hd => hfull (hx.toSameButFlags.doomed.mpr hd)
      · exact .inl hg
    · exact .inr fun hd => (hx'.flags g).mpr (.inl (hg hd))

/-! ## The flag of the atom itself -/

section Flag

variable {minSTI : Int} {s s₁ : AtomTable TV} {h : Handle} {res : List Handle}

theorem Closed.flag (hclosed : Closed h s) (hlive : s.handleMap h ≠ none) :
    Closed (h + 1) (s.setDecayed h true) := by
  have same := sameButFlags_setDecayed s h true
  intro x hx hle hf l hl
  have hne : x ≠ h := by lia
  rw [decayedFlag_setDecayed hlive true, if_neg hne] at hf
  rw [same.atomSet] at hx
  rw [same.incoming] at hl
  rw [decayedFlag_setDecayed hlive true]
  split
  · rfl
  · exact hclosed x hx (by lia) hf l hl

theorem Just.flag (hjust : Just minSTI h s) (hlive : s.handleMap h ≠ none) :
    Just minSTI (h + 1) (s.setDecayed h true) := by
  have same := sameButFlags_setDecayed s h true
  intro x hx hle hf
  have hne : x ≠ h := by lia
  rw [decayedFlag_setDecayed hlive true, if_neg hne] at hf
  rw [same.doomed]
  exact hjust x (same.atomSet ▸ hx) (by lia) hf

/-- What was flagged above the atom, seen from before its own flag was set. -/
structure CulledAbove (minSTI : Int) (h : Handle) (s s₁ : AtomTable TV) (res : List Handle) :
    Prop extends SameButFlags s s₁ where
  notMem : h ∉ res
  flags : ∀ g, s₁.decayedFlag g = true ↔ g = h ∨ s.decayedFlag g = true ∨ g ∈ res
  fresh : ∀ g ∈ res, s.decayedFlag g = false
  nodup : res.Nodup
  stored : ∀ g ∈ res, g ∈ s.atomSet ∧ h < g
  closed : Closed (h + 1) s₁
  doomed : ∀ g ∈ res, s.Doomed minSTI g
  order : res.Pairwise fun g l => g ∉ s.incoming l

theorem Culled.above (hx : Culled minSTI (h + 1) (s.setDecayed h true) s₁ res)
    (hlive : s.handleMap h ≠ none) : CulledAbove minSTI h s s₁ res := by
  have same := sameButFlags_setDecayed s h true
  have hflag := decayedFlag_setDecayed hlive true
  have hres : h ∉ res := by
    intro hr
    have := hx.fresh h hr
    rw [hflag, if_pos rfl] at this
    cases this
  refine ⟨same.trans hx.toSameButFlags, hres, fun g => ?_, fun g hg => ?_, hx.nodup,
    fun g hg => ?_, hx.closed, fun g hg => same.doomed.mp (hx.doomed g hg), ?_⟩
  · rw [hx.flags, hflag]
    by_cases e : g = h
    · simp [e]
    · simp [e]
  · have := hx.fresh g hg
    rwa [hflag, if_neg (fun e : g = h => hres (e ▸ hg))] at this
  · obtain ⟨hm, hle⟩ := hx.stored g hg
    exact ⟨hm, by lia⟩
  · exact hx.order.imp fun hg => by rwa [same.incoming] at hg

/-- The flag is taken back where something that stays refers to the atom. -/
theorem CulledAbove.takenBack (hx : CulledAbove minSTI h s s₁ res) (hc : Climbing s)
    (hlive : s.handleMap h ≠ none) (hflag : s.decayedFlag h = false) :
    Culled minSTI h s (s₁.setDecayed h false) res := by
  have hlive₁ : s₁.handleMap h ≠ none := mt (hx.absent h).mp hlive
  have hflag₁ := decayedFlag_setDecayed hlive₁ false
  have same₁ := sameButFlags_setDecayed s₁ h false
  refine ⟨⟨hx.toSameButFlags.trans same₁, fun g => ?_, hx.fresh, hx.nodup,
    fun g hg => (hx.stored g hg).imp_right Nat.le_of_lt, fun x hxm hle hf l hl => ?_⟩,
    hx.doomed, hx.order⟩
  · rw [hflag₁]
    by_cases e : g = h
    · subst e; simp [hflag, hx.notMem]
    · rw [if_neg e, hx.flags]; simp [e]
  · rw [hflag₁] at hf
    have hne : x ≠ h := by rintro rfl; simp at hf
    rw [if_neg hne] at hf
    have hl₁ : l ∈ s₁.incoming x := by rwa [same₁.incoming] at hl
    have hlt : x < l := by
      rw [hx.incoming] at hl₁
      have hxs : x ∈ s.atomSet := by rw [← hx.atomSet]; exact hxm
      exact (hc.above x hxs l hl₁).2
    rw [hflag₁, if_neg (by lia)]
    exact hx.closed x hxm (by lia) hf l hl₁

/-- The atom goes last where all that refers to it is flagged. -/
theorem CulledAbove.kept (hx : CulledAbove minSTI h s s₁ res) (hc : Climbing s)
    (hm : h ∈ s.atomSet) (hflag : s.decayedFlag h = false)
    (hall : ∀ l ∈ s.incoming h, s₁.decayedFlag l = true) (hh : s.Doomed minSTI h) :
    Culled minSTI h s s₁ (h :: res) := by
  refine ⟨⟨hx.toSameButFlags, fun g => ?_, List.forall_mem_cons.mpr ⟨hflag, hx.fresh⟩,
    List.nodup_cons.mpr ⟨hx.notMem, hx.nodup⟩, List.forall_mem_cons.mpr ⟨⟨hm, Nat.le_refl _⟩,
    fun g hg => (hx.stored g hg).imp_right Nat.le_of_lt⟩, fun x hxm hle hf l hl => ?_⟩,
    List.forall_mem_cons.mpr ⟨hh, hx.doomed⟩, List.pairwise_cons.mpr ⟨fun l hl hhl => ?_, hx.order⟩⟩
  · rw [hx.flags, List.mem_cons]
    tauto
  · by_cases e : x = h
    · subst e
      rw [hx.incoming] at hl
      exact hall l hl
    · exact hx.closed x hxm (by lia) hf l hl
  · obtain ⟨hls, hlt⟩ := hx.stored l hl
    have := (hc.above l hls h hhl).2
    lia

end Flag

/-- `extractOld` returns, and flags an old atom exactly when it is doomed. -/
theorem extractOld_spec (minSTI : Int) (fuel : Nat) (s : AtomTable TV) (h : Handle)
    (hc : Climbing s) (hm : h ∈ s.atomSet) (hfuel : s.brkUuid ≤ h + fuel) (hclosed : Closed h s)
    (hjust : Just minSTI h s) (hold : s.isOldAt minSTI h = true) :
    ∃ s' res, extractOld minSTI fuel s h = some (s', res) ∧ Culled minSTI h s s' res ∧
      (s.Doomed minSTI h → s'.decayedFlag h = true) := by
  induction fuel generalizing s h with
  | zero => have := hc.bounded h hm; lia
  | succ fuel ih =>
    have hlive := hc.live h hm
    obtain ⟨a, ha⟩ := Option.ne_none_iff_exists'.mp hlive
    have hin : s.incoming h = a.incoming := incoming_of_some ha
    unfold extractOld
    simp only [ha, Option.bind_eq_bind, Option.bind_some]
    cases hflag : a.removedByDecay with
    | true =>
      exact ⟨s, [], by simp, Culled.refl hclosed, fun _ => by simp [decayedFlag, ha, hflag]⟩
    | false =>
    have hflag' : s.decayedFlag h = false := by simp [decayedFlag, ha, hflag]
    set s₀ := s.setDecayed h true with hs₀
    have same₀ : SameButFlags s s₀ := sameButFlags_setDecayed s h true
    obtain ⟨⟨s₁, res⟩, hloop, hculled, hfull⟩ := extractOld_loop minSTI fuel s₀ h a.incoming
      (same₀.climbing hc) (hclosed.flag hlive) (hjust.flag hlive) (fun l hl => by
        rw [same₀.atomSet]
        exact hc.above h hm l (by rw [hin]; exact hl)) (by rw [same₀.brkUuid]; exact hfuel) ih
    have hx : CulledAbove minSTI h s s₁ res := hculled.above hlive
    simp only [Option.bind_eq_bind] at hloop
    change ∃ s' res, (do
      let (s, result) ← List.foldlM _ (s₀, []) a.incoming
      if (a.incoming.any fun l => !s.decayedFlag l) = true then some (s.setDecayed h false, result)
      else some (s, h :: result)) = some (s', res) ∧ _
    simp only [Option.bind_eq_bind, hloop, Option.bind_some]
    by_cases hany : (a.incoming.any fun l => !s₁.decayedFlag l) = true
    · -- something that stays refers to the atom: its flag is taken back
      refine ⟨s₁.setDecayed h false, res, by simp [hany], hx.takenBack hc hlive hflag', fun hd => ?_⟩
      obtain ⟨l, hl, hf⟩ := List.any_eq_true.mp hany
      rw [hfull l hl (same₀.doomed.mpr (hd.above (hin ▸ hl)))] at hf
      cases hf
    · have hall : ∀ l ∈ s.incoming h, s₁.decayedFlag l = true := by
        rw [hin]
        simpa only [List.any_eq_true, Bool.not_eq_true', not_exists, not_and,
          Bool.not_eq_false] using hany
      have hh : s.Doomed minSTI h := by
        refine doomed_of_above hold fun l hl => ?_
        obtain ⟨hls, hlt⟩ := hc.above h hm l hl
        rcases (hx.flags l).mp (hall l hl) with e | hf | hr
        · lia
        · exact hjust l hls (by lia) hf
        · exact hx.doomed l hr
      exact ⟨s₁, h :: res, by simp [hany], hx.kept hc hm hflag' hall hh,
        fun _ => (hx.flags h).mpr (.inl rfl)⟩

/-- The scan flags the doomed atoms and no others. -/
theorem scanOld_spec {cs : ClassServer} (minSTI : Int) (s : AtomTable TV) (hs : Inv cs s) :
    ∃ acc, scanOld minSTI s = some acc ∧ Culled minSTI 0 s acc.1 acc.2 ∧
      ∀ h, h ∈ acc.2 ↔ h ∈ s.atomSet ∧ s.Doomed minSTI h := by
  have hclean : Closed 0 s := by
    intro x hx _ hf
    rw [hs.clean x hx] at hf
    cases hf
  have hjust : Just minSTI 0 s := by
    intro x hx _ hf
    rw [hs.clean x hx] at hf
    cases hf
  set scanned := (List.range (importanceBin minSTI + 1)).flatMap s.importanceIndex with hscanned
  have hmem : ∀ h ∈ s.atomSet, s.isOldAt minSTI h = true → h ∈ scanned := by
    intro h hm hold
    obtain ⟨t, b, hk⟩ := hs.live h hm
    obtain ⟨a, ha, -, -⟩ := exists_of_key hk
    have hav : s.avOf h = some a.attentionValue := by simp [avOf, ha]
    simp only [isOldAt_eq, hav, Option.map_some, Option.getD_some, Bool.and_eq_true,
      decide_eq_true_eq] at hold
    refine List.mem_flatMap.mpr ⟨importanceBin a.attentionValue.sti, ?_, hs.bins.mpr ⟨hm, _, hav, rfl⟩⟩
    rw [List.mem_range]
    unfold importanceBin
    omega
  have hdone : ∀ acc : AtomTable TV × List Handle, Culled minSTI 0 s acc.1 acc.2 →
      (∀ l ∈ scanned, l ∈ [] ∨ (s.Doomed minSTI l → acc.1.decayedFlag l = true)) →
      ∀ h, h ∈ acc.2 ↔ h ∈ s.atomSet ∧ s.Doomed minSTI h := by
    intro acc hx hseen h
    constructor
    · intro hr
      exact ⟨(hx.stored h hr).1, hx.doomed h hr⟩
    · rintro ⟨hm, hd⟩
      have hf := (hseen h (hmem h hm hd.old)).resolve_left List.not_mem_nil hd
      refine ((hx.flags h).mp hf).resolve_left fun hf => ?_
      rw [hs.clean h hm] at hf
      cases hf
  unfold scanOld
  refine Exists.imp (fun acc h => ⟨h.1, h.2.2.1, hdone acc h.2.2.1 h.2.2.2⟩) (Fold.foldlM_some
    (fun rest (acc : AtomTable TV × List Handle) =>
      (∀ l ∈ rest, l ∈ s.atomSet) ∧ Culled minSTI 0 s acc.1 acc.2 ∧
      ∀ l ∈ scanned, l ∈ rest ∨ (s.Doomed minSTI l → acc.1.decayedFlag l = true)) _ (s, [])
    ⟨fun l hl => ?_, Culled.refl hclean, fun _ hl => .inl hl⟩ ?_)
  · obtain ⟨i, -, hi⟩ := List.mem_flatMap.mp hl
    exact (hs.bins.mp hi).1
  · rintro l rest ⟨s₁, res⟩ ⟨hrest, hx, hseen⟩
    replace hx : Culled minSTI 0 s s₁ res := hx
    have hcs := hx.climbing hs.climbing
    have hls : l ∈ s₁.atomSet := by rw [hx.atomSet]; exact hrest l List.mem_cons_self
    have hlater : ∀ l ∈ rest, l ∈ s.atomSet := fun g hg => hrest g (List.mem_cons_of_mem l hg)
    obtain ⟨b, hb⟩ := Option.ne_none_iff_exists'.mp (hcs.live l hls)
    have hbold : s₁.isOldAt minSTI l = b.isOld minSTI := by simp [isOldAt, hb]
    simp only [hb, Option.bind_eq_bind, Option.bind_some]
    cases hold : b.isOld minSTI with
    | false =>
      refine ⟨(s₁, res), rfl, hlater, hx, fun g hg => ?_⟩
      rcases hseen g hg with hg | hg
      · rcases List.mem_cons.mp hg with rfl | hg
        · refine .inr fun hd => ?_
          have := (hx.toSameButFlags.doomed.mpr hd).old
          rw [hbold, hold] at this
          cases this
        · exact .inl hg
      · exact .inr hg
    | true =>
      obtain ⟨s', res', he, hx', hfull⟩ := extractOld_spec minSTI (s.brkUuid + 1) s₁ l hcs hls
        (by rw [hx.brkUuid]; lia) (fun x h₁ _ => hx.closed x h₁ (Nat.zero_le _))
        ((hx.just hjust).mono (Nat.zero_le _)) (hbold.trans hold)
      refine ⟨(s', res' ++ res), by simp [he], hlater, hx.trans hx' (Nat.zero_le _), fun g hg => ?_⟩
      rcases hseen g hg with hg | hg
      · rcases List.mem_cons.mp hg with rfl | hg
        · exact .inr fun hd => hfull (hx.toSameButFlags.doomed.mpr hd)
        · exact .inl hg
      · exact .inr fun hd => (hx'.flags g).mpr (.inl (hg hd))

/-! ## Removing the flagged atoms -/

/-- Where the loop of `clearIndexesAndRemoveAtoms` stands with `rest` still to
visit: the other atoms of `res` have left the set and the incoming lists. -/
structure Forgot (s s' : AtomTable TV) (res rest : List Handle) : Prop where
  key : s'.key = s.key
  avOf : s'.avOf = s.avOf
  decayedFlag : s'.decayedFlag = s.decayedFlag
  linked : s'.linked = s.linked
  marked : s'.marked = s.marked
  absent : ∀ g, s'.handleMap g = none ↔ s.handleMap g = none
  brkUuid : s'.brkUuid = s.brkUuid
  orphans : s'.orphans = s.orphans
  nodeIndex : s'.nodeIndex = s.nodeIndex
  linkIndex : s'.linkIndex = s.linkIndex
  typeIndex : s'.typeIndex = s.typeIndex
  targetTypeIndex : s'.targetTypeIndex = s.targetTypeIndex
  importanceIndex : s'.importanceIndex = s.importanceIndex
  nodup : s'.atomSet.Nodup
  size : s'.size = s'.atomSet.length
  atomSet : ∀ g, g ∈ s'.atomSet ↔ g ∈ s.atomSet ∧ (g ∈ res → g ∈ rest)
  incoming : ∀ x l, (s'.incoming x).count l =
    if l ∈ res ∧ l ∉ rest ∧ x ∈ s.atomSet then 0 else (s.incoming x).count l

/-- What the loop needs of the table it starts from: the keys, the set and the
incoming lists of a table with the invariant. -/
structure Mirrors (s₀ s : AtomTable TV) : Prop where
  key : s.key = s₀.key
  atomSet : s.atomSet = s₀.atomSet
  incoming : s.incoming = s₀.incoming
  orphans : s.orphans = s₀.orphans

section Clear
variable {cs : ClassServer} {s₀ s s' : AtomTable TV} {res rest : List Handle} {h : Handle}

theorem Forgot.step (hs : Inv cs s₀) (hm : Mirrors s₀ s) (hf : Forgot s s' res (h :: rest))
    (hres : h ∈ res) (hstored : h ∈ s₀.atomSet) (hrest : h ∉ rest) :
    ∃ s'', forget s' h = some s'' ∧ Forgot s s'' res rest := by
  obtain ⟨t, b, hk⟩ := hs.live h hstored
  have hkey' : s'.key = s₀.key := hf.key.trans hm.key
  obtain ⟨a, ha, rfl, rfl⟩ := exists_of_key (hkey' ▸ hk)
  have hh : s₀.Has h a.type a.body := ⟨hstored, hk⟩
  have htargets : a.body.targets = a.body.outgoing := Body.targets_of_lt (hs.typed hh).length_lt
  have hmem' : h ∈ s'.atomSet := by
    rw [hf.atomSet, hm.atomSet]
    exact ⟨hstored, fun _ => List.mem_cons_self⟩
  have hsub : ∀ g ∈ s'.atomSet, g ∈ s₀.atomSet := by
    intro g hg
    rw [← hm.atomSet]
    exact ((hf.atomSet g).mp hg).1
  have hcount : ∀ x ∈ a.body.targets, x ∈ s₀.atomSet ∧
      a.body.targets.count x = (s₀.incoming x).count h := by
    intro x hx
    rw [htargets] at hx ⊢
    have hxs := (hs.members hh x hx).1
    exact ⟨hxs, by rw [hs.dual x hxs h, if_pos hstored, outgoing_of_key hk]⟩
  -- the lists still hold all the entries of `h`
  have hentries : ∀ x, (s'.incoming x).count h = (s₀.incoming x).count h := by
    intro x
    rw [hf.incoming, hm.incoming, if_neg]
    exact fun hh => hh.2.1 List.mem_cons_self
  set s₁ : AtomTable TV := { s'.eraseAtom a with size := s'.size - 1 } with hs₁
  have hall : (a.body.targets.filter fun x => (s₁.handleMap x).isSome) = a.body.targets := by
    apply List.filter_eq_self.mpr
    intro x hx
    have : s'.handleMap x ≠ none := by
      obtain ⟨t, b, hk⟩ := hs.live x (hcount x hx).1
      rw [← hkey'] at hk
      obtain ⟨c, hc, -, -⟩ := exists_of_key hk
      rw [hc]; simp
    exact Option.isSome_iff_ne_none.mpr this
  obtain ⟨s'', hfold, same, hmark, hin⟩ := foldlM_removeIncomingHandle h a.body.targets s₁ (by
    intro x hx
    change _ ≤ (s'.incoming x).count h
    rw [hentries, (hcount x hx).2])
  have herase : ∀ g, g ∈ s₁.atomSet ↔ g ∈ s'.atomSet ∧ g ≠ h :=
    fun g => mem_eraseAtom hs hkey' hsub hstored ha g
  have hlen : s₁.atomSet.length + 1 = s'.atomSet.length :=
    length_eraseAtom hs hkey' hsub hf.nodup hmem' ha
  have hin₁ : s₁.incoming = s'.incoming := rfl
  refine ⟨s'', ?_, ?_⟩
  · simp only [forget, ha, Option.bind_eq_bind, Option.bind_some]
    rw [← hs₁, hall]
    exact hfold
  · refine ⟨same.key.trans hf.key, same.avOf.trans hf.avOf, same.decayedFlag.trans hf.decayedFlag,
      same.linked.trans hf.linked, ?_, fun g => (same.absent g).trans (hf.absent g),
      same.brkUuid.trans hf.brkUuid, ?_, same.nodeIndex.trans hf.nodeIndex,
      same.linkIndex.trans hf.linkIndex, same.typeIndex.trans hf.typeIndex,
      same.targetTypeIndex.trans hf.targetTypeIndex,
      same.importanceIndex.trans hf.importanceIndex, ?_, ?_, ?_, ?_⟩
    · funext g; rw [hmark, ← hf.marked]; rfl
    · rw [same.orphans]
      change s'.orphans.filter _ = _
      rw [hf.orphans, hm.orphans, hs.orphans]; rfl
    · rw [same.atomSet]; exact hf.nodup.filter _
    · rw [same.size, same.atomSet]
      change s'.size - 1 = _
      have := hf.size
      omega
    · intro g
      rw [same.atomSet, herase, hf.atomSet, List.mem_cons]
      by_cases e : g = h
      · subst e; simp [hres, hrest]
      · simp [e]
    · intro x l
      rw [hin, hin₁, hf.incoming]
      by_cases el : l = h
      · subst el
        rw [if_neg (by simp), if_pos rfl, hm.incoming, hm.atomSet]
        by_cases hx : x ∈ s₀.atomSet
        · rw [if_pos ⟨hres, hrest, hx⟩]
          by_cases hxt : x ∈ a.body.targets
          · rw [(hcount x hxt).2]; omega
          · have : (s₀.incoming x).count l = 0 := by
              rw [hs.dual x hx l, if_pos hstored, outgoing_of_key hk, ← htargets]
              exact List.count_eq_zero_of_not_mem hxt
            omega
        · rw [if_neg (fun hh => hx hh.2.2)]
          have hxt : x ∉ a.body.targets := fun hxt => hx (hcount x hxt).1
          rw [List.count_eq_zero_of_not_mem hxt]; omega
      · simp only [el, if_false, Nat.sub_zero, List.mem_cons, false_or]

theorem filter_not_eq_some {α : Type} {o : Option α} {f : α → Bool} {g : α} :
    o.filter (fun x => !f x) = some g ↔ o = some g ∧ f g = false := by
  rw [Option.filter_eq_some_iff]
  simp

/-- The sweep of `clearIndexesAndRemoveAtoms` before the records go. -/
theorem forget_all (hs : Inv cs s₀) (hsw : Swept 0 s₀ s res) :
    ∃ s', res.foldlM forget (s.removeFiltered s.decayedFlag) = some s' ∧
      Forgot (s.removeFiltered s.decayedFlag) s' res [] := by
  set s₁ := s.removeFiltered s.decayedFlag with hs₁
  have hm : Mirrors s₀ s₁ := ⟨hsw.key, hsw.atomSet, hsw.incoming, hsw.orphans⟩
  refine Exists.imp (fun s' h => ⟨h.1, h.2.2.2⟩) (Fold.foldlM_some
    (fun rest s' => rest.Nodup ∧ (∀ g ∈ rest, g ∈ res ∧ g ∈ s₀.atomSet) ∧ Forgot s₁ s' res rest)
    res s₁ ⟨hsw.nodup, fun g hg => ⟨hg, (hsw.stored g hg).1⟩, ?_⟩ ?_)
  · refine ⟨rfl, rfl, rfl, rfl, rfl, fun _ => Iff.rfl, rfl, rfl, rfl, rfl, rfl, rfl, rfl, ?_, ?_, ?_,
      ?_⟩
    · rw [hm.atomSet]; exact hs.nodup
    · change s.size = s.atomSet.length
      rw [hsw.size, hsw.atomSet]; exact hs.size
    · simp
    · intro x l
      rw [if_neg]
      exact fun hh => hh.2.1 hh.1
  · rintro g rest s' ⟨hnd, hrest, hf⟩
    obtain ⟨hng, hnd⟩ := List.nodup_cons.mp hnd
    obtain ⟨hres, hstored⟩ := hrest g List.mem_cons_self
    obtain ⟨s'', h'', hf''⟩ := hf.step hs hm hres hstored hng
    exact ⟨s'', h'', hnd, fun k hk => hrest k (List.mem_cons_of_mem g hk), hf''⟩

theorem removed_of_forgot (hs : Inv cs s₀) (hsw : Swept 0 s₀ s res)
    (hf : Forgot (s.removeFiltered s.decayedFlag) s' res []) : Removed s₀ s' (· ∈ res) := by
  have hflag : ∀ g ∈ s₀.atomSet, s.decayedFlag g = false ↔ g ∉ res := by
    intro g hg
    rw [← Bool.not_eq_true, hsw.flags, hs.clean g hg]
    simp
  have hatoms : ∀ g, g ∈ s'.atomSet ↔ g ∈ s₀.atomSet ∧ g ∉ res := by
    intro g
    rw [hf.atomSet]
    change g ∈ s.atomSet ∧ _ ↔ _
    rw [hsw.atomSet]
    simp
  refine ⟨hf.key.trans hsw.key, hf.avOf.trans hsw.avOf, ?_, hf.linked.trans hsw.linked, ?_,
    hf.brkUuid.trans hsw.brkUuid, hf.orphans.trans hsw.orphans, hf.nodup, hatoms, hf.size, ?_, ?_, ?_,
    ?_, ?_, ?_, ?_⟩
  · intro h hn
    rw [hf.decayedFlag]
    change s.decayedFlag h = _
    rw [Bool.eq_iff_iff, hsw.flags]
    simp [hn]
  · intro h hh
    rw [hf.absent]
    exact (hsw.absent h).mpr hh
  · intro t n g
    rw [hf.nodeIndex]
    change (s.nodeIndex t n).filter _ = some g ↔ _
    rw [filter_not_eq_some, hsw.nodeIndex]
    exact and_congr_right fun hg => hflag g (hs.nodes.mp hg).1
  · intro t o g
    rw [hf.linkIndex]
    change (s.linkIndex t o).filter _ = some g ↔ _
    rw [filter_not_eq_some, hsw.linkIndex]
    exact and_congr_right fun hg => hflag g (hs.links.mp hg).1
  · intro t g
    rw [hf.typeIndex]
    change g ∈ (s.typeIndex t).filter _ ↔ _
    rw [List.mem_filter, hsw.typeIndex, Bool.not_eq_true']
    refine and_congr_right fun hg => hflag g ?_
    obtain ⟨b, hb⟩ := hs.types.mp hg
    exact hb.1
  · intro t g
    rw [hf.targetTypeIndex]
    change g ∈ (s.targetTypeIndex t).filter _ ↔ _
    rw [List.mem_filter, hsw.targetTypeIndex, Bool.not_eq_true']
    refine and_congr_right fun hg => hflag g ?_
    obtain ⟨u, b, hb, -⟩ := hs.targets.mp hg
    exact hb.1
  · intro i g
    rw [hf.importanceIndex]
    change g ∈ (s.importanceIndex i).filter _ ↔ _
    rw [List.mem_filter, hsw.importanceIndex, Bool.not_eq_true']
    exact and_congr_right fun hg => hflag g (hs.bins.mp hg).1
  · intro x _ l hl
    rw [hf.incoming, if_neg (fun hh => hl hh.1)]
    change (s.incoming x).count l = _
    rw [hsw.incoming]
  · intro x hx l hl
    apply List.count_eq_zero.mp
    rw [hf.incoming, if_pos]
    refine ⟨hl, List.not_mem_nil, ?_⟩
    change x ∈ s.atomSet
    rw [hsw.atomSet]
    exact ((hatoms x).mp hx).1

theorem closed_res (hs : Inv cs s₀) (hsw : Swept 0 s₀ s res) {x : Handle} (hx : x ∈ s₀.atomSet)
    (hr : x ∈ res) (l : Handle) (hl : l ∈ s₀.incoming x) : l ∈ res := by
  have hflagged := hsw.closed x (hsw.atomSet ▸ hx) (Nat.zero_le _) ((hsw.flags x).mpr (.inr hr)) l
    (by rw [hsw.incoming]; exact hl)
  rcases (hsw.flags l).mp hflagged with hold | hnew
  · rw [hs.clean l (hs.lt_of_incoming hx hl).1] at hold
    cases hold
  · exact hnew

theorem clearIndexesAndRemoveAtoms_spec (hs : Inv cs s₀) (hp : Pending s₀)
    (hsw : Swept 0 s₀ s res) :
    ∃ s', s.clearIndexesAndRemoveAtoms res = some (s'.without res) ∧ Removed s₀ s' (· ∈ res) ∧
      s'.marked = s₀.marked ∧ Inv cs (s'.without res) ∧ Pending (s'.without res) := by
  obtain ⟨s₁, hforget, hf⟩ := forget_all hs hsw
  have hrem := removed_of_forgot hs hsw hf
  have hinv : Inv cs s₁ := hs.removed hrem fun x hx hr l hl => closed_res hs hsw hx hr l hl
  have hmark : s₁.marked = s₀.marked := hf.marked.trans hsw.marked
  have hbare : ∀ g ∈ res, s₁.handleMap g ≠ none ∧ s₁.incoming g = [] := by
    intro g hg
    have hgm := (hsw.stored g hg).1
    constructor
    · rw [ne_eq, hf.absent]
      change s.handleMap g ≠ none
      exact mt (hsw.absent g).mp (hs.record hgm)
    · apply List.eq_nil_iff_forall_not_mem.mpr
      intro l
      apply List.count_eq_zero.mp
      rw [hf.incoming]
      change (if l ∈ res ∧ l ∉ [] ∧ g ∈ s.atomSet then 0 else (s.incoming g).count l) = 0
      rw [hsw.incoming, hsw.atomSet]
      by_cases hl : l ∈ res
      · rw [if_pos ⟨hl, List.not_mem_nil, hgm⟩]
      · rw [if_neg (fun hh => hl hh.1)]
        exact List.count_eq_zero_of_not_mem fun hin => hl (closed_res hs hsw hgm hg l hin)
  have hpend : PendingBut s₁ res := by
    intro g hg hr hsome
    have hg₀ : g ∉ s₀.atomSet := fun hm => hg ((hrem.atomSet g).mpr ⟨hm, hr⟩)
    obtain ⟨hmk, hin⟩ := hp g hg₀ fun hn => hsome (hrem.fresh g hn)
    refine ⟨by rw [hmark]; exact hmk, ?_⟩
    apply List.eq_nil_iff_forall_not_mem.mpr
    intro l
    apply List.count_eq_zero.mp
    rw [hf.incoming]
    change (if _ then 0 else (s.incoming g).count l) = 0
    rw [hsw.incoming, hin]
    simp
  obtain ⟨s', hrm, hi, hpend'⟩ := removeExtractedHandles_spec hinv hpend hsw.nodup fun g hg =>
    ⟨fun hm => ((hrem.atomSet g).mp hm).2 hg, hbare g hg⟩
  have heq := removeExtractedHandles_eq hsw.nodup hbare
  obtain rfl := Option.some.inj (hrm.symm.trans heq)
  exact ⟨s₁, by simp [clearIndexesAndRemoveAtoms, hforget, hrm], hrem, hmark, hi, hpend'⟩

end Clear

/-- What the sweep did to a table: every stored atom has decayed once, and the doomed ones,
listed in `old` with no link before one of its targets, are gone. -/
structure Decayed (minSTI : Int) (s s' : AtomTable TV) (old : List Handle) : Prop where
  scanned : ∃ s₁, scanOld minSTI s.decayBins = some (s₁, old)
  avOf : ∀ h ∈ s.atomSet, s.decayBins.avOf h = (s.avOf h).map AttentionValue.decaySTI
  nodup : old.Nodup
  doomed : ∀ h, h ∈ old ↔ h ∈ s.atomSet ∧ s.decayBins.Doomed minSTI h
  order : old.Pairwise fun g l => g ∉ s.incoming l
  atomSet : ∀ h, h ∈ s'.atomSet ↔ h ∈ s.atomSet ∧ h ∉ old
  gone : ∀ h ∈ old, s'.handleMap h = none
  key : ∀ h, h ∉ old → s'.key h = s.key h
  kept : ∀ h, h ∉ old → s'.avOf h = s.decayBins.avOf h
  marked : ∀ h, h ∉ old → s'.marked h = s.marked h
  linked : ∀ h, h ∉ old → s'.linked h = s.linked h
  decayedFlag : ∀ h, h ∉ old → s'.decayedFlag h = s.decayedFlag h
  brkUuid : s'.brkUuid = s.brkUuid

/-- The decay sweep returns and keeps the invariant. -/
theorem decayShortTermImportance_spec {cs : ClassServer} {s : AtomTable TV} (hs : Inv cs s)
    (hp : Pending s) (minSTI : Int) :
    ∃ s' old, s.decayShortTermImportance minSTI = some s' ∧ Inv cs s' ∧ Pending s' ∧
      Decayed minSTI s s' old := by
  obtain ⟨hd, same, hav⟩ := decayBins_spec hs
  have hpd : Pending s.decayBins := by
    intro g hg hsome
    rw [same.marked, same.incoming]
    exact hp g (same.atomSet ▸ hg) (mt (same.absent g).mpr hsome)
  obtain ⟨⟨s₁, old⟩, hscan, hsw, hdoomed⟩ := scanOld_spec minSTI s.decayBins hd
  replace hdoomed : ∀ h, h ∈ old ↔ h ∈ s.atomSet ∧ s.decayBins.Doomed minSTI h := by
    rw [← same.atomSet]
    exact hdoomed
  replace hsw : Culled minSTI 0 s.decayBins s₁ old := hsw
  have horder : old.Pairwise fun g l => g ∉ s.incoming l :=
    hsw.order.imp fun hg => by rwa [same.incoming] at hg
  simp only [decayShortTermImportance, hscan, Option.bind_eq_bind, Option.bind_some]
  by_cases he : old = []
  · subst he
    refine ⟨s₁, [], by simp, ?_, ?_, ⟨⟨s₁, hscan⟩, hav, hsw.nodup, hdoomed, horder, ?_, ?_, ?_, ?_, ?_,
      ?_, ?_, ?_⟩⟩
    · refine hd.of_sameKeys hsw.toSameKeys ?_ ?_ ?_ ?_
      · rw [hsw.importanceIndex, hsw.avOf]; exact hd.bins
      · rw [hsw.incoming]; exact hd.dual
      · intro g hg
        rw [← Bool.not_eq_true, hsw.flags, hd.clean g hg]
        simp
      · rw [hsw.linked]; exact hd.inTable
    · intro g hg hsome
      rw [hsw.marked, hsw.incoming]
      exact hpd g (hsw.atomSet ▸ hg) (mt (hsw.absent g).mpr hsome)
    · intro h
      rw [hsw.atomSet, same.atomSet]
      simp
    · simp
    · intro h _
      rw [hsw.key, same.key]
    · intro h _
      rw [hsw.avOf]
    · intro h _
      rw [hsw.marked, same.marked]
    · intro h _
      rw [hsw.linked, same.linked]
    · intro h hn
      rw [← same.decayedFlag, Bool.eq_iff_iff, hsw.flags]
      simp
    · rw [hsw.brkUuid, same.brkUuid]
  · obtain ⟨s', hs', hrem, hmark, hi, hpend⟩ := clearIndexesAndRemoveAtoms_spec hd hpd hsw.toSwept
    have hrec : ∀ h, h ∉ old → (s'.without old).handleMap h = s'.handleMap h := by
      intro h hn
      simp [without, hn]
    refine ⟨s'.without old, old, by simp [he, hs'], hi, hpend, ⟨⟨s₁, hscan⟩, hav, hsw.nodup, hdoomed,
      horder, ?_, ?_, ?_, ?_, ?_, ?_, ?_, ?_⟩⟩
    · intro h
      change h ∈ s'.atomSet ↔ _
      rw [hrem.atomSet, same.atomSet]
    · intro h hh
      simp [without, hh]
    · intro h hn
      rw [← same.key, ← hrem.key]
      simp only [AtomTable.key, hrec h hn]
    · intro h hn
      rw [← hrem.avOf]
      simp only [AtomTable.avOf, hrec h hn]
    · intro h hn
      rw [← same.marked, ← hmark]
      simp only [AtomTable.marked, hrec h hn]
    · intro h hn
      rw [← same.linked, ← hrem.linked]
      simp only [AtomTable.linked, hrec h hn]
    · intro h hn
      rw [← same.decayedFlag, ← hrem.decayedFlag h hn]
      simp only [AtomTable.decayedFlag, hrec h hn]
    · exact hrem.brkUuid.trans same.brkUuid

end AtomTable

end OpenCog
