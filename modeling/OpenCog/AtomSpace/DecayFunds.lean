import OpenCog.AtomSpace.Forgetting
import OpenCog.AtomSpace.Funds

/-! The decay of a whole atom space beside the same done atom by atom, with `setSTI` and
`removeAtom`: the tables agree, and the funds do when nothing was owed to them. -/
namespace OpenCog

variable {TV σ : Type}

namespace AtomTable

/-! ## Tables that hold the same -/

/-- An atom without its incoming list. -/
def bare (s : AtomTable TV) (h : Handle) : Option (Atom TV) :=
  (s.handleMap h).map fun a => { a with incoming := [] }

/-- The same atoms, incoming sets and indices, in whatever order sets are listed. -/
structure SameTable (s t : AtomTable TV) : Prop where
  brkUuid : s.brkUuid = t.brkUuid
  size : s.size = t.size
  atomSet : ∀ h, h ∈ s.atomSet ↔ h ∈ t.atomSet
  orphans : s.orphans = t.orphans
  atoms : s.bare = t.bare
  incoming : ∀ h l, (s.incoming h).count l = (t.incoming h).count l
  nodeIndex : s.nodeIndex = t.nodeIndex
  linkIndex : s.linkIndex = t.linkIndex
  typeIndex : ∀ c h, h ∈ s.typeIndex c ↔ h ∈ t.typeIndex c
  targetTypeIndex : ∀ c h, h ∈ s.targetTypeIndex c ↔ h ∈ t.targetTypeIndex c
  importanceIndex : ∀ i h, h ∈ s.importanceIndex i ↔ h ∈ t.importanceIndex i

theorem key_eq_bare (s : AtomTable TV) (h : Handle) :
    s.key h = (s.bare h).map fun a => (a.type, a.body) := by
  simp only [key, bare, Option.map_map]
  rfl

theorem avOf_eq_bare (s : AtomTable TV) (h : Handle) :
    s.avOf h = (s.bare h).map Atom.attentionValue := by
  simp only [avOf, bare, Option.map_map]
  rfl

theorem handleMap_eq_none_iff (s : AtomTable TV) (h : Handle) :
    s.handleMap h = none ↔ s.bare h = none := by
  simp [bare]

/-- Between calls the atoms decide the rest. -/
theorem sameTable_of_atoms {cs : ClassServer} {s t : AtomTable TV} (hs : Standing cs s)
    (ht : Standing cs t) (hbrk : s.brkUuid = t.brkUuid)
    (hatoms : ∀ h, h ∈ s.atomSet ↔ h ∈ t.atomSet) (hbare : s.bare = t.bare) : SameTable s t := by
  have hkey : s.key = t.key := by
    funext h
    rw [key_eq_bare, key_eq_bare, hbare]
  have hav : s.avOf = t.avOf := by
    funext h
    rw [avOf_eq_bare, avOf_eq_bare, hbare]
  have hhas : ∀ {h c b}, s.Has h c b ↔ t.Has h c b := by
    intro h c b
    simp only [Has, hkey, hatoms]
  have hnone : ∀ h, s.handleMap h = none ↔ t.handleMap h = none := by
    intro h
    rw [handleMap_eq_none_iff, handleMap_eq_none_iff, hbare]
  refine ⟨hbrk, ?_, hatoms, hs.inv.orphans.trans ht.inv.orphans.symm, hbare, ?_, ?_, ?_, ?_, ?_, ?_⟩
  · rw [hs.inv.size, ht.inv.size,
      ((List.perm_ext_iff_of_nodup hs.inv.nodup ht.inv.nodup).mpr hatoms).length_eq]
  · intro h l
    by_cases hm : h ∈ s.atomSet
    · rw [hs.inv.dual h hm, ht.inv.dual h ((hatoms h).mp hm), outgoing_eq, outgoing_eq, hkey]
      simp only [hatoms]
    · by_cases hrec : s.handleMap h = none
      · simp [incoming, hrec, (hnone h).mp hrec]
      · rw [(hs.pending h hm hrec).2,
          (ht.pending h (mt (hatoms h).mpr hm) (mt (hnone h).mpr hrec)).2]
  · funext c n
    refine Option.ext fun h => ?_
    rw [hs.inv.nodes, ht.inv.nodes, hhas]
  · funext c o
    refine Option.ext fun h => ?_
    rw [hs.inv.links, ht.inv.links, hhas]
  · intro c h
    simp only [hs.inv.types, ht.inv.types, hhas]
  · intro c h
    simp only [hs.inv.targets, ht.inv.targets, hhas, typeOf_eq, hkey]
  · intro i h
    rw [hs.inv.bins, ht.inv.bins, hatoms, hav]

/-! ## Truth values stay -/

def truthOf (s : AtomTable TV) (h : Handle) : Option TV := (s.handleMap h).map Atom.truthValue

theorem truthOf_modify (s : AtomTable TV) (h : Handle) {f : Atom TV → Atom TV}
    (hf : ∀ a, (f a).truthValue = a.truthValue) : (s.modify h f).truthOf = s.truthOf := by
  funext g
  exact map_modify s h Atom.truthValue hf g

theorem truthOf_decayBand (s : AtomTable TV) (band : List Handle) :
    (s.decayBand band).truthOf = s.truthOf := by
  unfold decayBand
  generalize band.dedup = xs
  induction xs generalizing s with
  | nil => rfl
  | cons x xs ih =>
    rw [List.foldl_cons, ih]
    exact truthOf_modify s x fun _ => rfl

theorem truthOf_decayBins (s : AtomTable TV) : s.decayBins.truthOf = s.truthOf := by
  have hrun : ∀ (bins : List Nat) (t : AtomTable TV),
      (bins.foldl shiftBin t).truthOf = t.truthOf := by
    intro bins
    induction bins with
    | nil => exact fun _ => rfl
    | cons b bins ih =>
      intro t
      rw [List.foldl_cons, ih]
      exact truthOf_decayBand _ _
  have hfirst : s.mergeFirst.truthOf = s.truthOf := truthOf_decayBand s _
  have hreindex : ∀ (t : AtomTable TV) idx, (t.reindex idx).truthOf = t.truthOf := fun _ _ => rfl
  rw [decayBins_eq, hreindex, hrun, hfirst]

theorem truthOf_extractOld (minSTI : Int) (fuel : Nat) {s s' : AtomTable TV} {h : Handle}
    {res : List Handle} (he : extractOld minSTI fuel s h = some (s', res)) :
    s'.truthOf = s.truthOf := by
  induction fuel generalizing s h s' res with
  | zero => cases he
  | succ fuel ih =>
    obtain ⟨a, -, he⟩ := Option.bind_eq_some_iff.mp he
    split at he
    · rw [(Prod.mk.inj (Option.some.inj he)).1]
    · obtain ⟨⟨t, r⟩, hloop, he⟩ := Option.bind_eq_some_iff.mp he
      have ht : t.truthOf = s.truthOf := by
        refine Fold.foldlM_keeps (fun acc : AtomTable TV × List Handle => acc.1.truthOf = s.truthOf)
          ?_ a.incoming ?_ hloop
        · rintro ⟨t₁, r₁⟩ l ⟨t₂, r₂⟩ h₁ h₂
          obtain ⟨b, -, h₂⟩ := Option.bind_eq_some_iff.mp h₂
          split at h₂
          · obtain ⟨⟨t₃, r₃⟩, h₃, h₂⟩ := Option.bind_eq_some_iff.mp h₂
            rw [← (Prod.mk.inj (Option.some.inj h₂)).1]
            exact (ih h₃).trans h₁
          · rw [← (Prod.mk.inj (Option.some.inj h₂)).1]
            exact h₁
        · exact truthOf_modify s h fun _ => rfl
      dsimp only at he
      split at he
      · rw [← (Prod.mk.inj (Option.some.inj he)).1, ← ht]
        exact truthOf_modify t h fun _ => rfl
      · rw [← (Prod.mk.inj (Option.some.inj he)).1, ht]

theorem truthOf_scanOld {minSTI : Int} {s s' : AtomTable TV} {old : List Handle}
    (he : scanOld minSTI s = some (s', old)) : s'.truthOf = s.truthOf := by
  refine Fold.foldlM_keeps (fun acc : AtomTable TV × List Handle => acc.1.truthOf = s.truthOf)
    ?_ _ rfl he
  rintro ⟨t₁, r₁⟩ l ⟨t₂, r₂⟩ h₁ h₂
  obtain ⟨b, -, h₂⟩ := Option.bind_eq_some_iff.mp h₂
  split at h₂
  · obtain ⟨⟨t₃, r₃⟩, h₃, h₂⟩ := Option.bind_eq_some_iff.mp h₂
    rw [← (Prod.mk.inj (Option.some.inj h₂)).1]
    exact (truthOf_extractOld minSTI _ h₃).trans h₁
  · rw [← (Prod.mk.inj (Option.some.inj h₂)).1]
    exact h₁

theorem truthOf_removeIncomingHandle {h : Handle} {s s' : AtomTable TV} {x : Handle}
    (he : removeIncomingHandle h s x = some s') : s'.truthOf = s.truthOf := by
  unfold removeIncomingHandle at he
  split at he
  · cases he
  · split at he
    · rw [← Option.some.inj he]
      exact truthOf_modify s x fun _ => rfl
    · cases he

theorem truthOf_forget {s s' : AtomTable TV} {h : Handle} (he : forget s h = some s') :
    s'.truthOf = s.truthOf := by
  obtain ⟨a, -, he⟩ := Option.bind_eq_some_iff.mp he
  dsimp only at he
  refine Fold.foldlM_keeps (fun t : AtomTable TV => t.truthOf = s.truthOf) ?_ _ ?_ he
  · exact fun t x t' h₁ h₂ => (truthOf_removeIncomingHandle h₂).trans h₁
  · rfl

theorem truthOf_removeExtractedHandles {s s' : AtomTable TV} {old : List Handle}
    (he : s.removeExtractedHandles old = some s') :
    ∀ h, s'.handleMap h ≠ none → s'.truthOf h = s.truthOf h := by
  refine Fold.foldlM_keeps
    (fun t : AtomTable TV => ∀ h, t.handleMap h ≠ none → t.truthOf h = s.truthOf h) ?_ _ ?_ he
  · intro t x t' ht hdel h hh
    unfold deleteAtom at hdel
    split at hdel
    · cases hdel
    · split at hdel
      · obtain rfl := Option.some.inj hdel
        by_cases e : h = x
        · simp [e] at hh
        · simp only [e, if_false] at hh
          simpa [truthOf, e] using ht h hh
      · cases hdel
  · exact fun _ _ => rfl

theorem truthOf_decay {minSTI : Int} {s s' : AtomTable TV}
    (he : s.decayShortTermImportance minSTI = some s') :
    ∀ h, s'.handleMap h ≠ none → s'.truthOf h = s.truthOf h := by
  intro h hh
  obtain ⟨⟨s₁, old⟩, hscan, he⟩ := Option.bind_eq_some_iff.mp he
  have hs₁ : s₁.truthOf = s.truthOf := (truthOf_scanOld hscan).trans (truthOf_decayBins s)
  dsimp only at he
  split at he
  · rw [← Option.some.inj he, hs₁]
  · obtain ⟨s₂, hforget, he⟩ := Option.bind_eq_some_iff.mp he
    rw [truthOf_removeExtractedHandles he h hh, ← hs₁]
    refine congrFun (Fold.foldlM_keeps (fun t : AtomTable TV => t.truthOf = s₁.truthOf) ?_ _ ?_
      hforget) h
    · exact fun t x t' h₁ h₂ => (truthOf_forget h₂).trans h₁
    · rfl

/-! ## Records after the decay -/

theorem handleMap_decayBand {s : AtomTable TV} {band : List Handle} {g : Handle} (hn : g ∉ band) :
    (s.decayBand band).handleMap g = s.handleMap g := by
  unfold decayBand
  rw [← List.mem_dedup] at hn
  generalize band.dedup = xs at hn
  induction xs generalizing s with
  | nil => rfl
  | cons x xs ih =>
    rw [List.mem_cons, not_or] at hn
    rw [List.foldl_cons, ih hn.2]
    simp [AtomTable.modify, hn.1]

/-- What is in no bin does not decay. -/
theorem decayBins_other {s : AtomTable TV} {g : Handle} (hno : ∀ i, g ∉ s.importanceIndex i) :
    s.decayBins.handleMap g = s.handleMap g := by
  have hstep : ∀ (t : AtomTable TV) b,
      (t.handleMap g = s.handleMap g ∧ ∀ i, g ∉ t.importanceIndex i) →
      (t.shiftBin b).handleMap g = s.handleMap g ∧ ∀ i, g ∉ (t.shiftBin b).importanceIndex i := by
    rintro t b ⟨hmap, hidx⟩
    obtain ⟨-, hsame, -⟩ := decayBand_spec { t with
      importanceIndex := Function.update t.importanceIndex b (t.importanceIndex (b + 1)) }
      (t.importanceIndex (b + 1))
    refine ⟨(handleMap_decayBand (hidx (b + 1))).trans hmap, fun i => ?_⟩
    unfold shiftBin
    dsimp only
    rw [hsame]
    by_cases e : i = b
    · simp [e, hidx]
    · simp [e, hidx]
  have hrun : ∀ (bins : List Nat) (t : AtomTable TV),
      (t.handleMap g = s.handleMap g ∧ ∀ i, g ∉ t.importanceIndex i) →
      (bins.foldl shiftBin t).handleMap g = s.handleMap g := by
    intro bins
    induction bins with
    | nil => exact fun _ ht => ht.1
    | cons b bins ih => exact fun t ht => ih _ (hstep t b ht)
  have hfirst : s.mergeFirst.handleMap g = s.handleMap g ∧
      ∀ i, g ∉ s.mergeFirst.importanceIndex i := by
    obtain ⟨-, hsame, -⟩ := decayBand_spec s (s.importanceIndex 1)
    refine ⟨handleMap_decayBand (hno 1), fun i => ?_⟩
    unfold mergeFirst
    dsimp only
    rw [hsame]
    by_cases e : i = 0
    · simp [e, hno]
    · simp [e, hno]
  have hreindex : ∀ (t : AtomTable TV) idx, (t.reindex idx).handleMap = t.handleMap :=
    fun _ _ => rfl
  rw [decayBins_eq, hreindex]
  exact hrun _ _ hfirst

theorem bare_ext {s t : AtomTable TV} {h : Handle} (hkey : s.key h = t.key h)
    (hmark : s.marked h = t.marked h) (hflag : s.decayedFlag h = t.decayedFlag h)
    (hlink : s.linked h = t.linked h) (hav : s.avOf h = t.avOf h)
    (htruth : s.truthOf h = t.truthOf h) : s.bare h = t.bare h := by
  unfold bare
  cases ha : s.handleMap h with
  | none =>
    cases hb : t.handleMap h with
    | none => rfl
    | some b => simp [key, ha, hb] at hkey
  | some a =>
    cases hb : t.handleMap h with
    | none => simp [key, ha, hb] at hkey
    | some b =>
      simp only [key, marked, decayedFlag, linked, avOf, truthOf, ha, hb, Option.map_some,
        Option.getD_some, Option.some.injEq, Prod.mk.injEq] at hkey hmark hflag hlink hav htruth
      simp only [Option.map_some, hkey.1, hkey.2, hmark, hflag, hlink, hav, htruth]

/-- `a` with the value one decay leaves. -/
def lowered (a : Atom TV) : Atom TV := { a with attentionValue := a.attentionValue.decaySTI }

theorem bare_map_lowered (s : AtomTable TV) (h : Handle) :
    (s.bare h).map lowered = (s.modify h lowered).bare h := by
  simp only [AtomTable.bare, AtomTable.modify, if_true, Option.map_map]
  rfl

/-- The records once the sweep is over: forgotten, lowered, or as they were. -/
theorem Decayed.bare {cs : ClassServer} {s s' : AtomTable TV} (hs : Inv cs s) {minSTI : Int}
    {old : List Handle} (hd : Decayed minSTI s s' old)
    (he : s.decayShortTermImportance minSTI = some s') (h : Handle) :
    s'.bare h = if h ∈ old then none
      else if h ∈ s.atomSet then (s.bare h).map lowered else s.bare h := by
  by_cases ho : h ∈ old
  · rw [if_pos ho, AtomTable.bare, hd.gone h ho, Option.map_none]
  rw [if_neg ho]
  by_cases ha : s.handleMap h = none
  · have hnone : s'.handleMap h = none := by
      have hk := hd.key h ho
      simpa [AtomTable.key, ha] using hk
    simp [AtomTable.bare, ha, hnone]
  · have hsome : s'.handleMap h ≠ none := by
      rw [handleMap_ne_none, hd.key h ho, ← handleMap_ne_none]
      exact ha
    have htruth := truthOf_decay he h hsome
    by_cases hm : h ∈ s.atomSet
    · rw [if_pos hm, bare_map_lowered]
      refine bare_ext ?_ ?_ ?_ ?_ ?_ ?_
      · rw [hd.key h ho, key_modify s h (f := lowered) (fun _ => rfl) (fun _ => rfl)]
      · rw [hd.marked h ho, marked_modify s h (f := lowered) fun _ => rfl]
      · rw [hd.decayedFlag h ho, decayedFlag_modify s h (f := lowered) fun _ => rfl]
      · rw [hd.linked h ho, linked_modify s h (f := lowered) fun _ => rfl]
      · rw [hd.kept h ho, hd.avOf h hm]
        simp only [AtomTable.avOf, AtomTable.modify, if_true, Option.map_map]
        rfl
      · rw [htruth, truthOf_modify s h (f := lowered) fun _ => rfl]
    · rw [if_neg hm]
      refine bare_ext (hd.key h ho) (hd.marked h ho) (hd.decayedFlag h ho) (hd.linked h ho) ?_ htruth
      have hno : ∀ i, h ∉ s.importanceIndex i := fun i hi => hm (hs.bins.mp hi).1
      rw [hd.kept h ho, AtomTable.avOf, decayBins_other hno, AtomTable.avOf]

theorem bare_setAttentionValue {s : AtomTable TV} {h : Handle} {a : Atom TV}
    (ha : s.handleMap h = some a) (av : AttentionValue) (g : Handle) :
    (s.setAttentionValue h av).bare g =
      if g = h then (s.bare g).map fun a => { a with attentionValue := av } else s.bare g := by
  have hmod : (s.modify h fun a => { a with attentionValue := av }).bare g =
      if g = h then (s.bare g).map fun a => { a with attentionValue := av } else s.bare g := by
    by_cases e : g = h
    · subst e
      simp only [bare, AtomTable.modify, if_true, Option.map_map]
      rfl
    · simp [bare, AtomTable.modify, e]
  unfold AtomTable.setAttentionValue
  simp only [ha]
  split
  · next e =>
    by_cases eg : g = h
    · simp [bare, eg, ha, e]
    · rw [if_neg eg]
  · split
    · exact hmod
    · exact hmod

theorem brkUuid_setAttentionValue (s : AtomTable TV) (h : Handle) (av : AttentionValue) :
    (s.setAttentionValue h av).brkUuid = s.brkUuid := by
  unfold AtomTable.setAttentionValue
  cases s.handleMap h with
  | none => rfl
  | some a =>
    simp only
    split
    · rfl
    · split
      · rfl
      · rfl

/-! ## An atom nothing refers to is removed -/

theorem bare_removeIncomingHandle {h : Handle} {s s' : AtomTable TV} {x : Handle}
    (he : removeIncomingHandle h s x = some s') : s'.bare = s.bare := by
  unfold removeIncomingHandle at he
  split at he
  · cases he
  · split at he
    · obtain rfl := Option.some.inj he
      funext g
      exact map_modify s x (f := fun a => { a with incoming := a.incoming.erase h })
        (fun a => { a with incoming := [] }) (fun _ => rfl) g
    · cases he

theorem bare_detach {s s' : AtomTable TV} {h : Handle} {a : Atom TV}
    (he : s.detach h a = some s') : s'.bare = s.bare := by
  refine Fold.foldlM_keeps (fun t : AtomTable TV => t.bare = s.bare) ?_ a.body.targets ?_ he
  · exact fun t x t' h₁ h₂ => (bare_removeIncomingHandle h₂).trans h₁
  · rfl

/-- With an empty incoming set both kinds of extraction take the atom alone. -/
theorem extract_bare {s s' : AtomTable TV} {h : Handle} {a : Atom TV} {res : List Handle}
    {recursive : Bool} (fuel : Nat) (ha : s.handleMap h = some a)
    (hm : a.markedForRemoval = false) (hin : a.incoming = [])
    (he : extract (fuel + 1) s h recursive = some (s', res)) :
    res = [h] ∧ ∀ g, g ≠ h → s'.bare g = s.bare g := by
  have hmap : (s.modify h fun a => { a with markedForRemoval := true }).handleMap h =
      some { a with markedForRemoval := true } := by
    simp [AtomTable.modify, ha]
  unfold extract at he
  simp only [ha, hm, Bool.false_eq_true, if_false, hin, List.dedup_nil, List.mergeSort_nil, ite_self,
    List.foldlM_nil, Option.pure_def, Option.bind_eq_bind, Option.bind_some, hmap, ne_eq,
    not_true_eq_false] at he
  obtain ⟨t, ht, he⟩ := Option.bind_eq_some_iff.mp he
  obtain ⟨rfl, rfl⟩ := Prod.mk.inj (Option.some.inj he)
  refine ⟨rfl, fun g e => ?_⟩
  rw [bare_detach ht]
  simp [bare, AtomTable.modify, e]

end AtomTable

/-! ## Atom by atom -/

namespace AttentionValue

theorem withSTI_decaySTI (av : AttentionValue) :
    av.withSTI ⟨av.decaySTI.sti, av.decaySTI.sti_ge, av.decaySTI.sti_le⟩ = av.decaySTI := by
  unfold withSTI decaySTI
  split
  · rfl
  · rfl

theorem decaySTI_lti (av : AttentionValue) : av.decaySTI.lti = av.lti := by
  unfold decaySTI
  split
  · rfl
  · rfl

/-- What one decay takes. -/
theorem sti_sub_decaySTI (av : AttentionValue) :
    av.sti - av.decaySTI.sti = if -32768 < av.sti then 1 else 0 := by
  have := av.sti_ge
  rw [decaySTI_sti]
  split
  · omega
  · omega

end AttentionValue

namespace AtomSpace
open AtomTable

/-- One atom is given its STI less one, by `setSTI`. -/
def lowerSTI (s : AtomSpace TV σ) (h : Handle) : Option (AtomSpace TV σ) := do
  let av ← s.atomTable.avOf h
  s.setSTI h ⟨av.decaySTI.sti, av.decaySTI.sti_ge, av.decaySTI.sti_le⟩

def lowerAll (s : AtomSpace TV σ) : Option (AtomSpace TV σ) :=
  s.atomTable.atomSet.foldlM lowerSTI s

/-- `removeAtom` on each atom in turn. The flag is false when a call does not return true. -/
def removeEach (slots : Slots TV σ) (recursive : Bool) :
    List Handle → AtomSpace TV σ → Option (AtomSpace TV σ × Bool)
  | [], s => some (s, true)
  | h :: hs, s => do
    let (s, result) ← s.removeAtom slots h recursive
    if result = some true then removeEach slots recursive hs s else some (s, false)

theorem lowerSTI_eq {s : AtomSpace TV σ} {h : Handle} {a : Atom TV}
    (ha : s.atomTable.handleMap h = some a) : s.lowerSTI h = some { s with
      fundsSTI := s.fundsSTI + if -32768 < a.attentionValue.sti then 1 else 0
      atomTable := s.atomTable.setAttentionValue h a.attentionValue.decaySTI } := by
  have hav : s.atomTable.avOf h = some a.attentionValue := by simp [avOf, ha]
  simp only [lowerSTI, setSTI, setAV, hav, Option.bind_eq_bind, Option.bind_some,
    AttentionValue.withSTI_decaySTI, AttentionValue.sti_sub_decaySTI, AttentionValue.decaySTI_lti,
    Int.sub_self, Int.add_zero]

/-- The slots of the remove signal return. -/
def Returns (slots : Slots TV σ) : Prop := ∀ table servers h, (slots.atomRemoved table servers h).2 = true

/-- What an atom loses when it is lowered. -/
def drop (s : AtomTable TV) (h : Handle) : Int :=
  ((s.avOf h).map fun av => if -32768 < av.sti then 1 else 0).getD 0

def stiOf (s : AtomTable TV) (h : Handle) : Int := ((s.avOf h).map AttentionValue.sti).getD 0
def ltiOf (s : AtomTable TV) (h : Handle) : Int := ((s.avOf h).map AttentionValue.lti).getD 0

section Paths
variable {cs : ClassServer} {s : AtomSpace TV σ}

theorem lowerSTI_run (xs : List Handle) (hnd : xs.Nodup) (hs : Standing cs s.atomTable)
    (hx : ∀ g ∈ xs, g ∈ s.atomTable.atomSet) :
    ∃ s', xs.foldlM lowerSTI s = some s' ∧ Standing cs s'.atomTable ∧
      s'.atomTable.atomSet = s.atomTable.atomSet ∧ s'.atomTable.brkUuid = s.atomTable.brkUuid ∧
      (∀ g, s'.atomTable.bare g =
        if g ∈ xs then (s.atomTable.bare g).map lowered else s.atomTable.bare g) ∧
      s'.fundsSTI = s.fundsSTI + (xs.map (drop s.atomTable)).sum ∧ s'.fundsLTI = s.fundsLTI := by
  induction xs generalizing s with
  | nil => exact ⟨s, rfl, hs, rfl, rfl, by simp, by simp, rfl⟩
  | cons h xs ih =>
    obtain ⟨hh, hnd⟩ := List.nodup_cons.mp hnd
    have hm := hx h List.mem_cons_self
    obtain ⟨a, ha⟩ := Option.ne_none_iff_exists'.mp (hs.inv.record hm)
    have hbare := bare_setAttentionValue ha a.attentionValue.decaySTI
    have hatoms := atomSet_setAttentionValue s.atomTable h a.attentionValue.decaySTI
    set s₁ : AtomSpace TV σ := { s with
      fundsSTI := s.fundsSTI + if -32768 < a.attentionValue.sti then 1 else 0
      atomTable := s.atomTable.setAttentionValue h a.attentionValue.decaySTI } with hs₁
    obtain ⟨s', he, hst, hset, hbrk, hb, hsti, hlti⟩ := ih (s := s₁) hnd (hs.setAttentionValue hm _)
      fun g hg => by
        change g ∈ (s.atomTable.setAttentionValue h a.attentionValue.decaySTI).atomSet
        rw [hatoms]
        exact hx g (List.mem_cons_of_mem h hg)
    have hav : s.atomTable.avOf h = some a.attentionValue := by simp [avOf, ha]
    refine ⟨s', ?_, hst, hset.trans hatoms, hbrk.trans (brkUuid_setAttentionValue _ _ _), ?_, ?_, hlti⟩
    · rw [List.foldlM_cons, lowerSTI_eq ha]
      exact he
    · intro g
      rw [hb, show s₁.atomTable.bare g = _ from hbare g]
      by_cases e : g = h
      · subst e
        simp only [hh, if_false, if_true, List.mem_cons, true_or, AtomTable.bare, ha, Option.map_some]
        rfl
      · simp [e]
    · have hdrop : xs.map (drop s₁.atomTable) = xs.map (drop s.atomTable) := by
        refine List.map_congr_left fun g hg => ?_
        have e : g ≠ h := fun e => hh (e ▸ hg)
        simp only [drop, avOf_eq_bare]
        rw [show s₁.atomTable.bare g = _ from hbare g, if_neg e]
      rw [hsti, hdrop, List.map_cons, List.sum_cons]
      simp only [hs₁, drop, hav, Option.map_some, Option.getD_some]
      omega

/-- Deletions under slots that return are those of the table. -/
theorem removeExtractedHandles_returns {slots : Slots TV σ} (hret : Returns slots)
    (xs : List Handle) {table : AtomTable TV}
    (he : xs.foldlM AtomTable.deleteAtom s.atomTable = some table) :
    ∃ servers, removeExtractedHandles slots xs s =
      some ({ s with atomTable := table, servers := servers }, true) := by
  induction xs generalizing s with
  | nil =>
    obtain rfl := Option.some.inj he
    exact ⟨s.servers, rfl⟩
  | cons h xs ih =>
    rw [List.foldlM_cons] at he
    obtain ⟨t, ht, he⟩ := Option.bind_eq_some_iff.mp he
    obtain ⟨servers, hr⟩ := ih (s := { s with
      atomTable := t, servers := (slots.atomRemoved s.atomTable s.servers h).1 }) he
    refine ⟨servers, ?_⟩
    rw [removeExtractedHandles]
    rw [if_pos (hret _ _ _), ht]
    exact hr

theorem removeAtom_alone {slots : Slots TV σ} (hret : Returns slots) (recursive : Bool)
    (hs : Standing cs s.atomTable) {h : Handle} (hm : h ∈ s.atomTable.atomSet)
    (hin : s.atomTable.incoming h = []) :
    ∃ s', s.removeAtom slots h recursive = some (s', some true) ∧ Standing cs s'.atomTable ∧
      (∀ g, g ∈ s'.atomTable.atomSet ↔ g ∈ s.atomTable.atomSet ∧ g ≠ h) ∧
      s'.atomTable.brkUuid = s.atomTable.brkUuid ∧
      (∀ g, s'.atomTable.bare g = if g = h then none else s.atomTable.bare g) ∧
      s'.fundsSTI = s.fundsSTI + stiOf s.atomTable h ∧
      s'.fundsLTI = s.fundsLTI + ltiOf s.atomTable h := by
  obtain ⟨a, ha⟩ := Option.ne_none_iff_exists'.mp (hs.inv.record hm)
  have hmark : a.markedForRemoval = false := by simpa [marked, ha] using hs.unmarked h hm
  obtain ⟨table, res, he, ht, hx, -⟩ := hs.extract h recursive
  obtain ⟨rfl, hbare⟩ := extract_bare _ ha hmark (by rwa [incoming_of_some ha] at hin) he
  obtain ⟨t, hrem, hst⟩ := hs.remove h recursive
  have hdel := removeExtractedHandles_eq ht.nodup fun g hg => ⟨ht.record hg, ht.bare g hg⟩
  simp only [AtomTable.remove, he, Option.bind_eq_bind, Option.bind_some, hdel,
    Option.some.injEq] at hrem
  subst hrem
  have hav : table.avOf h = some a.attentionValue := by
    rw [ht.avOf]
    simp [avOf, ha]
  have hav' : s.atomTable.avOf h = some a.attentionValue := by simp [avOf, ha]
  obtain ⟨servers, hr⟩ := removeExtractedHandles_returns hret [h] (s := { s with
      atomTable := table
      fundsSTI := s.fundsSTI + a.attentionValue.sti
      fundsLTI := s.fundsLTI + a.attentionValue.lti }) hdel
  refine ⟨{ s with
      atomTable := table.without [h], servers := servers
      fundsSTI := s.fundsSTI + a.attentionValue.sti
      fundsLTI := s.fundsLTI + a.attentionValue.lti }, ?_, hst, ?_, ?_, ?_, ?_, ?_⟩
  · simp only [removeAtom, he, Option.bind_eq_bind, Option.bind_some, reduceCtorEq, if_false,
      List.foldlM_cons, List.foldlM_nil, refund, hav, Option.pure_def, List.reverse_singleton, hr,
      if_true]
  · intro g
    change g ∈ table.atomSet ↔ _
    rw [hx.atomSet, List.mem_singleton]
  · exact hx.brkUuid
  · intro g
    by_cases e : g = h
    · simp [AtomTable.bare, without, e]
    · rw [if_neg e, ← hbare g e]
      simp [AtomTable.bare, without, e]
  · simp only [stiOf, hav', Option.map_some, Option.getD_some]
  · simp only [ltiOf, hav', Option.map_some, Option.getD_some]

/-- A list of stored atoms closed upwards, each link before its members, is removed one by one. -/
theorem removeEach_run {slots : Slots TV σ} (hret : Returns slots) (recursive : Bool)
    (xs : List Handle) (hnd : xs.Nodup) (hs : Standing cs s.atomTable)
    (hx : ∀ g ∈ xs, g ∈ s.atomTable.atomSet)
    (hclosed : ∀ g ∈ xs, ∀ l ∈ s.atomTable.incoming g, l ∈ xs)
    (horder : xs.Pairwise fun g l => l ∉ s.atomTable.incoming g) :
    ∃ s', removeEach slots recursive xs s = some (s', true) ∧ Standing cs s'.atomTable ∧
      (∀ g, g ∈ s'.atomTable.atomSet ↔ g ∈ s.atomTable.atomSet ∧ g ∉ xs) ∧
      s'.atomTable.brkUuid = s.atomTable.brkUuid ∧
      (∀ g, s'.atomTable.bare g = if g ∈ xs then none else s.atomTable.bare g) ∧
      s'.fundsSTI = s.fundsSTI + (xs.map (stiOf s.atomTable)).sum ∧
      s'.fundsLTI = s.fundsLTI + (xs.map (ltiOf s.atomTable)).sum := by
  induction xs generalizing s with
  | nil => exact ⟨s, rfl, hs, by simp, rfl, by simp, by simp, by simp⟩
  | cons h xs ih =>
    obtain ⟨hh, hnd⟩ := List.nodup_cons.mp hnd
    obtain ⟨hlater, horder⟩ := List.pairwise_cons.mp horder
    have hm := hx h List.mem_cons_self
    have hin : s.atomTable.incoming h = [] := by
      refine List.eq_nil_iff_forall_not_mem.mpr fun l hl => ?_
      rcases List.mem_cons.mp (hclosed h List.mem_cons_self l hl) with rfl | hmem
      · exact absurd (hs.inv.lt_of_incoming hm hl).2 (lt_irrefl l)
      · exact hlater l hmem hl
    obtain ⟨s₁, he, hst, hatoms, hbrk, hbare, hsti, hlti⟩ := removeAtom_alone hret recursive hs hm hin
    have hother : ∀ g ∈ xs, g ≠ h := fun g hg e => hh (e ▸ hg)
    have hav : ∀ g ∈ xs, s₁.atomTable.avOf g = s.atomTable.avOf g := by
      intro g hg
      rw [avOf_eq_bare, avOf_eq_bare, hbare, if_neg (hother g hg)]
    -- what referred to an atom still does, but for the one removed
    have hincoming : ∀ g ∈ xs, ∀ l ∈ s₁.atomTable.incoming g, l ≠ h ∧ l ∈ s.atomTable.incoming g := by
      intro g hg l hl
      have hg₀ := hx g (List.mem_cons_of_mem h hg)
      have hg₁ : g ∈ s₁.atomTable.atomSet := (hatoms g).mpr ⟨hg₀, hother g hg⟩
      obtain ⟨hlm, hout⟩ := (hst.inv.mem_incoming hg₁ l).mp hl
      obtain ⟨hlm, e⟩ := (hatoms l).mp hlm
      refine ⟨e, (hs.inv.mem_incoming hg₀ l).mpr ⟨hlm, ?_⟩⟩
      rwa [outgoing_eq, key_eq_bare, hbare, if_neg e, ← key_eq_bare, ← outgoing_eq] at hout
    obtain ⟨s', he', hst', hatoms', hbrk', hbare', hsti', hlti'⟩ := ih hnd hst
      (fun g hg => (hatoms g).mpr ⟨hx g (List.mem_cons_of_mem h hg), hother g hg⟩)
      (fun g hg l hl => by
        obtain ⟨e, hl⟩ := hincoming g hg l hl
        exact (List.mem_cons.mp (hclosed g (List.mem_cons_of_mem h hg) l hl)).resolve_left e)
      (horder.imp_of_mem fun {g l} hg _ hn hl => hn (hincoming g hg l hl).2)
    refine ⟨s', ?_, hst', ?_, hbrk'.trans hbrk, ?_, ?_, ?_⟩
    · simp only [removeEach, he, Option.bind_eq_bind, Option.bind_some, if_true, he']
    · intro g
      rw [hatoms', hatoms, List.mem_cons, not_or]
      exact and_assoc
    · intro g
      rw [hbare', hbare]
      by_cases e : g = h
      · simp [e]
      · simp [e]
    · have hmap : xs.map (stiOf s₁.atomTable) = xs.map (stiOf s.atomTable) :=
        List.map_congr_left fun g hg => by rw [stiOf, stiOf, hav g hg]
      rw [hsti', hsti, hmap, List.map_cons, List.sum_cons, Int.add_assoc]
    · have hmap : xs.map (ltiOf s₁.atomTable) = xs.map (ltiOf s.atomTable) :=
        List.map_congr_left fun g hg => by rw [ltiOf, ltiOf, hav g hg]
      rw [hlti', hlti, hmap, List.map_cons, List.sum_cons, Int.add_assoc]

/-- The decay of the space is that of its table. The funds are not touched. -/
theorem decay_returns {slots : Slots TV σ} (hret : Returns slots) {minSTI : Int}
    {table : AtomTable TV} (he : s.atomTable.decayShortTermImportance minSTI = some table) :
    ∃ servers, s.decayShortTermImportance slots minSTI =
      some ({ s with atomTable := table, servers := servers }, true) := by
  obtain ⟨⟨t, old⟩, hscan, he⟩ := Option.bind_eq_some_iff.mp he
  simp only [decayShortTermImportance, hscan, Option.bind_eq_bind, Option.bind_some]
  dsimp only at he
  split at he
  · next hnil =>
    obtain rfl := Option.some.inj he
    exact ⟨s.servers, by rw [if_pos hnil]⟩
  · next hne =>
    obtain ⟨t₂, hforget, he⟩ := Option.bind_eq_some_iff.mp he
    rw [if_neg hne, hforget]
    exact removeExtractedHandles_returns hret old.reverse (s := { s with atomTable := t₂ }) he

end Paths

/-! ## Both ways side by side -/

/-- The sweep leaves what `setSTI` on every atom and `removeAtom` on the forgotten ones, in
the order of their deletion, leave. -/
def SameEffect (slots : Slots TV σ) (recursive : Bool) (minSTI : Int) (s : AtomSpace TV σ) : Prop :=
  ∃ s₁ s₂ s₃ table old, s.decayShortTermImportance slots minSTI = some (s₁, true) ∧
    scanOld minSTI s.atomTable.decayBins = some (table, old) ∧ s.lowerAll = some s₂ ∧
    removeEach slots recursive old.reverse s₂ = some (s₃, true) ∧
    SameTable s₁.atomTable s₃.atomTable ∧ s₁.fundsSTI = s₃.fundsSTI ∧ s₁.fundsLTI = s₃.fundsLTI

/-- One decay from now the atom and every link over it are old. -/
def Fades (s : AtomTable TV) (minSTI : Int) (h : Handle) : Prop :=
  ∀ l, s.Over h l → ∃ av, s.avOf l = some av ∧ av.decaySTI.sti < minSTI ∧ av.lti < 1

open Classical in
/-- What the atoms lose by decaying and leave behind when they fade. -/
noncomputable def owedSTI (s : AtomTable TV) (minSTI : Int) : Int :=
  ∑ h ∈ s.atomSet.toFinset, (drop s h + if Fades s minSTI h then stiOf s h - drop s h else 0)

open Classical in
noncomputable def owedLTI (s : AtomTable TV) (minSTI : Int) : Int :=
  ∑ h ∈ s.atomSet.toFinset, if Fades s minSTI h then ltiOf s h else 0

section Compare
variable {cs : ClassServer} {s : AtomSpace TV σ}

theorem fades_iff {s : AtomTable TV} (hs : Inv cs s) (minSTI : Int) {h : Handle}
    (hm : h ∈ s.atomSet) : s.decayBins.Doomed minSTI h ↔ Fades s minSTI h := by
  obtain ⟨-, same, hav⟩ := decayBins_spec hs
  have hstored : ∀ l, s.Over h l → l ∈ s.atomSet := by
    intro l hl
    induction hl with
    | refl => exact hm
    | tail _ he ih => exact (hs.lt_of_incoming ih he).1
  simp only [Doomed, Over, same.incoming]
  refine forall_congr' fun l => ?_
  refine imp_congr_right fun hl => ?_
  have hls := hstored l hl
  obtain ⟨a, ha⟩ := Option.ne_none_iff_exists'.mp (hs.record hls)
  have hal : s.avOf l = some a.attentionValue := by simp [avOf, ha]
  rw [isOldAt_eq, hav l hls, hal]
  simp [AttentionValue.decaySTI_lti]

open Classical in
theorem sum_old {s : AtomTable TV} {minSTI : Int} {old : List Handle} (hnd : old.Nodup)
    (hold : ∀ h, h ∈ old ↔ h ∈ s.atomSet ∧ Fades s minSTI h) (f : Handle → Int) :
    (old.reverse.map f).sum = ∑ h ∈ s.atomSet.toFinset, if Fades s minSTI h then f h else 0 := by
  rw [List.map_reverse, List.sum_reverse, ← List.sum_toFinset _ hnd, ← Finset.sum_filter]
  refine Finset.sum_congr ?_ fun _ _ => rfl
  ext h
  rw [List.mem_toFinset, hold, Finset.mem_filter, List.mem_toFinset]

theorem sameEffect_iff {slots : Slots TV σ} (hret : Returns slots) (recursive : Bool) (minSTI : Int)
    (hs : Standing cs s.atomTable) :
    SameEffect slots recursive minSTI s ↔
      owedSTI s.atomTable minSTI = 0 ∧ owedLTI s.atomTable minSTI = 0 := by
  obtain ⟨t₁, old, he₁, hst₁, hd⟩ := hs.decay minSTI
  obtain ⟨servers, hd₁⟩ := decay_returns hret he₁
  obtain ⟨t, hscan⟩ := hd.scanned
  obtain ⟨s₂, he₂, hst₂, hatoms₂, hbrk₂, hbare₂, hsti₂, hlti₂⟩ :=
    lowerSTI_run s.atomTable.atomSet hs.inv.nodup hs fun _ hg => hg
  have hold : ∀ h, h ∈ old ↔ h ∈ s.atomTable.atomSet ∧ Fades s.atomTable minSTI h := by
    intro h
    rw [hd.doomed]
    exact and_congr_right fun hm => fades_iff hs.inv minSTI hm
  have hkey₂ : s₂.atomTable.key = s.atomTable.key := by
    funext g
    rw [key_eq_bare, key_eq_bare, hbare₂]
    split
    · rw [Option.map_map]
      rfl
    · rfl
  have hin₂ : ∀ g ∈ s.atomTable.atomSet, ∀ l,
      l ∈ s₂.atomTable.incoming g ↔ l ∈ s.atomTable.incoming g := by
    intro g hg l
    rw [hst₂.inv.mem_incoming (hatoms₂ ▸ hg), hs.inv.mem_incoming hg, hatoms₂, outgoing_eq,
      outgoing_eq, hkey₂]
  have hstored : ∀ g ∈ old, g ∈ s.atomTable.atomSet := fun g hg => ((hold g).mp hg).1
  obtain ⟨s₃, he₃, hst₃, hatoms₃, hbrk₃, hbare₃, hsti₃, hlti₃⟩ := removeEach_run hret recursive
    old.reverse (List.nodup_reverse.mpr hd.nodup) hst₂
    (fun g hg => hatoms₂ ▸ hstored g (List.mem_reverse.mp hg))
    (fun g hg l hl => by
      rw [List.mem_reverse] at hg ⊢
      rw [hin₂ g (hstored g hg)] at hl
      refine (hd.doomed l).mpr ⟨(hs.inv.lt_of_incoming (hstored g hg) hl).1, ?_⟩
      refine ((hd.doomed g).mp hg).2.above ?_
      rwa [(decayBins_spec hs.inv).2.1.incoming])
    (by
      rw [List.pairwise_reverse]
      refine hd.order.imp_of_mem fun {g l} hg hl hn hmem => hn ?_
      rwa [hin₂ l (hstored l hl)] at hmem)
  have htable : SameTable t₁ s₃.atomTable := by
    refine sameTable_of_atoms hst₁ hst₃ ?_ (fun h => ?_) (funext fun h => ?_)
    · rw [hd.brkUuid, hbrk₃, hbrk₂]
    · rw [hd.atomSet, hatoms₃, hatoms₂, List.mem_reverse]
    · rw [hd.bare hs.inv he₁, hbare₃, hbare₂]
      simp only [List.mem_reverse]
  have hrest : ∀ g ∈ old, stiOf s₂.atomTable g = stiOf s.atomTable g - drop s.atomTable g ∧
      ltiOf s₂.atomTable g = ltiOf s.atomTable g := by
    intro g hg
    obtain ⟨a, ha⟩ := Option.ne_none_iff_exists'.mp (hs.inv.record (hstored g hg))
    have hav : s.atomTable.avOf g = some a.attentionValue := by simp [avOf, ha]
    have hav₂ : s₂.atomTable.avOf g = some a.attentionValue.decaySTI := by
      rw [avOf_eq_bare, hbare₂, if_pos (hstored g hg)]
      simp [AtomTable.bare, ha, lowered]
    simp only [stiOf, ltiOf, drop, hav, hav₂, Option.map_some, Option.getD_some,
      ← AttentionValue.sti_sub_decaySTI, AttentionValue.decaySTI_lti]
    exact ⟨by omega, trivial⟩
  have hsti : s₃.fundsSTI = s.fundsSTI + owedSTI s.atomTable minSTI := by
    have hmap : old.reverse.map (stiOf s₂.atomTable) =
        old.reverse.map fun g => stiOf s.atomTable g - drop s.atomTable g :=
      List.map_congr_left fun g hg => (hrest g (List.mem_reverse.mp hg)).1
    rw [hsti₃, hsti₂, hmap, sum_old hd.nodup hold, ← List.sum_toFinset _ hs.inv.nodup, owedSTI,
      Finset.sum_add_distrib, Int.add_assoc]
  have hlti : s₃.fundsLTI = s.fundsLTI + owedLTI s.atomTable minSTI := by
    have hmap : old.reverse.map (ltiOf s₂.atomTable) = old.reverse.map (ltiOf s.atomTable) :=
      List.map_congr_left fun g hg => (hrest g (List.mem_reverse.mp hg)).2
    rw [hlti₃, hlti₂, hmap, sum_old hd.nodup hold, owedLTI]
  constructor
  · rintro ⟨r₁, r₂, r₃, t', old', h₁, h₂, h₃, h₄, -, hf, hf'⟩
    obtain ⟨rfl, -⟩ := Prod.mk.inj (Option.some.inj (h₁.symm.trans hd₁))
    obtain ⟨-, rfl⟩ := Prod.mk.inj (Option.some.inj (h₂.symm.trans hscan))
    obtain rfl := Option.some.inj (h₃.symm.trans he₂)
    obtain ⟨rfl, -⟩ := Prod.mk.inj (Option.some.inj (h₄.symm.trans he₃))
    rw [hsti] at hf
    rw [hlti] at hf'
    dsimp only at hf hf'
    omega
  · rintro ⟨ho, ho'⟩
    refine ⟨_, s₂, s₃, t, old, hd₁, hscan, he₂, he₃, htable, ?_, ?_⟩
    · rw [hsti, ho, Int.add_zero]
    · rw [hlti, ho', Int.add_zero]

end Compare

/-! ## Runs with decay -/

end AtomSpace

inductive AttentionOp (TV : Type) where
  | call (op : SpaceOp TV)
  | decay (minSTI : Int)

namespace AtomSpace
open AtomTable

section Runs
variable (cs : ClassServer) (ops : TruthOps TV) (slots : Slots TV σ)

def attend (s : AtomSpace TV σ) : AttentionOp TV → Option (AtomSpace TV σ)
  | .call op => s.apply cs ops slots op
  | .decay minSTI => (s.decayShortTermImportance slots minSTI).map Prod.fst

/-- Names without NUL, links of stored members short enough for their arity, and values for
stored atoms. -/
def Orderly (s : AtomSpace TV σ) : AttentionOp TV → Prop
  | .call (.addNode _ name _) => NoNul name
  | .call (.addLink _ outgoing _) =>
    outgoing.length < 65536 ∧ ∀ x ∈ outgoing, x ∈ s.atomTable.atomSet
  | .call (.setAV h _) | .call (.setSTI h _) | .call (.setLTI h _) | .call (.setVLTI h _) =>
    h ∈ s.atomTable.atomSet
  | _ => True

inductive Attended (start : AtomSpace TV σ) : AtomSpace TV σ → Prop
  | start : Attended start start
  | step {s s' : AtomSpace TV σ} (op : AttentionOp TV) (r : Attended start s) (h : Orderly s op)
      (e : s.attend cs ops slots op = some s') : Attended start s'

variable {cs ops slots} {s : AtomSpace TV σ}

theorem standing_addAtom (hs : Standing cs s.atomTable) (a : Option (Atom TV))
    (ha : ∀ x, a = some x → Addable cs s.atomTable x ∧ x.markedForRemoval = false) :
    Standing cs (s.payDefault.addAtom ops slots a).1.atomTable := by
  cases a with
  | none => exact hs
  | some a =>
    obtain ⟨hadd, hm⟩ := ha a rfl
    have hst := (hs.add ops hadd hm).2
    simp only [addAtom]
    split
    · exact hst
    · exact hst

theorem standing_addNode (hs : Standing cs s.atomTable) (t : TypeCode) {name : String} (tv : TV)
    (hname : NoNul name) : Standing cs (s.addNode cs ops slots t name tv).1.atomTable := by
  unfold addNode
  split
  · exact hs.merge ops _ tv
  · refine standing_addAtom hs _ fun x hx => ?_
    unfold Atom.newNode at hx
    split at hx
    · next ht =>
      obtain rfl := Option.some.inj hx
      exact ⟨⟨⟨ht, hname⟩, fun _ h => absurd h List.not_mem_nil, rfl, rfl⟩, rfl⟩
    · cases hx

theorem standing_addLink (hs : Standing cs s.atomTable) (t : TypeCode) {outgoing : List Handle}
    (tv : TV) (hlen : outgoing.length < 65536) (hmem : ∀ x ∈ outgoing, x ∈ s.atomTable.atomSet) :
    Standing cs (s.addLink cs ops slots t outgoing tv).1.atomTable := by
  unfold addLink
  split
  · exact hs.merge ops _ tv
  · refine standing_addAtom hs _ fun x hx => ?_
    unfold Atom.newLink at hx
    split at hx
    · next ht =>
      obtain rfl := Option.some.inj hx
      refine ⟨⟨⟨ht, ?_⟩, fun x hx => hmem x (Atom.mem_setOutgoingSet.mp hx), rfl, rfl⟩, rfl⟩
      rw [Atom.length_setOutgoingSet]
      exact hlen
    · cases hx

theorem standing_removeAtom (hret : Returns slots) (hs : Standing cs s.atomTable) (h : Handle)
    (recursive : Bool) :
    ∃ s' r, s.removeAtom slots h recursive = some (s', some r) ∧ Standing cs s'.atomTable := by
  obtain ⟨table, res, he, ht, -, hst⟩ := hs.extract h recursive
  obtain ⟨t, hrem, hst'⟩ := hs.remove h recursive
  have hdel := removeExtractedHandles_eq ht.nodup fun g hg => ⟨ht.record hg, ht.bare g hg⟩
  simp only [AtomTable.remove, he, Option.bind_eq_bind, Option.bind_some, hdel,
    Option.some.injEq] at hrem
  subst hrem
  simp only [removeAtom, he, Option.bind_eq_bind, Option.bind_some]
  split
  · exact ⟨_, false, rfl, hst⟩
  · rw [refund_all (s := { s with atomTable := table }) fun g hg => by
      obtain ⟨a, ha⟩ := Option.ne_none_iff_exists'.mp (ht.record hg)
      simp [avOf, ha]]
    obtain ⟨servers, hr⟩ := removeExtractedHandles_returns hret res.reverse (s := { s with
      atomTable := table
      fundsSTI := s.fundsSTI + (res.map fun g => ((table.avOf g).map AttentionValue.sti).getD 0).sum
      fundsLTI := s.fundsLTI + (res.map fun g => ((table.avOf g).map AttentionValue.lti).getD 0).sum })
      hdel
    rw [Option.bind_some, hr]
    exact ⟨_, true, rfl, hst'⟩

theorem standing_removeAll (hret : Returns slots) (hs : List Handle)
    (hst : Standing cs s.atomTable) :
    ∃ s' r, removeAll slots hs s = some (s', r) ∧ Standing cs s'.atomTable := by
  induction hs generalizing s with
  | nil => exact ⟨s, true, rfl, hst⟩
  | cons h hs ih =>
    obtain ⟨s₁, r, he, hst₁⟩ := standing_removeAtom hret hst h true
    simp only [removeAll, he, Option.bind_eq_bind, Option.bind_some, Option.isSome_some, if_true]
    exact ih hst₁

theorem standing_setAV (hs : Standing cs s.atomTable) {h : Handle}
    (hm : h ∈ s.atomTable.atomSet) (av : AttentionValue) {s' : AtomSpace TV σ}
    (he : s.setAV h av = some s') : Standing cs s'.atomTable := by
  obtain ⟨old, -, he⟩ := Option.bind_eq_some_iff.mp he
  obtain rfl := Option.some.inj he
  exact hs.setAttentionValue hm av

theorem standing_attend (hret : Returns slots) (hs : Standing cs s.atomTable) {op : AttentionOp TV}
    (ho : Orderly s op) {s' : AtomSpace TV σ} (he : s.attend cs ops slots op = some s') :
    Standing cs s'.atomTable := by
  cases op with
  | decay minSTI =>
    obtain ⟨table, old, hd, hst, -⟩ := hs.decay minSTI
    obtain ⟨servers, hdec⟩ := decay_returns hret hd
    simp only [attend, hdec, Option.map_some, Option.some.injEq] at he
    exact he ▸ hst
  | call op =>
    cases op with
    | addNode t name tv =>
      obtain rfl := Option.some.inj he
      exact standing_addNode hs t tv ho
    | addLink t outgoing tv =>
      obtain rfl := Option.some.inj he
      exact standing_addLink hs t tv ho.1 ho.2
    | setAV h av => exact standing_setAV hs ho av he
    | setSTI h v =>
      obtain ⟨av, -, he⟩ := Option.bind_eq_some_iff.mp he
      exact standing_setAV hs ho _ he
    | setLTI h v =>
      obtain ⟨av, -, he⟩ := Option.bind_eq_some_iff.mp he
      exact standing_setAV hs ho _ he
    | setVLTI h v =>
      obtain ⟨av, -, he⟩ := Option.bind_eq_some_iff.mp he
      exact standing_setAV hs ho _ he
    | removeAtom h recursive =>
      obtain ⟨s₁, r, hr, hst⟩ := standing_removeAtom hret hs h recursive
      simp only [attend, apply, hr, Option.map_some, Option.some.injEq] at he
      exact he ▸ hst
    | clear =>
      obtain ⟨s₁, r, hr, hst⟩ := standing_removeAll hret
        (AtomTable.getHandleSet cs s.atomTable ATOM true) hs
      simp only [attend, apply, clear, hr, Option.bind_eq_bind, Option.bind_some, Option.map_some,
        Option.some.injEq] at he
      exact he ▸ hst

theorem Attended.standing (hret : Returns slots) {start : AtomSpace TV σ}
    (hs : Standing cs start.atomTable) (r : Attended cs ops slots start s) :
    Standing cs s.atomTable := by
  induction r with
  | start => exact hs
  | step op _ h e ih => exact standing_attend hret ih h e

/-- In every state of a run the sweep and the removals atom by atom leave the same exactly when
the atoms lose no STI to the funds by decaying and hold nothing when they fade. -/
theorem same_effect_iff_nothing_owed (hret : Returns slots) (servers : σ) (fundsSTI fundsLTI : Int)
    (r : Attended cs ops slots (opened servers fundsSTI fundsLTI) s) (recursive : Bool)
    (minSTI : Int) : SameEffect slots recursive minSTI s ↔
      owedSTI s.atomTable minSTI = 0 ∧ owedLTI s.atomTable minSTI = 0 :=
  sameEffect_iff hret recursive minSTI (r.standing hret (standing_empty cs))

end Runs

/-! ## One atom -/

/-- An atom alone that fades owes all it holds. -/
theorem owed_alone {s : AtomTable TV} {minSTI : Int} {h : Handle} {av : AttentionValue}
    (hatoms : s.atomSet = [h]) (hav : s.avOf h = some av) (hin : s.incoming h = [])
    (hlow : av.decaySTI.sti < minSTI) (hlti : av.lti < 1) :
    owedSTI s minSTI = av.sti ∧ owedLTI s minSTI = av.lti := by
  have hfades : Fades s minSTI h := by
    intro l hl
    rcases Relation.ReflTransGen.cases_head hl with rfl | ⟨g, hg, -⟩
    · exact ⟨av, hav, hlow, hlti⟩
    · rw [hin] at hg
      cases hg
  have hset : s.atomSet.toFinset = {h} := by rw [hatoms]; rfl
  simp only [owedSTI, owedLTI, hset, Finset.sum_singleton, hfades, if_true, stiOf, ltiOf, hav,
    Option.map_some, Option.getD_some]
  exact ⟨by omega, trivial⟩

theorem attend_withNode : (opened () 100 7).attend .script unitOps noSlots
    (.call (.addNode CONCEPT_NODE "n" ())) = some withNode := by
  unfold withNode attend apply
  rfl

/-- A node with nothing to its name costs as much to forget as it loses. -/
theorem same_effect_of_new_node :
    Attended .script unitOps noSlots (opened () 100 7) withNode ∧
      SameEffect noSlots false 0 withNode := by
  have r : Attended .script unitOps noSlots (opened () 100 7) withNode :=
    .step (.call (.addNode CONCEPT_NODE "n" ())) .start (by decide : NoNul "n") attend_withNode
  have hav : withNode.atomTable.avOf 1 = some .default := by decide +kernel
  have hatoms : withNode.atomTable.atomSet = [1] := by decide +kernel
  have hin : withNode.atomTable.incoming 1 = [] := by decide +kernel
  obtain ⟨hsti, hlti⟩ := owed_alone hatoms hav hin
    (by decide : AttentionValue.default.decaySTI.sti < 0) (by decide)
  exact ⟨r, (same_effect_iff_nothing_owed (fun _ _ _ => rfl) () 100 7 r false 0).mpr ⟨hsti, hlti⟩⟩

/-- The node with ten of the hundred. -/
def paidNode : AtomSpace Unit Unit :=
  (withNode.setSTI 1 ⟨10, by decide⟩).getD withNode

theorem setSTI_withNode : withNode.setSTI 1 ⟨10, by decide⟩ = some paidNode := by
  have hav : withNode.atomTable.avOf 1 = some .default := by decide +kernel
  unfold paidNode
  rw [setSTI, hav, Option.bind_eq_bind, Option.bind_some, setAV, hav]
  rfl

/-- Forgotten by the sweep it takes its ten with it. -/
theorem importance_lost_by_sweep :
    ¬ ∀ s : AtomSpace Unit Unit, Attended .script unitOps noSlots (opened () 100 7) s →
      ∀ minSTI, SameEffect noSlots false minSTI s := by
  intro hall
  have r : Attended .script unitOps noSlots (opened () 100 7) withNode :=
    .step (.call (.addNode CONCEPT_NODE "n" ())) .start (by decide : NoNul "n") attend_withNode
  have r' : Attended .script unitOps noSlots (opened () 100 7) paidNode :=
    .step (.call (.setSTI 1 ⟨10, by decide⟩)) r
      (by decide +kernel : 1 ∈ withNode.atomTable.atomSet) setSTI_withNode
  have hst : Standing .script paidNode.atomTable :=
    r'.standing (fun _ _ _ => rfl) (standing_empty _)
  have hav : paidNode.atomTable.avOf 1 =
      some (AttentionValue.default.withSTI ⟨10, by decide⟩) := by decide +kernel
  have hatoms : paidNode.atomTable.atomSet = [1] := by decide +kernel
  have hin : paidNode.atomTable.incoming 1 = [] := by decide +kernel
  have hlow : (AttentionValue.default.withSTI ⟨10, by decide⟩).decaySTI.sti < 20 := by decide
  obtain ⟨hsti, -⟩ := owed_alone hatoms hav hin hlow (by decide)
  have howed := ((sameEffect_iff (fun _ _ _ => rfl) false 20 hst).mp (hall paidNode r' 20)).1
  rw [hsti] at howed
  exact absurd howed (by decide)

end AtomSpace

end OpenCog
