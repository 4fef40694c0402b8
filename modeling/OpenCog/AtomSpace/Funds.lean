import OpenCog.AtomSpace.AtomSpace

/-! Attention is paid from the funds and flows back to them: along every run the funds and
the values of the stored atoms add up to what the space was opened with. -/
namespace OpenCog

variable {TV σ : Type}

namespace AtomTable

/-- The importance a stored atom holds; `f` is `getSTI` or `getLTI`. -/
def holding (f : AttentionValue → Int) (s : AtomTable TV) (h : Handle) : Int :=
  if s.isStored h then ((s.avOf h).map f).getD 0 else 0

def total (f : AttentionValue → Int) (s : AtomTable TV) : Int :=
  ∑ h ∈ Finset.range s.brkUuid, s.holding f h

variable {s s' : AtomTable TV} (f : AttentionValue → Int)

theorem Unchanged.total (h : Unchanged s s') : s'.total f = s.total f := by
  unfold AtomTable.total holding
  rw [h.brkUuid, h.avOf, h.stored]

theorem Grown.total {a : Atom TV} (h : Grown s s' a) :
    s'.total f = s.total f + f a.attentionValue := by
  unfold AtomTable.total
  rw [h.brkUuid, Finset.sum_range_succ]
  congr 1
  · refine Finset.sum_congr rfl fun g hg => ?_
    have e : g ≠ s.brkUuid := Nat.ne_of_lt (Finset.mem_range.mp hg)
    simp [holding, h.stored, h.avOf, e]
  · simp [holding, h.stored, h.avOf]

/-- One stored atom is given another value. -/
theorem total_set {h : Handle} {old av : AttentionValue} (hlt : h < s.brkUuid)
    (hst : s.isStored h = true) (hold : s.avOf h = some old) (hbrk : s'.brkUuid = s.brkUuid)
    (hstored : s'.isStored = s.isStored)
    (hav : ∀ g, s'.avOf g = if g = h then some av else s.avOf g) :
    s'.total f + f old = s.total f + f av := by
  have hdiff : ∀ g, s'.holding f g = s.holding f g + if g = h then f av - f old else 0 := by
    intro g
    by_cases e : g = h
    · simp [holding, hstored, hav, e, hst, hold]
    · simp [holding, hstored, hav, e]
  have hsum : ∑ g ∈ Finset.range s.brkUuid, (if g = h then f av - f old else 0) =
      f av - f old := by
    rw [Finset.sum_ite_eq', if_pos (Finset.mem_range.mpr hlt)]
  unfold AtomTable.total
  simp only [hbrk, hdiff, Finset.sum_add_distrib, hsum]
  omega

/-- What is taken out held what the total loses. -/
theorem TakenOut.total {res : List Handle} (hs : Linked s) (h : TakenOut s s' res) :
    s'.total f + (res.map fun g => ((s.avOf g).map f).getD 0).sum = s.total f := by
  have hlt : ∀ g ∈ res, g ∈ Finset.range s.brkUuid := by
    intro g hg
    obtain ⟨a, ha, -⟩ := exists_of_isStored (h.was g hg)
    exact Finset.mem_range.mpr (hs.lt_brk (by rw [ha]; simp))
  have hsum : (res.map fun g => ((s.avOf g).map f).getD 0).sum =
      ∑ g ∈ Finset.range s.brkUuid, if g ∈ res then s.holding f g else 0 := by
    rw [← List.sum_toFinset _ h.nodup, ← Finset.sum_filter]
    refine Finset.sum_congr ?_ fun g hg => ?_
    · ext g
      rw [List.mem_toFinset, Finset.mem_filter]
      exact ⟨fun hg => ⟨hlt g hg, hg⟩, And.right⟩
    · have hst := h.was g (Finset.mem_filter.mp hg).2
      simp [holding, hst]
  rw [hsum]
  unfold AtomTable.total
  rw [h.brkUuid, ← Finset.sum_add_distrib]
  refine Finset.sum_congr rfl fun g _ => ?_
  by_cases hg : g ∈ res
  · simp [holding, h.stored, hg]
  · simp [holding, h.stored, h.avOf, hg]

end AtomTable

namespace AtomSpace
open AtomTable

/-- The funds with all importance held. -/
def worth (s : AtomSpace TV σ) : Int × Int :=
  (s.fundsSTI + s.atomTable.total AttentionValue.sti,
    s.fundsLTI + s.atomTable.total AttentionValue.lti)

/-- A call that keeps the worth and the linkage of the table. -/
structure Conserves (s s' : AtomSpace TV σ) : Prop where
  linked : Linked s'.atomTable
  worth : s'.worth = s.worth

section Adding
variable (cs : ClassServer) (ops : TruthOps TV) (slots : Slots TV σ) {s : AtomSpace TV σ}

theorem conserves_of_unchanged {s' : AtomSpace TV σ} (hl : Linked s'.atomTable)
    (hu : Unchanged s.atomTable s'.atomTable) (hsti : s'.fundsSTI = s.fundsSTI)
    (hlti : s'.fundsLTI = s.fundsLTI) : Conserves s s' := by
  refine ⟨hl, ?_⟩
  simp only [AtomSpace.worth, hu.total, hsti, hlti]

/-- A new atom holds the defaults that were paid for it. -/
theorem addAtom_conserves (hs : Linked s.atomTable) (a : Option (Atom TV))
    (ha : ∀ x, a = some x → x.incoming = [] ∧ x.attentionValue = .default) :
    Conserves s (s.payDefault.addAtom ops slots a).1 := by
  cases a with
  | none =>
    refine conserves_of_unchanged hs ((SameKeys.refl _).unchanged rfl rfl) ?_ ?_
    · exact Int.sub_zero _
    · exact Int.sub_zero _
  | some a =>
    obtain ⟨hin, hav⟩ := ha a rfl
    obtain ⟨hl, hcases⟩ := hs.add ops hin
    simp only [addAtom]
    rcases hcases with ⟨h, hres, hget, hu⟩ | ⟨hres, hu⟩ | ⟨hres, hget, -, hgrown⟩
    · have hget' : s.payDefault.atomTable.getHandle a = some h := hget
      rw [hget']
      exact conserves_of_unchanged hl hu (Int.sub_zero _) (Int.sub_zero _)
    · have hres' : (s.payDefault.atomTable.add ops a true).2 = none := hres
      rw [hres']
      split
      · next e => cases e
      · exact conserves_of_unchanged hl hu (Int.sub_zero _) (Int.sub_zero _)
    · have hres' : (s.payDefault.atomTable.add ops a true).2 = some s.atomTable.brkUuid := hres
      have hget' : s.payDefault.atomTable.getHandle a = none := hget
      rw [hget', hres']
      refine ⟨hl, ?_⟩
      have hsti := hgrown.total AttentionValue.sti
      have hlti := hgrown.total AttentionValue.lti
      rw [hav] at hsti hlti
      simp only [AtomSpace.worth, payDefault, Prod.mk.injEq]
      constructor
      · rw [hsti]
        simp [AttentionValue.DEFAULTATOMSTI, AttentionValue.default]
      · rw [hlti]
        simp [AttentionValue.DEFAULTATOMLTI, AttentionValue.default]

theorem merge_conserves (hs : Linked s.atomTable) (h : Handle) (tvn : TV) :
    Conserves s { s with atomTable := s.atomTable.merge ops h tvn } := by
  obtain ⟨hl, hu⟩ := hs.merge ops h tvn
  exact conserves_of_unchanged hl hu rfl rfl

theorem addNode_conserves (hs : Linked s.atomTable) (t : TypeCode) (name : String) (tvn : TV) :
    Conserves s (s.addNode cs ops slots t name tvn).1 := by
  unfold addNode
  split
  · exact merge_conserves ops hs _ tvn
  · refine addAtom_conserves ops slots hs _ fun x hx => ?_
    unfold Atom.newNode at hx
    split at hx
    · obtain rfl := Option.some.inj hx
      exact ⟨rfl, rfl⟩
    · cases hx

theorem addLink_conserves (hs : Linked s.atomTable) (t : TypeCode) (outgoing : List Handle)
    (tvn : TV) : Conserves s (s.addLink cs ops slots t outgoing tvn).1 := by
  unfold addLink
  split
  · exact merge_conserves ops hs _ tvn
  · refine addAtom_conserves ops slots hs _ fun x hx => ?_
    unfold Atom.newLink at hx
    split at hx
    · obtain rfl := Option.some.inj hx
      exact ⟨rfl, rfl⟩
    · cases hx

end Adding

/-! ## Giving values -/

theorem setAV_conserves {s : AtomSpace TV σ} (hs : Linked s.atomTable) {h : Handle}
    (hst : s.atomTable.isStored h = true) (av : AttentionValue) :
    ∃ s', s.setAV h av = some s' ∧ Conserves s s' := by
  obtain ⟨a, ha, -⟩ := exists_of_isStored hst
  have hsome : s.atomTable.handleMap h ≠ none := by rw [ha]; simp
  have hold : s.atomTable.avOf h = some a.attentionValue := by simp [avOf, ha]
  obtain ⟨hl, -, hbrk, hstored, hav⟩ := hs.setAttentionValue hsome av
  refine ⟨_, by rw [setAV, hold]; rfl, hl, ?_⟩
  have hsti := total_set AttentionValue.sti (hs.lt_brk hsome) hst hold hbrk hstored hav
  have hlti := total_set AttentionValue.lti (hs.lt_brk hsome) hst hold hbrk hstored hav
  simp only [AtomSpace.worth, Prod.mk.injEq]
  omega

theorem setSTI_conserves {s : AtomSpace TV σ} (hs : Linked s.atomTable) {h : Handle}
    (hst : s.atomTable.isStored h = true) (v : Short) :
    ∃ s', s.setSTI h v = some s' ∧ Conserves s s' := by
  obtain ⟨a, ha, -⟩ := exists_of_isStored hst
  have hold : s.atomTable.avOf h = some a.attentionValue := by simp [avOf, ha]
  rw [setSTI, hold]
  exact setAV_conserves hs hst _

theorem setLTI_conserves {s : AtomSpace TV σ} (hs : Linked s.atomTable) {h : Handle}
    (hst : s.atomTable.isStored h = true) (v : Short) :
    ∃ s', s.setLTI h v = some s' ∧ Conserves s s' := by
  obtain ⟨a, ha, -⟩ := exists_of_isStored hst
  have hold : s.atomTable.avOf h = some a.attentionValue := by simp [avOf, ha]
  rw [setLTI, hold]
  exact setAV_conserves hs hst _

theorem setVLTI_conserves {s : AtomSpace TV σ} (hs : Linked s.atomTable) {h : Handle}
    (hst : s.atomTable.isStored h = true) (v : Fin 65536) :
    ∃ s', s.setVLTI h v = some s' ∧ Conserves s s' := by
  obtain ⟨a, ha, -⟩ := exists_of_isStored hst
  have hold : s.atomTable.avOf h = some a.attentionValue := by simp [avOf, ha]
  rw [setVLTI, hold]
  exact setAV_conserves hs hst _

/-! ## Removing -/

theorem refund_all {s : AtomSpace TV σ} {res : List Handle}
    (hres : ∀ g ∈ res, s.atomTable.avOf g ≠ none) :
    res.foldlM refund s = some { s with
      fundsSTI := s.fundsSTI +
        (res.map fun g => ((s.atomTable.avOf g).map AttentionValue.sti).getD 0).sum
      fundsLTI := s.fundsLTI +
        (res.map fun g => ((s.atomTable.avOf g).map AttentionValue.lti).getD 0).sum } := by
  induction res generalizing s with
  | nil => simp
  | cons g res ih =>
    obtain ⟨av, hav⟩ := Option.ne_none_iff_exists'.mp (hres g List.mem_cons_self)
    have hstep : s.refund g = some { s with
        fundsSTI := s.fundsSTI + av.sti, fundsLTI := s.fundsLTI + av.lti } := by
      rw [refund, hav]
      rfl
    rw [List.foldlM_cons, hstep]
    simp only [Option.bind_eq_bind, Option.bind_some]
    rw [ih (s := { s with fundsSTI := s.fundsSTI + av.sti, fundsLTI := s.fundsLTI + av.lti })
      fun g' hg' => hres g' (List.mem_cons_of_mem g hg')]
    simp [hav, Int.add_assoc]

section Removing
variable (slots : Slots TV σ)

/-- Deleting the records of atoms that are not stored changes nothing that is held,
whether the slots throw or not. -/
theorem removeExtractedHandles_conserves (hs : List Handle) {s : AtomSpace TV σ}
    (hl : Linked s.atomTable) (hnd : hs.Nodup)
    (hres : ∀ g ∈ hs, s.atomTable.handleMap g ≠ none ∧ s.atomTable.isStored g = false ∧
      s.atomTable.incoming g = []) :
    ∃ s' returned, removeExtractedHandles slots hs s = some (s', returned) ∧ Conserves s s' := by
  induction hs generalizing s with
  | nil => exact ⟨s, true, rfl, hl, rfl⟩
  | cons h hs ih =>
    obtain ⟨hh, hnd⟩ := List.nodup_cons.mp hnd
    obtain ⟨hsome, hst, hin⟩ := hres h List.mem_cons_self
    simp only [removeExtractedHandles]
    split
    · obtain ⟨table, hdel, hl', hbrk, hother, htype, hgone⟩ := hl.deleteAtom hsome hst hin
      have hstored : table.isStored = s.atomTable.isStored := by
        funext g
        by_cases e : g = h
        · rw [e, hst]
          simp [isStored, hgone]
        · simp only [isStored, hother g e, htype]
      have htotal : ∀ f, table.total f = s.atomTable.total f := by
        intro f
        unfold AtomTable.total
        rw [hbrk]
        refine Finset.sum_congr rfl fun g _ => ?_
        by_cases e : g = h
        · simp [holding, hstored, e, hst]
        · simp [holding, hstored, avOf, hother g e]
      rw [hdel]
      simp only [Option.bind_eq_bind, Option.bind_some]
      obtain ⟨s', returned, he, hc⟩ := ih
        (s := { s with atomTable := table, servers := (slots.atomRemoved s.atomTable s.servers h).1 })
        hl' hnd (by
          intro g hg
          have e : g ≠ h := fun e => hh (e ▸ hg)
          obtain ⟨h₁, h₂, h₃⟩ := hres g (List.mem_cons_of_mem h hg)
          refine ⟨by rwa [hother g e], by rwa [hstored], ?_⟩
          simpa only [incoming, hother g e] using h₃)
      refine ⟨s', returned, he, hc.linked, hc.worth.trans ?_⟩
      simp only [AtomSpace.worth, htotal]
    · exact ⟨_, false, rfl, hl, rfl⟩

theorem removeAtom_conserves {s : AtomSpace TV σ} (hs : Linked s.atomTable) (h : Handle)
    (recursive : Bool) :
    ∃ s' result, s.removeAtom slots h recursive = some (s', result) ∧ Conserves s s' := by
  obtain ⟨table, res, he, hx⟩ := extract_takes (s.atomTable.brkUuid + 1) s.atomTable h recursive hs
    ⟨Nat.succ_pos _, by lia⟩
  have hsti := hx.total AttentionValue.sti hs
  have hlti := hx.total AttentionValue.lti hs
  simp only [removeAtom, he, Option.bind_eq_bind, Option.bind_some]
  split
  · next hnil =>
    subst hnil
    refine ⟨_, _, rfl, hx.linked, ?_⟩
    simp only [List.map_nil, List.sum_nil, Int.add_zero] at hsti hlti
    simp only [AtomSpace.worth, hsti, hlti]
  · have hav : ∀ g ∈ res, table.avOf g ≠ none := by
      intro g hg
      obtain ⟨a, ha⟩ := Option.ne_none_iff_exists'.mp (hx.record hg)
      simp [avOf, ha]
    rw [refund_all hav]
    simp only [Option.bind_some]
    obtain ⟨s', returned, hrem, hc⟩ := removeExtractedHandles_conserves slots res.reverse
      (s := { atomTable := table, servers := s.servers
              fundsSTI := s.fundsSTI + (res.map fun g =>
                ((table.avOf g).map AttentionValue.sti).getD 0).sum
              fundsLTI := s.fundsLTI + (res.map fun g =>
                ((table.avOf g).map AttentionValue.lti).getD 0).sum })
      hx.linked (List.nodup_reverse.mpr hx.nodup) (by
        intro g hg
        rw [List.mem_reverse] at hg
        refine ⟨hx.record hg, ?_, hx.bare g hg⟩
        rw [hx.stored]
        simp [hg])
    rw [hrem]
    refine ⟨s', _, rfl, hc.linked, hc.worth.trans ?_⟩
    simp only [AtomSpace.worth, hx.avOf, Prod.mk.injEq]
    omega

theorem removeAll_conserves (hs : List Handle) {s : AtomSpace TV σ} (hl : Linked s.atomTable) :
    ∃ s' returned, removeAll slots hs s = some (s', returned) ∧ Conserves s s' := by
  induction hs generalizing s with
  | nil => exact ⟨s, true, rfl, hl, rfl⟩
  | cons h hs ih =>
    obtain ⟨s₁, result, he, hc⟩ := removeAtom_conserves slots hl h true
    simp only [removeAll, he, Option.bind_eq_bind, Option.bind_some]
    split
    · obtain ⟨s', returned, he', hc'⟩ := ih hc.linked
      exact ⟨s', returned, he', hc'.linked, hc'.worth.trans hc.worth⟩
    · exact ⟨s₁, false, rfl, hc⟩

theorem clear_conserves (cs : ClassServer) {s : AtomSpace TV σ} (hl : Linked s.atomTable) :
    ∃ s' returned, s.clear cs slots = some (s', returned) ∧ Conserves s s' := by
  obtain ⟨s', returned, he, hc⟩ := removeAll_conserves slots
    (AtomTable.getHandleSet cs s.atomTable ATOM true) hl
  exact ⟨s', _, by rw [clear, he]; rfl, hc⟩

end Removing

end AtomSpace

/-! ## Runs -/

/-- The calls that give, pay or take attention. -/
inductive SpaceOp (TV : Type) where
  | addNode (t : TypeCode) (name : String) (tvn : TV)
  | addLink (t : TypeCode) (outgoing : List Handle) (tvn : TV)
  | setAV (h : Handle) (av : AttentionValue)
  | setSTI (h : Handle) (stiValue : Short)
  | setLTI (h : Handle) (ltiValue : Short)
  | setVLTI (h : Handle) (vltiValue : Fin 65536)
  | removeAtom (h : Handle) (recursive : Bool)
  | clear

namespace AtomSpace
open AtomTable

/-- As the constructor leaves it, with the starting funds of the configuration. -/
def opened (servers : σ) (fundsSTI fundsLTI : Int) : AtomSpace TV σ :=
  ⟨AtomTable.empty, servers, fundsSTI, fundsLTI⟩

section Runs
variable (cs : ClassServer) (ops : TruthOps TV) (slots : Slots TV σ)

/-- The space after a call, whether it returns or throws; `none` is a null pointer. -/
def apply (s : AtomSpace TV σ) : SpaceOp TV → Option (AtomSpace TV σ)
  | .addNode t name tvn => some (s.addNode cs ops slots t name tvn).1
  | .addLink t outgoing tvn => some (s.addLink cs ops slots t outgoing tvn).1
  | .setAV h av => s.setAV h av
  | .setSTI h v => s.setSTI h v
  | .setLTI h v => s.setLTI h v
  | .setVLTI h v => s.setVLTI h v
  | .removeAtom h recursive => (s.removeAtom slots h recursive).map Prod.fst
  | .clear => (s.clear cs slots).map Prod.fst

/-- Values are given to atoms of the space. -/
def GivesToStored (s : AtomSpace TV σ) : SpaceOp TV → Prop
  | .setAV h _ | .setSTI h _ | .setLTI h _ | .setVLTI h _ => s.atomTable.isStored h = true
  | _ => True

inductive Reachable (start : AtomSpace TV σ) : AtomSpace TV σ → Prop
  | start : Reachable start start
  | step {s s' : AtomSpace TV σ} (op : SpaceOp TV) (r : Reachable start s) (h : GivesToStored s op)
      (e : s.apply cs ops slots op = some s') : Reachable start s'

/-- No call fails, and none changes the worth of the space. -/
theorem apply_conserves {s : AtomSpace TV σ} (hs : Linked s.atomTable) (op : SpaceOp TV)
    (h : GivesToStored s op) : ∃ s', s.apply cs ops slots op = some s' ∧ Conserves s s' := by
  cases op with
  | addNode t name tvn => exact ⟨_, rfl, addNode_conserves cs ops slots hs t name tvn⟩
  | addLink t outgoing tvn => exact ⟨_, rfl, addLink_conserves cs ops slots hs t outgoing tvn⟩
  | setAV g av => exact setAV_conserves hs h av
  | setSTI g v => exact setSTI_conserves hs h v
  | setLTI g v => exact setLTI_conserves hs h v
  | setVLTI g v => exact setVLTI_conserves hs h v
  | removeAtom g recursive =>
    obtain ⟨s', result, he, hc⟩ := removeAtom_conserves slots hs g recursive
    exact ⟨s', by simp [apply, he], hc⟩
  | clear =>
    obtain ⟨s', returned, he, hc⟩ := clear_conserves slots cs hs
    exact ⟨s', by simp [apply, he], hc⟩

variable {cs ops slots}

theorem Reachable.conserves {start s : AtomSpace TV σ} (hs : Linked start.atomTable)
    (r : Reachable cs ops slots start s) : Conserves start s := by
  induction r with
  | start => exact ⟨hs, rfl⟩
  | step op _ h e ih =>
    obtain ⟨s', he, hc⟩ := apply_conserves cs ops slots ih.linked op h
    rw [e, Option.some.injEq] at he
    exact he ▸ ⟨hc.linked, hc.worth.trans ih.worth⟩

/-- Along every run the funds and what the stored atoms hold add up to the funds the space
was opened with, and no call fails. -/
theorem funds_conserved_along_runs (servers : σ) (fundsSTI fundsLTI : Int) (s : AtomSpace TV σ)
    (r : Reachable cs ops slots (opened servers fundsSTI fundsLTI) s) :
    s.fundsSTI + s.atomTable.total AttentionValue.sti = fundsSTI ∧
      s.fundsLTI + s.atomTable.total AttentionValue.lti = fundsLTI ∧
      ∀ op, GivesToStored s op → ∃ s', s.apply cs ops slots op = some s' := by
  have hc := r.conserves linked_empty
  have hstart : (opened servers fundsSTI fundsLTI : AtomSpace TV σ).worth = (fundsSTI, fundsLTI) := by
    simp [AtomSpace.worth, opened, AtomTable.total, empty, holding, isStored]
  have hw := hc.worth.trans hstart
  rw [AtomSpace.worth, Prod.mk.injEq] at hw
  refine ⟨hw.1, hw.2, fun op h => ?_⟩
  obtain ⟨s', he, -⟩ := apply_conserves cs ops slots hc.linked op h
  exact ⟨s', he⟩

end Runs

/-- Slots without a server behind them. -/
def noSlots : Slots Unit Unit := ⟨fun _ s _ => (s, true), fun _ s _ => (s, true)⟩

/-- A space with one node, opened with funds of 100 and 7. -/
def withNode : AtomSpace Unit Unit :=
  ((opened () 100 7).addNode .script ⟨fun _ => false, fun _ _ => (), ()⟩ noSlots
    CONCEPT_NODE "n" ()).1

/-- The node is given ten of the hundred. -/
theorem funds_conserved_of_payment :
    ∃ s : AtomSpace Unit Unit,
      Reachable .script ⟨fun _ => false, fun _ _ => (), ()⟩ noSlots (opened () 100 7) s ∧
      s.fundsSTI = 90 ∧ s.fundsSTI + s.atomTable.total AttentionValue.sti = 100 := by
  have r₁ : Reachable .script ⟨fun _ => false, fun _ _ => (), ()⟩ noSlots (opened () 100 7)
      withNode :=
    .step (.addNode CONCEPT_NODE "n" ()) .start trivial rfl
  have hst : withNode.atomTable.isStored 1 = true := by decide +kernel
  have hav : withNode.atomTable.avOf 1 = some .default := by decide +kernel
  let ten : AttentionValue := AttentionValue.default.withSTI ⟨10, by decide⟩
  have hpay : withNode.setSTI 1 ⟨10, by decide⟩ = some { withNode with
      fundsSTI := withNode.fundsSTI + (AttentionValue.default.sti - ten.sti)
      fundsLTI := withNode.fundsLTI + (AttentionValue.default.lti - ten.lti)
      atomTable := withNode.atomTable.setAttentionValue 1 ten } := by
    rw [setSTI, hav, Option.bind_eq_bind, Option.bind_some, setAV, hav]
    rfl
  have hfunds : withNode.fundsSTI + (AttentionValue.default.sti - ten.sti) = 90 := by
    decide +kernel
  have r₂ := r₁.step (.setSTI 1 ⟨10, by decide⟩) hst hpay
  exact ⟨_, r₂, hfunds, (funds_conserved_along_runs _ _ _ _ r₂).1⟩

end AtomSpace

end OpenCog
