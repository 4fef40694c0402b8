import OpenCog.Attention.Wages

/-! When the values of a run fit in shorts: the run is then that of unbounded integers, and
what it stores are sums of the importance, the wages and the rents before it. -/
namespace OpenCog.Attention

/-! ## The STI of a run -/

namespace ImportanceUpdatingAgent
variable (narrow : Int → Int) (libm : Libm) (u : ImportanceUpdatingAgent)

/-- One atom: wages and rent, then the cap. -/
def updateSTIOf (l : Lobe) (agents : List (Nat × ℚ)) (p : Purse) (h : Handle) : Purse :=
  enforceCap narrow stiCap (u.updateAtomSTI narrow libm l agents p h) h

/-- The STI when the funds are checked. -/
def stiBeforeTax (l : Lobe) (agents : List Nat) (p : Purse) : Purse :=
  let wages := calculateWages narrow l.minds u.stiAtomWage agents p
  (u.getHandlesToUpdate l).foldl (u.updateSTIOf narrow libm l (agents.zip wages.1)) wages.2

/-- The same focus, agents and atoms. -/
structure SameSetting (l l' : Lobe) : Prop where
  boundary : l'.attentionalFocusBoundary = l.attentionalFocusBoundary
  maxSTI : l'.maxSTI = l.maxSTI
  minds : l'.minds = l.minds
  atoms : l'.atoms = l.atoms
  isNode : l'.isNode = l.isNode

variable {narrow libm u} {l l' : Lobe}

theorem SameSetting.rent (h : SameSetting l l') (c : Int) :
    u.calculateSTIRent libm l' c = u.calculateSTIRent libm l c := by
  have hpos : focusPosition l' c = focusPosition l c := by
    simp only [focusPosition, Lobe.getMaxSTI, h.boundary, h.maxSTI]
  simp only [calculateSTIRent, h.boundary, hpos]

theorem SameSetting.handles (h : SameSetting l l') :
    u.getHandlesToUpdate l' = u.getHandlesToUpdate l := by
  simp only [getHandlesToUpdate, h.atoms, h.isNode]

theorem SameSetting.updateSTIOf (h : SameSetting l l') (agents : List (Nat × ℚ)) (p : Purse)
    (g : Handle) : u.updateSTIOf narrow libm l' agents p g = u.updateSTIOf narrow libm l agents p g := by
  have hrent : u.calculateSTIRent libm l' = u.calculateSTIRent libm l := funext h.rent
  simp only [ImportanceUpdatingAgent.updateSTIOf, updateAtomSTI, h.minds, hrent]

theorem updateAtoms_sti (stiWages ltiWages : List (Nat × ℚ)) (handles : List Handle)
    (seen : Int × Int) (hl : SameSetting l l') :
    SameSetting l (u.updateAtoms narrow libm stiWages ltiWages handles (seen, l')).2 ∧
      (u.updateAtoms narrow libm stiWages ltiWages handles (seen, l')).2.sti =
        handles.foldl (u.updateSTIOf narrow libm l stiWages) l'.sti := by
  induction handles generalizing seen l' with
  | nil => exact ⟨hl, rfl⟩
  | cons h handles ih =>
    have hstep : SameSetting l (u.updateAtomOf narrow libm stiWages ltiWages l' h) :=
      ⟨hl.boundary, hl.maxSTI, hl.minds, hl.atoms, hl.isNode⟩
    obtain ⟨hsame, hsti⟩ := ih (see seen ((u.updateAtomOf narrow libm stiWages ltiWages l' h).sti.holds
      (.atom h))) hstep
    refine ⟨hsame, hsti.trans ?_⟩
    rw [List.foldl_cons, ← hl.updateSTIOf]
    rfl

variable (narrow libm) in
/-- The extremes and the atoms when the loop over the atoms of a run ends. -/
def afterLoop (u : ImportanceUpdatingAgent) (l : Lobe) (agents : List Nat) : (Int × Int) × Lobe :=
  let start := { l with sti := l.sti.start, lti := l.lti.start }
  let sti := calculateWages narrow l.minds u.stiAtomWage agents l.sti.start
  let lti := calculateWages narrow l.minds u.ltiAtomWage agents l.lti.start
  ((u.updateAttentionalFocusSizes start).updateTotalStimulus start agents).updateAtoms narrow libm
    (agents.zip sti.1) (agents.zip lti.1) (u.getHandlesToUpdate l)
    ((-32768, 32767), { l with sti := sti.2, lti := lti.2 })

theorem afterLoop_sti (u : ImportanceUpdatingAgent) (l : Lobe) (agents : List Nat) :
    SameSetting l (afterLoop narrow libm u l agents).2 ∧
      (afterLoop narrow libm u l agents).2.sti =
        u.stiBeforeTax narrow libm l agents l.sti.start :=
  updateAtoms_sti _ _ _ _ ⟨rfl, rfl, rfl, rfl, rfl⟩

end ImportanceUpdatingAgent

/-! ## The values noted decide -/

/-- Values are only added to the notes, and conversions that agree on them give the same. -/
structure Narrowed (f : (Int → Int) → Purse → Purse) : Prop where
  noted : ∀ narrow p, p.noted <:+ (f narrow p).noted
  congr : ∀ narrow narrow' p, (∀ v ∈ (f narrow p).noted, narrow v = narrow' v) →
    f narrow p = f narrow' p

namespace Narrowed
variable {f g : (Int → Int) → Purse → Purse}

theorem refl : Narrowed fun _ p => p := ⟨fun _ _ => List.suffix_refl _, fun _ _ _ _ => rfl⟩

theorem comp (hf : Narrowed f) (hg : Narrowed g) : Narrowed fun narrow p => g narrow (f narrow p) := by
  refine ⟨fun narrow p => (hf.noted narrow p).trans (hg.noted narrow _), ?_⟩
  intro narrow narrow' p hagree
  have hfirst := hf.congr narrow narrow' p fun v hv => hagree v ((hg.noted narrow _).subset hv)
  rw [← hfirst]
  exact hg.congr narrow narrow' _ hagree

theorem foldl {α : Type*} {f : α → (Int → Int) → Purse → Purse} (hf : ∀ a, Narrowed (f a))
    (xs : List α) : Narrowed fun narrow p => xs.foldl (fun p a => f a narrow p) p := by
  induction xs with
  | nil => exact refl
  | cons a xs ih => exact (hf a).comp ih

theorem ite {c : Purse → Prop} [DecidablePred c] (hf : Narrowed f) (hg : Narrowed g) :
    Narrowed fun narrow p => if c p then f narrow p else g narrow p := by
  refine ⟨fun narrow p => ?_, fun narrow narrow' p hagree => ?_⟩
  · split
    · exact hf.noted narrow p
    · exact hg.noted narrow p
  · by_cases hc : c p
    · simp only [if_pos hc] at hagree ⊢
      exact hf.congr narrow narrow' p hagree
    · simp only [if_neg hc] at hagree ⊢
      exact hg.congr narrow narrow' p hagree

theorem set (avh : Holder) (v : Purse → Int) : Narrowed fun narrow p => p.set narrow avh (v p) :=
  ⟨fun _ _ => List.suffix_cons _ _,
    fun _ _ p hagree => Purse.set_congr p avh (hagree _ List.mem_cons_self)⟩

variable (W : Int) (n : Nat)

theorem updateAgent : Narrowed fun narrow p => updateAgent narrow W p n := by
  refine ⟨fun narrow p => ?_, fun narrow narrow' p hagree => ?_⟩
  · unfold Attention.updateAgent
    by_cases hc : p.holds (.agent n) < W * 100
    · simp only [if_pos hc]
      exact (List.suffix_cons _ _).trans (List.suffix_cons _ _)
    · simp only [if_neg hc]
      exact List.suffix_cons _ _
  · unfold Attention.updateAgent at hagree ⊢
    by_cases hc : p.holds (.agent n) < W * 100
    · simp only [if_pos hc] at hagree ⊢
      obtain ⟨hset, hnoted⟩ := List.forall_mem_cons.mp hagree
      rw [← hnoted _ List.mem_cons_self]
      exact Purse.set_congr _ _ hset
    · simp only [if_neg hc] at hagree ⊢
      exact Purse.set_congr _ _ (hagree _ List.mem_cons_self)

theorem enforceCap (cap : Int) (h : Handle) : Narrowed fun narrow p => enforceCap narrow cap p h :=
  ite (set _ fun _ => cap) (ite (set _ fun _ => -cap) refl)

theorem updateAtom {minds : Nat → Agent} {due : ℚ → Int → ℚ × Int} {rent : Int → Int}
    (agents : List (Nat × ℚ)) (h : Handle) :
    Narrowed fun narrow p => updateAtom narrow minds due rent agents p h :=
  ⟨fun _ p => updateAtom_noted rent agents p, fun _ _ _ hagree => updateAtom_congr hagree⟩

theorem taxAtoms (taxAmount : Purse → ℚ) (hs : List (Handle × Nat)) :
    Narrowed fun narrow p => ImportanceUpdatingAgent.taxAtoms narrow (taxAmount p) hs p := by
  have hfixed : ∀ q, Narrowed fun narrow p => ImportanceUpdatingAgent.taxAtoms narrow q hs p := by
    intro q
    induction hs with
    | nil => exact refl
    | cons h hs ih => exact (set _ _).comp ih
  exact ⟨fun narrow p => (hfixed _).noted narrow p,
    fun narrow narrow' p hagree => (hfixed _).congr narrow narrow' p hagree⟩

end Narrowed

namespace ImportanceUpdatingAgent
variable (u : ImportanceUpdatingAgent) (libm : Libm) (l : Lobe) (agents : List Nat)
  (draws : Handle → Nat)

end ImportanceUpdatingAgent

end OpenCog.Attention
