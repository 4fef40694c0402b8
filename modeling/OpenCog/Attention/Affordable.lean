import OpenCog.Attention.ClosedForm

/-! When a run stays within shorts, said of the importance before it: the top-ups, the rents,
the sums the agents are debited one after the other and the taxes fit. -/
namespace OpenCog.Attention

/-- Paid one after the other, the amounts leave each payer with a balance that fits. -/
def Covered (balance : Nat → Int) (bills : List (Nat × Int)) : Prop :=
  ∀ paid e, paid ++ [e] <+: bills → Fits (balance e.1 - debitOf e.1 (paid ++ [e]))

section Covered
variable {balance : Nat → Int} {e : Nat × Int} {bills bills' : List (Nat × Int)}

theorem covered_nil : Covered balance [] := by
  intro paid e hprefix
  have hnil := List.prefix_nil.mp hprefix
  simp at hnil

theorem covered_cons : Covered balance (e :: bills) ↔
    Fits (balance e.1 - e.2) ∧ Covered (fun n => balance n - debitOf n [e]) bills := by
  constructor
  · intro h
    refine ⟨?_, fun paid f hprefix => ?_⟩
    · have hfirst := h [] e (List.prefix_append [e] bills)
      simpa [debitOf] using hfirst
    · have hlater := h (e :: paid) f ((List.prefix_cons_inj e).mpr hprefix)
      rwa [List.cons_append, ← List.singleton_append, debitOf_append, ← sub_sub] at hlater
  · rintro ⟨hfirst, hrest⟩ paid f hprefix
    cases paid with
    | nil =>
      obtain rfl : f = e := (List.cons_prefix_cons.mp hprefix).1
      simpa [debitOf] using hfirst
    | cons g paid =>
      obtain ⟨rfl, hpaid⟩ := List.cons_prefix_cons.mp hprefix
      rw [List.cons_append, ← List.singleton_append, debitOf_append, ← sub_sub]
      exact hrest paid f hpaid

end Covered

/-! ## What an exact run notes -/

def AllFit (p : Purse) : Prop := ∀ v ∈ p.noted, Fits v

/-- The top-up of an agent, and what it then holds. -/
def TopUpFits (W current : Int) : Prop :=
  Fits (max current (W * 100)) ∧ (current < W * 100 → Fits (W * 100 - current))

namespace AllFit
variable {p : Purse}

theorem note {v : Int} : AllFit (p.note v) ↔ Fits v ∧ AllFit p := List.forall_mem_cons

theorem set {narrow : Int → Int} {avh : Holder} {v : Int} :
    AllFit (p.set narrow avh v) ↔ Fits v ∧ AllFit p := List.forall_mem_cons

variable {W : Int} {n : Nat}

theorem updateAgent : AllFit (updateAgent id W p n) ↔
    TopUpFits W (p.holds (.agent n)) ∧ AllFit p := by
  unfold Attention.updateAgent TopUpFits
  by_cases hc : p.holds (.agent n) < W * 100
  · simp only [hc, if_true, set, note, max_eq_right hc.le, id_eq, forall_const, add_sub_cancel,
      and_assoc]
  · simp only [hc, if_false, set, max_eq_left (not_lt.mp hc), false_imp_iff, and_true, add_zero]

end AllFit

theorem AllFit.calculateWages {minds : Nat → Agent} {W : Int} {agents : List Nat} {p : Purse} :
    AllFit (calculateWages id minds W agents p).2 ↔
      (∀ n ∈ agents, TopUpFits W (p.holds (.agent n))) ∧ AllFit p := by
  induction agents generalizing p with
  | nil => simp [Attention.calculateWages]
  | cons n agents ih =>
    have hstable : ∀ m, TopUpFits W (p.holds (.agent n)) →
        (TopUpFits W ((Attention.updateAgent id W p n).holds (.agent m)) ↔
          TopUpFits W (p.holds (.agent m))) := by
      intro m hn
      by_cases hm : m = n
      · subst hm
        have hfull : max (p.holds (.agent m)) (W * 100) ≥ W * 100 := le_max_right _ _
        rw [updateAgent_holds .id, Function.update_self, id_eq]
        unfold TopUpFits at hn ⊢
        rw [max_assoc, max_self]
        exact iff_of_true ⟨hn.1, fun hlt => absurd hlt (not_lt.mpr hfull)⟩ hn
      · rw [updateAgent_holds .id, Function.update_of_ne (by simpa using hm)]
    rw [Attention.calculateWages, ih, AllFit.updateAgent, List.forall_mem_cons, and_assoc]
    constructor
    · rintro ⟨hrest, hn, hp⟩
      exact ⟨hn, fun m hm => (hstable m hn).mp (hrest m hm), hp⟩
    · rintro ⟨hn, hrest, hp⟩
      exact ⟨fun m hm => (hstable m hn).mpr (hrest m hm), hn, hp⟩

section Atom
variable {minds : Nat → Agent} {due : ℚ → Int → ℚ × Int} {rent : Int → Int} {h : Handle}
  {agents : List (Nat × ℚ)} {p : Purse}

/-- The wages due are whole numbers that fit. -/
def WagesFit (minds : Nat → Agent) (due : ℚ → Int → ℚ × Int) (h : Handle)
    (agents : List (Nat × ℚ)) : Prop :=
  ∀ a ∈ agents, (minds a.1).totalStimulus ≠ 0 →
    Fits (truncate (due a.2 ((minds a.1).getAtomStimulus h)).1)

theorem AllFit.payWages {x : Int} (hwages : WagesFit minds due h agents) :
    AllFit (payWages id minds due h agents x p).2 ↔
      (∀ e ∈ debits x (dues minds due h agents), Fits e.2) ∧
        Covered (fun n => p.holds (.agent n)) (debits x (dues minds due h agents)) ∧ AllFit p := by
  induction agents generalizing x p with
  | nil => simp [Attention.payWages, dues, debits, covered_nil]
  | cons a agents ih =>
    obtain ⟨hfirst, hrest⟩ := List.forall_mem_cons.mp hwages
    by_cases hzero : (minds a.1).totalStimulus = 0
    · have hdues : dues minds due h (a :: agents) = dues minds due h agents := by
        simp [dues, hzero]
      rw [payWages_unstimulated hzero, hdues]
      exact ih hrest
    · set d := due a.2 ((minds a.1).getAtomStimulus h)
      have hdues : dues minds due h (a :: agents) =
          (a.1, truncate d.1 * d.2) :: dues minds due h agents := by
        simp [dues, hzero, d]
      obtain ⟨hx, -, hagent, -⟩ := pay_modEq .id a.1 d (Int.ModEq.refl x) p
      simp only [Int.modEq_zero_iff] at hx hagent
      have hpay : AllFit (pay id a.1 d x p).2 ↔
          Fits (p.holds (.agent a.1) - (x + truncate d.1 * d.2)) ∧
            Fits (x + truncate d.1 * d.2) ∧ AllFit p := by
        simp only [pay, AllFit.set, AllFit.note, id_eq, hfirst hzero, true_and]
        rfl
      have hdebit : ∀ n, debitOf n [(a.1, x + truncate d.1 * d.2)] =
          if a.1 = n then x + truncate d.1 * d.2 else 0 := fun n => by
        rw [debitOf_cons]
        exact add_zero _
      have hstep : Attention.payWages id minds due h (a :: agents) x p =
          Attention.payWages id minds due h agents (pay id a.1 d x p).1 (pay id a.1 d x p).2 :=
        payWages_stimulated hzero a.2 agents x p
      rw [hstep, ih hrest, hpay, hdues, debits, covered_cons, List.forall_mem_cons, hx]
      simp only [hagent, hdebit]
      tauto

theorem AllFit.updateAtom (hwages : WagesFit minds due h agents) :
    AllFit (updateAtom id minds due rent agents p h) ↔
      Fits (p.holds (.atom h) + ((dues minds due h agents).map Prod.snd).sum -
          rent (p.holds (.atom h))) ∧ Fits (-rent (p.holds (.atom h))) ∧
        (∀ e ∈ debits (-rent (p.holds (.atom h))) (dues minds due h agents), Fits e.2) ∧
        Covered (fun n => p.holds (.agent n))
          (debits (-rent (p.holds (.atom h))) (dues minds due h agents)) ∧ AllFit p := by
  obtain ⟨hsum, -⟩ := @payWages_modEq id 0 minds due h .id agents _ _
    (Int.ModEq.refl (-rent (p.holds (.atom h)))) (p.note (-rent (p.holds (.atom h))))
  rw [Int.modEq_zero_iff] at hsum
  unfold Attention.updateAtom
  simp only [AllFit.set, AllFit.payWages hwages, AllFit.note, id_eq, hsum, Purse.holds_note]
  rw [neg_add_eq_sub, add_sub_assoc]
  tauto

end Atom

theorem AllFit.enforceCap {p : Purse} {h : Handle} :
    AllFit (enforceCap id stiCap p h) ↔ AllFit p := by
  unfold Attention.enforceCap
  by_cases hhigh : stiCap < p.holds (.atom h)
  · simp only [hhigh, if_true, set]
    exact and_iff_right (by decide)
  · by_cases hlow : p.holds (.atom h) < -stiCap
    · simp only [hhigh, hlow, if_true, if_false, set]
      exact and_iff_right (by decide)
    · simp only [hhigh, hlow, if_false]

namespace ImportanceUpdatingAgent
variable {u : ImportanceUpdatingAgent} {libm : Libm} {l : Lobe} {wages : List (Nat × ℚ)}
  {p : Purse} {h : Handle}

end ImportanceUpdatingAgent

/-! ## When nothing is narrowed -/

namespace ImportanceUpdatingAgent
variable (u : ImportanceUpdatingAgent) (libm : Libm) (l : Lobe) (agents : List Nat)

variable {u libm l agents}

end ImportanceUpdatingAgent

end OpenCog.Attention
