import OpenCog.Comboreduct.ActionResult

/-! The rules for action trees keep what a tree means, and the loops of them end. -/
namespace OpenCog.Comboreduct

open Util Outcomes

variable {A P X W E : Type} {M : World A P X W E}

/-! ## Shapes -/

section Shapes
variable {f : Forest (ActionVertex A P X)} {x y z : Meaning W E} {v : ActionVertex A P X}
  {c : Forest (ActionVertex A P X)} {ms : List (Meaning W E)}

theorem meanings_eq_nil (h : (actionLanguage M).meanings f = []) : f = .nil := by
  cases f with
  | nil => rfl
  | cons v c n => cases h

theorem meanings_eq_one (h : (actionLanguage M).meanings f = [x]) :
    ∃ v c, f = .cons v c .nil ∧ (actionLanguage M).meaning v c = x := by
  cases f with
  | nil => cases h
  | cons v c n =>
    obtain ⟨hx, hn⟩ := List.cons.inj h
    obtain rfl := meanings_eq_nil hn
    exact ⟨v, c, rfl, hx⟩

theorem meanings_eq_two (h : (actionLanguage M).meanings f = [x, y]) :
    ∃ v c v1 c1, f = .cons v c (.cons v1 c1 .nil) ∧ (actionLanguage M).meaning v c = x ∧
      (actionLanguage M).meaning v1 c1 = y := by
  cases f with
  | nil => cases h
  | cons v c n =>
    obtain ⟨hx, hn⟩ := List.cons.inj h
    obtain ⟨v1, c1, rfl, hy⟩ := meanings_eq_one hn
    exact ⟨v, c, v1, c1, rfl, hx, hy⟩

theorem meanings_eq_three (h : (actionLanguage M).meanings f = [x, y, z]) :
    ∃ v c v1 c1 v2 c2, f = .cons v c (.cons v1 c1 (.cons v2 c2 .nil)) ∧
      (actionLanguage M).meaning v c = x ∧ (actionLanguage M).meaning v1 c1 = y ∧
      (actionLanguage M).meaning v2 c2 = z := by
  cases f with
  | nil => cases h
  | cons v c n =>
    obtain ⟨hx, hn⟩ := List.cons.inj h
    obtain ⟨v1, c1, v2, c2, rfl, hy, hz⟩ := meanings_eq_two hn
    exact ⟨v, c, v1, c1, v2, c2, rfl, hx, hy, hz⟩

theorem meanings_cons (v : ActionVertex A P X) (c n : Forest (ActionVertex A P X)) :
    (actionLanguage M).meanings (.cons v c n) =
      (actionLanguage M).meaning v c :: (actionLanguage M).meanings n := rfl

theorem meaning_of (h : (actionLanguage M).meanings c = ms) :
    (actionLanguage M).meaning v c = v.meaning M ms := by
  rw [← h]
  rfl

end Shapes

/-- What the measure counts. -/
def actionWeight : ActionVertex A P X → Nat
  | .logicalAnd | .logicalOr => 2
  | .other .sequentialAnd | .other .sequentialOr | .other .sequentialExec => 2
  | .other (.perception _) => 2
  | _ => 1

theorem actionWeight_pos (v : ActionVertex A P X) : 0 < actionWeight v := by
  unfold actionWeight
  split <;> decide

theorem meaning_condition {v : ActionVertex A P X} {c : Forest (ActionVertex A P X)} {h k : W → Bool}
    (hv : (actionLanguage M).meaning v c = .condition h)
    (hk : (actionLanguage M).meaning v c = .condition k) : h = k :=
  Meaning.condition.inj (hv.symm.trans hk)

theorem meaning_action {v : ActionVertex A P X} {c : Forest (ActionVertex A P X)} {a b : Program W}
    (hv : (actionLanguage M).meaning v c = .action a)
    (hk : (actionLanguage M).meaning v c = .action b) : a = b :=
  Meaning.action.inj (hv.symm.trans hk)

variable [DecidableEq A] [DecidableEq P] [DecidableEq X]

/-! ## Conditionals -/

theorem sound_reduceActionIf :
    (actionLanguage M).Sound actionWeight (reduceActionIf (A := A) (P := P) (X := X)) := by
  intro v c ht hc
  by_cases hv : v = .other .actionBooleanIf
  · subst hv
    obtain ⟨h, a, b, hms⟩ := id ht
    obtain ⟨cond, cc, b1, c1, b2, c2, rfl, hcond, hb1, hb2⟩ := meanings_eq_three hms
    obtain ⟨-, -, ht1, hc1, ht2, hc2, -⟩ := id hc
    have hself := meaning_of (v := .other .actionBooleanIf) hms
    rw [reduceActionIf]
    split_ifs with htrue hfalse hsame
    · subst htrue
      obtain rfl := meaning_condition (h := fun _ => true) rfl hcond
      refine ⟨_, _, rfl, .inr (.inl ?_), ?_, ht1, hc1⟩
      · simp only [leafCount]
        omega
      · rw [hb1, hself]
        rfl
    · subst hfalse
      obtain rfl := meaning_condition (h := fun _ => false) rfl hcond
      refine ⟨_, _, rfl, .inr (.inl ?_), ?_, ht2, hc2⟩
      · simp only [leafCount]
        omega
      · rw [hb2, hself]
        rfl
    · obtain ⟨rfl, rfl⟩ := hsame
      obtain rfl := meaning_action hb1 hb2
      refine ⟨_, _, rfl, .inr (.inl ?_), ?_, ht1, hc1⟩
      · simp only [leafCount]
        omega
      · rw [hb1, hself]
        exact congrArg Meaning.action (test_self h a).symm
    · exact ⟨_, _, rfl, .refl ht hc⟩
  · refine ⟨v, c, ?_, .refl ht hc⟩
    unfold reduceActionIf
    split <;> simp_all

theorem sound_reduceNotCondActionBooleanIf :
    (actionLanguage M).Sound actionWeight
      (reduceNotCondActionBooleanIf (A := A) (P := P) (X := X)) := by
  intro v c ht hc
  by_cases hv : v = .other .actionBooleanIf
  · subst hv
    obtain ⟨h, a, b, hms⟩ := id ht
    obtain ⟨cond, cc, b1, c1, b2, c2, rfl, hcond, hb1, hb2⟩ := meanings_eq_three hms
    obtain ⟨htc, hcc, ht1, hc1, ht2, hc2, -⟩ := id hc
    have hself := meaning_of (v := .other .actionBooleanIf) hms
    rw [reduceNotCondActionBooleanIf]
    split_ifs with hnot
    · subst hnot
      obtain ⟨k, hk⟩ := htc
      obtain ⟨v0, c0, rfl, hv0⟩ := meanings_eq_one hk
      obtain rfl := meaning_condition (h := fun w => !k w) (meaning_of hk) hcond
      have hnew : (actionLanguage M).meanings (.cons v0 c0 (.cons b2 c2 (.cons b1 c1 .nil))) =
          [.condition k, .action b, .action a] := by
        rw [meanings_cons, hv0, meanings_cons, hb2, meanings_cons, hb1]
        rfl
      refine ⟨_, _, rfl, .inr (.inr ⟨?_, ?_⟩), ?_, ⟨k, b, a, hnew⟩, hcc.1, hcc.2.1, ht2, hc2, ht1, hc1,
        trivial⟩
      · simp only [Forest.append, swapSecond, leafCount]
        omega
      · simp only [Forest.append, swapSecond, weight, actionWeight]
        omega
      · rw [hself]
        refine (meaning_of hnew).trans (congrArg Meaning.action ?_)
        exact (test_not k a b).symm
    · exact ⟨_, _, rfl, .refl ht hc⟩
  · refine ⟨v, c, ?_, .refl ht hc⟩
    unfold reduceNotCondActionBooleanIf
    split <;> simp_all

theorem sound_reduceDoubleActionNot :
    (actionLanguage M).Sound actionWeight (reduceDoubleActionNot (A := A) (P := P) (X := X)) := by
  intro v c ht hc
  by_cases hv : v = .other .actionNot
  · subst hv
    obtain ⟨a, hms⟩ := id ht
    obtain ⟨v1, c1, rfl, hv1⟩ := meanings_eq_one hms
    have hself := meaning_of (v := .other .actionNot) hms
    by_cases hnot : v1 = .other .actionNot
    · subst hnot
      obtain ⟨b, hb⟩ := hc.1
      obtain ⟨v2, c2, rfl, hv2⟩ := meanings_eq_one hb
      obtain rfl := meaning_action (a := branch b (done false) (done true)) (meaning_of hb) hv1
      refine ⟨v2, c2.append .nil, rfl, ?_⟩
      rw [Forest.append_nil]
      refine ⟨.inr (.inr ⟨?_, ?_⟩), ?_, hc.2.1.1, hc.2.1.2.1⟩
      · simp only [leafCount]
        omega
      · simp only [weight, actionWeight]
        omega
      · rw [hv2, hself]
        refine congrArg Meaning.action ?_
        simp [Meaning.runs, branch_branch]
    · refine ⟨.other .actionNot, .cons v1 c1 .nil, ?_, .refl ht hc⟩
      unfold reduceDoubleActionNot
      split <;> simp_all
  · refine ⟨v, c, ?_, .refl ht hc⟩
    unfold reduceDoubleActionNot
    split <;> simp_all

end OpenCog.Comboreduct
