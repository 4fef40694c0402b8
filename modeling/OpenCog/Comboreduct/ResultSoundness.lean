import OpenCog.Comboreduct.LoopSoundness

/-! The rules that ask what an action returns, and the one that does not ask. -/
namespace OpenCog.Comboreduct

open Util Outcomes

variable {A P X W E : Type} {M : World A P X W E} {alwaysSucceeds : A → Bool} {associative : X → Bool}

/-! ## Conditionals and loops -/

section Choices
variable [DecidableEq A] [DecidableEq P] [DecidableEq X]

theorem sound_reduceActionActionIfAlwaysSucceeds (hM : M.Lawful alwaysSucceeds associative) :
    (actionLanguage M).Sound actionWeight
      (reduceActionActionIfAlwaysSucceeds (P := P) (X := X) alwaysSucceeds) := by
  intro v c ht hc
  by_cases hv : v = .other .actionActionIf
  · subst hv
    obtain ⟨a, b, b', hms⟩ := id ht
    obtain ⟨cond, cc, b1, c1, b2, c2, rfl, hcond, hb1, hb2⟩ := meanings_eq_three hms
    obtain ⟨htc, hcc, ht1, hc1, -, -, -⟩ := id hc
    obtain ⟨t, hresult, hright⟩ := getActionResult_right hM htc hcc
    rw [hcond] at hright
    simp only [reduceActionActionIfAlwaysSucceeds, hresult, Option.bind_eq_bind, Option.bind_some]
    split_ifs with hsucceeds
    · have hnew : (actionLanguage M).meanings (.cons cond cc (.cons b1 c1 .nil)) =
          [.action a, .action b] := by
        rw [meanings_cons, hcond, meanings_cons, hb1]
        rfl
      refine ⟨_, _, rfl, .inr (.inl ?_), ?_, ?_, htc, hcc, ht1, hc1, trivial⟩
      · simp only [leafCount]
        omega
      · rw [meaning_of hnew, meaning_of hms]
        refine congrArg Meaning.action ?_
        have hif : branch a b (done false) = branch a b b' := (hright true hsucceeds).branch_congr rfl
        simpa [Meaning.runs] using hif
      · show ∀ m ∈ _, Meaning.IsAction m
        rw [hnew]
        intro m hm
        simp only [List.mem_cons, List.not_mem_nil, or_false] at hm
        rcases hm with rfl | rfl
        · exact ⟨_, rfl⟩
        · exact ⟨_, rfl⟩
    · exact ⟨_, _, rfl, .refl ht hc⟩
  · refine ⟨v, c, ?_, .refl ht hc⟩
    unfold reduceActionActionIfAlwaysSucceeds
    split <;> simp_all

theorem sound_reduceActionWhileAlwaysFails (hM : M.Lawful alwaysSucceeds associative) :
    (actionLanguage M).Sound actionWeight
      (reduceActionWhileAlwaysFails (P := P) (X := X) alwaysSucceeds) := by
  intro v c ht hc
  by_cases hv : v = .other .actionWhile
  · subst hv
    obtain ⟨a, hms⟩ := id ht
    obtain ⟨v1, c1, rfl, hv1⟩ := meanings_eq_one hms
    obtain ⟨ht1, hc1, -⟩ := id hc
    obtain ⟨t, hresult, hright⟩ := getActionResult_right hM ht1 hc1
    rw [hv1] at hright
    simp only [reduceActionWhileAlwaysFails, hresult, Option.bind_eq_bind, Option.bind_some]
    split_ifs with hfails
    · refine ⟨_, _, rfl, .inr ?_, ?_, ht1, hc1⟩
      · simp only [Less, leafCount, weight, actionWeight]
        omega
      · rw [hv1, meaning_of hms]
        exact congrArg Meaning.action (loop_of_always (hright false hfails)).symm
    · exact ⟨_, _, rfl, .refl ht hc⟩
  · refine ⟨v, c, ?_, .refl ht hc⟩
    unfold reduceActionWhileAlwaysFails
    split <;> simp_all

end Choices

/-! ## Sequences -/

/-- `seq` does not look at what comes after an action that always has this result. -/
theorem eraseAfter_keeps (hM : M.Lawful alwaysSucceeds associative) (last : Bool)
    (seq : List (Program W) → Program W)
    (hlast : ∀ a as, Always last a → seq (a :: as) = seq [a])
    (hcons : ∀ a as bs, seq as = seq bs → seq (a :: as) = seq (a :: bs))
    {c : Forest (ActionVertex A P X)} (hc : (actionLanguage M).Typed c) :
    ∃ c', eraseAfter alwaysSucceeds last c = some c' ∧ (siblings c').Sublist (siblings c) ∧
      seq (((actionLanguage M).meanings c').map Meaning.runs) =
        seq (((actionLanguage M).meanings c).map Meaning.runs) := by
  induction c with
  | nil => exact ⟨.nil, rfl, .slnil, rfl⟩
  | cons v c n _ ihn =>
    obtain ⟨hv, hcc, hn⟩ := hc
    obtain ⟨t, hresult, hright⟩ := getActionResult_right hM hv hcc
    simp only [eraseAfter, hresult, Option.bind_eq_bind, Option.bind_some]
    split_ifs with hend
    · refine ⟨_, rfl, ?_, ?_⟩
      · exact (List.nil_sublist _).cons_cons _
      · exact (hlast _ _ (hright last hend)).symm
    · obtain ⟨n', hn', hsub, hsame⟩ := ihn hn
      refine ⟨.cons v c n', by rw [hn']; rfl, hsub.cons_cons _, ?_⟩
      exact hcons _ _ _ hsame

theorem sound_reduceSequentialAndAlwaysFails (hM : M.Lawful alwaysSucceeds associative) :
    (actionLanguage M).Sound actionWeight
      (reduceSequentialAndAlwaysFails (P := P) (X := X) alwaysSucceeds) := by
  intro v c ht hc
  fun_cases reduceSequentialAndAlwaysFails alwaysSucceeds v c with
  | case1 c =>
    obtain ⟨c', hc', hsub, hsame⟩ := eraseAfter_keeps hM false andSeq
      (fun a as ha => ha.branch_congr rfl) (fun a as bs h => by rw [andSeq_cons, h]; rfl) hc
    exact ⟨_, c', by rw [hc']; rfl, keeps_sublist (fun _ => .rfl) ht hc hsub
      (congrArg Meaning.action hsame)⟩
  | case2 v c => exact ⟨_, _, rfl, .refl ht hc⟩

theorem sound_reduceSequentialOrAlwaysSucceeds (hM : M.Lawful alwaysSucceeds associative) :
    (actionLanguage M).Sound actionWeight
      (reduceSequentialOrAlwaysSucceeds (P := P) (X := X) alwaysSucceeds) := by
  intro v c ht hc
  fun_cases reduceSequentialOrAlwaysSucceeds alwaysSucceeds v c with
  | case1 c =>
    obtain ⟨c', hc', hsub, hsame⟩ := eraseAfter_keeps hM true orSeq
      (fun a as ha => ha.branch_congr rfl) (fun a as bs h => by rw [orSeq_cons, h]; rfl) hc
    exact ⟨_, c', by rw [hc']; rfl, keeps_sublist (fun _ => .rfl) ht hc hsub
      (congrArg Meaning.action hsame)⟩
  | case2 v c => exact ⟨_, _, rfl, .refl ht hc⟩

/-! ## The condition of a loop -/

variable [DecidableEq A] [DecidableEq P] [DecidableEq X]

/-- A loop whose condition is true may be replaced by its body only when the body always fails,
which the rule does not ask. -/
theorem reduceBooleanWhileDependCondition_keeps_iff {cond b : ActionVertex A P X}
    {cc c : Forest (ActionVertex A P X)}
    (ht : (Vertex.other .booleanWhile : ActionVertex A P X).Takes
      ((actionLanguage M).meanings (.cons cond cc (.cons b c .nil)))) :
    ∃ v' c', reduceBooleanWhileDependCondition (.other .booleanWhile)
        (.cons cond cc (.cons b c .nil)) = some (v', c') ∧
      ((actionLanguage M).meaning v' c' =
          (actionLanguage M).meaning (.other .booleanWhile) (.cons cond cc (.cons b c .nil)) ↔
        (cond = .logicalTrue → Always false ((actionLanguage M).meaning b c).runs)) := by
  obtain ⟨h, a, hms⟩ := id ht
  obtain ⟨_, _, _, _, heq, hcond, hb⟩ := meanings_eq_two hms
  obtain ⟨rfl, rfl, hrest⟩ := Forest.cons.inj heq
  obtain ⟨rfl, rfl, -⟩ := Forest.cons.inj hrest
  have hself := meaning_of (v := .other .booleanWhile) hms
  rw [reduceBooleanWhileDependCondition]
  split_ifs with htrue hfalse
  · subst htrue
    obtain rfl := meaning_condition (h := fun _ => true) rfl hcond
    refine ⟨_, _, rfl, ?_⟩
    rw [hself, hb]
    refine ⟨fun hsame _ => ?_, fun hfails => congrArg Meaning.action ?_⟩
    · have hloop : a = Loop a := (Meaning.action.inj hsame).trans (whileLoop_true a)
      exact (loop_eq_self_iff a).mp hloop.symm
    · exact ((whileLoop_true a).trans ((loop_eq_self_iff a).mpr (hfails rfl))).symm
  · subst hfalse
    obtain rfl := meaning_condition (h := fun _ => false) rfl hcond
    refine ⟨_, _, rfl, ?_⟩
    rw [hself]
    refine iff_of_true (congrArg Meaning.action ?_) fun h => by cases h
    exact (whileLoop_false (fun _ => rfl) a).symm
  · exact ⟨_, _, rfl, iff_of_true rfl fun h => absurd h htrue⟩

theorem reduceBooleanWhileDependCondition_keeps_iff_added :
    ∃ v' c', reduceBooleanWhileDependCondition (.other .booleanWhile)
        (.cons .logicalTrue .nil added) = some (v', c') ∧
      ((actionLanguage counting).meaning v' c' =
          (actionLanguage counting).meaning (.other .booleanWhile) (.cons .logicalTrue .nil added) ↔
        ((.logicalTrue : ActionVertex Bool Unit Empty) = .logicalTrue →
          Always false
            ((actionLanguage counting).meaning (.other (.builtinAction true)) .nil).runs)) :=
  reduceBooleanWhileDependCondition_keeps_iff ⟨_, _, rfl⟩

end OpenCog.Comboreduct
