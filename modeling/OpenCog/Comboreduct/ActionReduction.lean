import OpenCog.Comboreduct.InitialInstant

/-! The reductions of action trees keep what a tree means, and they end. -/
namespace OpenCog.Comboreduct

open Util Outcomes

variable {A P X W E : Type} {M : World A P X W E} {alwaysSucceeds : A → Bool} {associative : X → Bool}

/-- The loop of the rules ends on the tree, at one with the same meaning that no rule changes. -/
def ReducesWell [DecidableEq A] [DecidableEq P] [DecidableEq X] (M : World A P X W E)
    (rules : List (Rule (ActionVertex A P X))) (tr : Forest (ActionVertex A P X)) : Prop :=
  ∃ tr', (actionLanguage M).meanings tr' = (actionLanguage M).meanings tr ∧
    (actionLanguage M).Typed tr' ∧
    ∃ enough, ∀ fuel ≥ enough,
      reduceWith rules fuel tr = some tr' ∧ Language.passes rules fuel tr' = some tr'

/-! ## Reductions -/

variable [DecidableEq A] [DecidableEq P] [DecidableEq X]

theorem reducesWell {rules : List (Rule (ActionVertex A P X))}
    (hr : ∀ r ∈ rules, (actionLanguage M).Sound actionWeight r) {tr : Forest (ActionVertex A P X)}
    (ht : (actionLanguage M).Typed tr) : ReducesWell M rules tr := by
  obtain ⟨tr', hsame, ht', enough, hrun⟩ := Language.iterative_sound actionWeight_pos hr ht
  refine ⟨tr', hsame, ht', enough, fun fuel hfuel => ?_⟩
  obtain ⟨hfix, hloop⟩ := hrun fuel hfuel
  exact ⟨hloop fuel hfuel, hfix⟩

theorem sound_hillclimbingActionRules (hM : M.Lawful alwaysSucceeds associative) :
    ∀ r ∈ hillclimbingActionRules alwaysSucceeds associative,
      (actionLanguage M).Sound actionWeight r := by
  intro r hr
  simp only [hillclimbingActionRules, List.mem_cons, List.not_mem_nil, or_false] at hr
  rcases hr with rfl | rfl | rfl | rfl | rfl
  · exact sound_level hM
  · exact sound_reduceNotCondActionBooleanIf
  · exact sound_reduceActionActionIfAlwaysSucceeds hM
  · exact sound_reduceActionIf
  · exact sound_reduceActionWhileAlwaysFails hM

theorem hillclimbingActionRules_reduce (hM : M.Lawful alwaysSucceeds associative)
    {tr : Forest (ActionVertex A P X)} (ht : (actionLanguage M).Typed tr) :
    ReducesWell M (hillclimbingActionRules alwaysSucceeds associative) tr := by
  exact reducesWell (sound_hillclimbingActionRules hM) ht

/-- `action_boolean_if(not(something) add remove)` -/
def ifNothing : Forest (ActionVertex Bool Unit Empty) :=
  .cons (.other .actionBooleanIf)
    (.cons (.other .logicalNot) perceived (added.append removed)) .nil

theorem typed_ifNothing : (actionLanguage counting).Typed ifNothing :=
  ⟨⟨_, _, _, rfl⟩, ⟨⟨_, rfl⟩, typed_perceived, trivial, trivial, trivial, trivial, trivial⟩, trivial⟩

theorem hillclimbingActionRules_reduce_ifNothing :
    ReducesWell counting (hillclimbingActionRules id Empty.elim) ifNothing :=
  hillclimbingActionRules_reduce counting_lawful typed_ifNothing

theorem hillclimbingFullRules_reduce (hM : M.Lawful alwaysSucceeds associative)
    {tr : Forest (ActionVertex A P X)} (ht : (actionLanguage M).Typed tr) :
    ReducesWell M (hillclimbingFullRules alwaysSucceeds associative) tr := by
  refine reducesWell (fun r hr => ?_) ht
  simp only [hillclimbingFullRules, List.mem_cons, List.not_mem_nil, or_false] at hr
  rcases hr with rfl | rfl | rfl | rfl | rfl | rfl | rfl | rfl | rfl | rfl
  · exact sound_level hM
  · exact sound_reduceActionIf
  · exact sound_reduceActionBooleanIfSubCond
  · exact sound_reduceBooleanWhileSubCond
  · exact sound_reduceRepeatOutActionWhile
  · exact sound_reduceRepeatInActionWhile
  · exact sound_reduceActionActionIfAlwaysSucceeds hM
  · exact sound_reduceActionWhileAlwaysFails hM
  · exact sound_reduceSequentialAndAlwaysFails hM
  · exact sound_reduceNotCondActionBooleanIf

theorem hillclimbingFullRules_reduce_ifNothing :
    ReducesWell counting (hillclimbingFullRules id Empty.elim) ifNothing :=
  hillclimbingFullRules_reduce counting_lawful typed_ifNothing

end OpenCog.Comboreduct
