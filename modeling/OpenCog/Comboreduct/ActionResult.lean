import OpenCog.Comboreduct.ActionRules

/-! What `get_action_result` says about an action holds in every world. -/
namespace OpenCog.Comboreduct

open Util Outcomes

variable {A P X W E : Type} {M : World A P X W E} {alwaysSucceeds : A → Bool} {associative : X → Bool}
  {rs : List (Option Tribool)} {ms : List (Meaning W E)} {b : Bool}

/-- There is a result, and it is right about every run of what the tree means. -/
def RightAbout (r : Option Tribool) (m : Meaning W E) : Prop :=
  ∃ t, r = some t ∧ ∀ b, t = some b → Always b m.runs

theorem RightAbout.indeterminate (m : Meaning W E) : RightAbout (some none) m :=
  ⟨none, rfl, fun _ h => by cases h⟩

theorem RightAbout.always {m : Meaning W E} (h : Always b m.runs) : RightAbout (some (some b)) m :=
  ⟨some b, rfl, fun _ e => Option.some.inj e ▸ h⟩

theorem andResult_right (h : List.Forall₂ RightAbout rs ms) :
    RightAbout (andResult rs) (.action (andSeq (ms.map Meaning.runs)) : Meaning W E) := by
  induction h with
  | nil => exact .always (.done true)
  | @cons r m rs ms hm _ ih =>
    obtain ⟨t, rfl, hm⟩ := hm
    rw [List.map_cons, andSeq_cons]
    rcases t with _ | _ | _
    · exact .indeterminate _
    · exact .always ((hm false rfl).branch_of (.done false))
    · obtain ⟨t, hr, hrest⟩ := ih
      exact ⟨t, hr, fun b hb => (hm true rfl).branch_of (hrest b hb)⟩

theorem orResult_right (h : List.Forall₂ RightAbout rs ms) (existsIndeterminate : Bool) :
    ∃ t, orResult existsIndeterminate rs = some t ∧ ∀ b, t = some b →
      Always b (orSeq (ms.map Meaning.runs)) ∧ (b = false → existsIndeterminate = false) := by
  induction h generalizing existsIndeterminate with
  | nil =>
    cases existsIndeterminate with
    | true => exact ⟨none, rfl, fun b hb => by cases hb⟩
    | false =>
      refine ⟨some false, rfl, fun b hb => ?_⟩
      obtain rfl := Option.some.inj hb
      exact ⟨.done false, fun _ => rfl⟩
  | @cons r m rs ms hm _ ih =>
    obtain ⟨t, rfl, hm⟩ := hm
    rw [List.map_cons, orSeq_cons]
    rcases t with _ | _ | _
    · -- what is not known does not matter where a later one succeeds
      obtain ⟨t, hr, hrest⟩ := ih true
      refine ⟨t, hr, fun b hb => ?_⟩
      obtain ⟨halways, hind⟩ := hrest b hb
      cases b with
      | true => exact ⟨.branch (.done true) halways, fun h => by cases h⟩
      | false => cases hind rfl
    · obtain ⟨t, hr, hrest⟩ := ih existsIndeterminate
      refine ⟨t, hr, fun b hb => ?_⟩
      obtain ⟨halways, hind⟩ := hrest b hb
      exact ⟨(hm false rfl).branch_of halways, hind⟩
    · refine ⟨some true, rfl, fun b hb => ?_⟩
      obtain rfl := Option.some.inj hb
      exact ⟨(hm true rfl).branch_of (.done true), fun h => by cases h⟩

theorem opResult_right (hM : M.Lawful alwaysSucceeds associative)
    (h : List.Forall₂ RightAbout rs ms) (s : ActionOp A P X) (ht : s.Takes ms) :
    RightAbout (opResult alwaysSucceeds rs s) (s.meaning M ms) := by
  cases s with
  | actionSuccess => exact .always (.done true)
  | actionFailure => exact .always (.done false)
  | sequentialAnd => exact andResult_right h
  | sequentialOr =>
    obtain ⟨t, hr, hrest⟩ := orResult_right h false
    exact ⟨t, hr, fun b hb => (hrest b hb).1⟩
  | sequentialExec => exact .always (always_execSeq _)
  | actionNot =>
    obtain ⟨a, rfl⟩ := ht
    obtain ⟨_, l, ⟨t, rfl, ha⟩, hnil, rfl⟩ := List.forall₂_cons_right_iff.mp h
    obtain rfl := List.forall₂_nil_right_iff.mp hnil
    refine ⟨t.map (!·), rfl, fun b hb => ?_⟩
    obtain ⟨q, rfl, rfl⟩ := Option.map_eq_some_iff.mp hb
    refine (ha q rfl).branch_of ?_
    cases q with
    | true => exact .done false
    | false => exact .done true
  | actionActionIf =>
    obtain ⟨c, x, y, rfl⟩ := ht
    obtain ⟨_, l, ⟨t, rfl, hc⟩, hl, rfl⟩ := List.forall₂_cons_right_iff.mp h
    obtain ⟨_, l₁, ⟨t₁, rfl, hx⟩, hl₁, rfl⟩ := List.forall₂_cons_right_iff.mp hl
    obtain ⟨_, l₂, ⟨t₂, rfl, hy⟩, hl₂, rfl⟩ := List.forall₂_cons_right_iff.mp hl₁
    obtain rfl := List.forall₂_nil_right_iff.mp hl₂
    rcases t with _ | _ | _
    · exact .indeterminate _
    · exact ⟨t₂, rfl, fun b hb => (hc false rfl).branch_of (hy b hb)⟩
    · exact ⟨t₁, rfl, fun b hb => (hc true rfl).branch_of (hx b hb)⟩
  | actionBooleanIf => exact .indeterminate _
  | actionWhile =>
    obtain ⟨a, rfl⟩ := ht
    exact .always (always_loop _)
  | booleanWhile => exact .indeterminate _
  | logicalNot => exact .indeterminate _
  | builtinAction a =>
    rw [opResult]
    split
    · rename_i ha
      exact .always (hM.succeeds a ha ms)
    · exact .indeterminate _
  | perception p => exact .indeterminate _
  | other x => exact .indeterminate _

theorem actionResults_right (hM : M.Lawful alwaysSucceeds associative)
    {f : Forest (ActionVertex A P X)} (ht : (actionLanguage M).Typed f) :
    List.Forall₂ RightAbout (actionResults alwaysSucceeds f) ((actionLanguage M).meanings f) := by
  induction f with
  | nil => exact .nil
  | cons v c n ihc ihn =>
    obtain ⟨hv, hc, hn⟩ := ht
    refine .cons ?_ (ihn hn)
    cases v with
    | other s => exact opResult_right hM (ihc hc) s hv
    | logicalAnd => exact .indeterminate _
    | logicalOr => exact .indeterminate _
    | logicalTrue => exact .indeterminate _
    | logicalFalse => exact .indeterminate _
    | argument a => exact .indeterminate _

/-- A tree that is said to succeed always does, and so for one that is said to fail; no assertion
fails on a well typed tree. -/
theorem getActionResult_right (hM : M.Lawful alwaysSucceeds associative) {v : ActionVertex A P X}
    {c : Forest (ActionVertex A P X)} (hv : v.Takes ((actionLanguage M).meanings c))
    (hc : (actionLanguage M).Typed c) :
    RightAbout (getActionResult alwaysSucceeds v c) ((actionLanguage M).meaning v c) := by
  have h : (actionLanguage M).Typed (.cons v c .nil) := ⟨hv, hc, trivial⟩
  exact (List.forall₂_cons.mp (actionResults_right hM h)).1

/-- An `and_seq` of an action that succeeds and a loop. -/
theorem getActionResult_right_loop :
    RightAbout (getActionResult id (.other .sequentialAnd)
        (added.append (.cons (.other .actionWhile) removed .nil)))
      ((actionLanguage counting).meaning (.other .sequentialAnd)
        (added.append (.cons (.other .actionWhile) removed .nil))) :=
  getActionResult_right counting_lawful
    (fun m hm => by
      rcases List.mem_cons.mp hm with rfl | hm
      · exact ⟨_, rfl⟩
      · exact ⟨_, List.mem_singleton.mp hm⟩)
    ⟨trivial, trivial, ⟨_, rfl⟩, typed_removed, trivial⟩

end OpenCog.Comboreduct
