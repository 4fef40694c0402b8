import OpenCog.Procedure.RunningComboProcedure

/-! How the iterator of a procedure goes through its tree, in rounds of the loop in `cycle`. -/
namespace OpenCog.Procedure

open Util Outcomes Comboreduct

variable {A P X W E : Type} {M : World A P X W E} {compound : A → Bool} {loops : Bool}

/-! ## Where the iterator goes -/

/-- After a node that succeeds. -/
def after : List (Frame A P X) → Option (Position A P X)
  | [] => none
  | ⟨parent, i⟩ :: fs => match parent.root with
    | .other .sequentialAnd => match childAt parent (i + 1) with
      | some t => some ⟨t, ⟨parent, i + 1⟩ :: fs⟩
      | none => after fs
    | .other .actionWhile => some ⟨parent, fs⟩
    | .other .booleanWhile => some ⟨parent, fs⟩
    | _ => after fs

/-- After a failure: out of the sequences, up to a loop. -/
def abort : List (Frame A P X) → Option (Position A P X)
  | [] => none
  | ⟨parent, _⟩ :: fs => match parent.root with
    | .other .actionWhile => some ⟨parent, fs⟩
    | .other .booleanWhile => some ⟨parent, fs⟩
    | _ => abort fs

inductive Passable : Frame A P X → Prop
  | sequence {c : Forest (ActionVertex A P X)} {i : Nat}
      (h : ∀ t ∈ (siblings c).tail, t.root ≠ .other .actionWhile) :
      Passable ⟨⟨.other .sequentialAnd, c⟩, i⟩
  | booleanIf {c : Forest (ActionVertex A P X)} {i : Nat} (hi : i ≠ 0) :
      Passable ⟨⟨.other .actionBooleanIf, c⟩, i⟩
  | actionIf {c : Forest (ActionVertex A P X)} {i : Nat} (hi : i ≠ 0) :
      Passable ⟨⟨.other .actionActionIf, c⟩, i⟩
  | booleanWhile {c : Forest (ActionVertex A P X)} (hc : (siblings c).length = 2) :
      Passable ⟨⟨.other .booleanWhile, c⟩, 1⟩
  | actionWhile {c : Forest (ActionVertex A P X)} {i : Nat} :
      Passable ⟨⟨.other .actionWhile, c⟩, i⟩

section Moves
variable {fs : List (Frame A P X)} {s : RunningComboProcedure A P X} {planFailed : Bool}

theorem moveOn_eq (hfs : ∀ f ∈ fs, Passable f) :
    s.moveOn planFailed fs = some { s with it := after fs } := by
  induction fs with
  | nil => rfl
  | cons f fs ih =>
    have hrest := ih fun f hf => hfs f (List.mem_cons_of_mem _ hf)
    cases hfs f List.mem_cons_self with
    | @sequence c i h =>
      by_cases hi : i + 1 < (siblings c).length
      · have hchild : childAt (⟨.other .sequentialAnd, c⟩ : Node A P X) (i + 1) =
            some ((siblings c).get ⟨i + 1, hi⟩) := List.getElem?_eq_getElem hi
        simp only [RunningComboProcedure.moveOn, after, RunningComboProcedure.goto, arity,
          if_pos hi, hchild, Option.map_some]
      · have hchild : childAt (⟨.other .sequentialAnd, c⟩ : Node A P X) (i + 1) = none :=
          List.getElem?_eq_none (Nat.le_of_not_lt hi)
        simp only [RunningComboProcedure.moveOn, after, arity, hchild]
        exact (if_neg hi).trans hrest
    | booleanIf hi =>
      simp only [RunningComboProcedure.moveOn, after, if_neg hi]
      exact hrest
    | actionIf hi =>
      simp only [RunningComboProcedure.moveOn, after, if_neg hi]
      exact hrest
    | booleanWhile hc => simp [RunningComboProcedure.moveOn, after, arity, hc]
    | actionWhile => rfl

/-- From the last child of a sequence. -/
theorem after_last (c : Forest (ActionVertex A P X)) :
    after (⟨⟨.other .sequentialAnd, c⟩, (siblings c).length - 1⟩ :: fs) = after fs := by
  have hchild : childAt (⟨.other .sequentialAnd, c⟩ : Node A P X) ((siblings c).length - 1 + 1) =
      none := List.getElem?_eq_none (show (siblings c).length ≤ _ by omega)
  simp only [after, hchild]

end Moves

/-! ## Rounds -/

/-- The configuration is at this place, and this is what it takes the last action for. -/
structure At (loops : Bool) (it : Option (Position A P X)) (failing : Bool) (c : Config A P X W) :
    Prop where
  it : c.procedure.it = it
  compound : c.procedure.inCompound = false
  failing : c.isFailed = failing
  plain : loops = false → c.procedure.failed = none

def Exit (loops : Bool) (fs : List (Frame A P X)) (q : Bool) (c : Config A P X W) : Prop :=
  At loops (if q = true then after fs else abort fs) (!q) c

section Rounds
variable {c : Config A P X W} {s : RunningComboProcedure A P X} {p : Position A P X} {b : Bool}
  {k : Nat} {a : Program W} {exit : Bool → Config A P X W → Prop} {fs : List (Frame A P X)}

theorem At.round (h : At loops (some p) b c) : c.round M compound =
    RunningComboProcedure.round c.planFailed c.procedure compound M c.world p := by
  rw [Config.round, h.it, Option.bind_some, if_neg (by rw [h.compound]; decide)]

theorem step_moves
    (h : c.round M compound = some (.goesOn s) ∨ c.round M compound = some (.returns s))
    (d : Config A P X W) : (interpreter M compound).step c d ↔ d = { c with procedure := s } := by
  refine ⟨fun hs => ?_, ?_⟩
  · rcases h with h | h
    · cases hs with
      | goesOn h' =>
        cases h.symm.trans h'
        rfl
      | returns h' => cases h.symm.trans h'
      | sends h' _ => cases h.symm.trans h'
    · cases hs with
      | goesOn h' => cases h.symm.trans h'
      | returns h' =>
        cases h.symm.trans h'
        rfl
      | sends h' _ => cases h.symm.trans h'
  · rintro rfl
    rcases h with h | h
    · exact .goesOn h
    · exact .returns h

theorem passes_move
    (h : c.round M compound = some (.goesOn s) ∨ c.round M compound = some (.returns s))
    (hp : (interpreter M compound).Passes k { c with procedure := s } a exit) :
    (interpreter M compound).Passes (k + 1) c a exit := by
  refine Machine.Passes.move (.inr ?_) (step_moves h) rfl hp
  rcases h with h | h
  · rw [h]
    rfl
  · rw [h]
    rfl

theorem passes_sends {plan : List (Node A P X)} (hc : c.procedure.it ≠ none)
    (h : c.round M compound = some (.sends plan s)) (hexit : ∀ q w, exit q ⟨s, w, !q⟩) :
    (interpreter M compound).Passes 1 c (andSeq (plan.map (Subtree.action M))) exit := by
  refine Machine.Passes.act (.inr (by rw [h]; rfl)) hc (fun d hs => ?_) fun q w hplan => ?_
  · cases hs with
    | goesOn h' => cases h.symm.trans h'
    | returns h' => cases h.symm.trans h'
    | sends h' hplan =>
      cases h.symm.trans h'
      exact ⟨_, hplan, hexit _ _⟩
  · exact ⟨_, .sends h hplan, hexit q w, rfl⟩

/-- The node is looked at unless it is in a sequence that is left. -/
theorem round_visit (hroot : p.node.root ≠ .other .actionWhile)
    (hin : s.isFailed b = true → ∀ f ∈ p.frames.head?, f.parent.root ≠ .other .sequentialAnd)
    (w : W) : RunningComboProcedure.round b s compound M w p =
      RunningComboProcedure.visit b s compound M w p := by
  unfold RunningComboProcedure.round
  split
  · exact absurd (by assumption) hroot
  · split
    · rename_i hframes
      rw [if_neg]
      intro hfail
      exact hin hfail _ (by rw [hframes]; rfl) rfl
    · rfl

theorem round_leaves {d : Forest (ActionVertex A P X)} {i : Nat}
    (hroot : p.node.root ≠ .other .actionWhile) (hfail : s.isFailed b = true)
    (hframes : p.frames = ⟨⟨.other .sequentialAnd, d⟩, i⟩ :: fs) (hfs : ∀ f ∈ fs, Passable f)
    (hd : ∀ t ∈ (siblings d).tail, t.root ≠ .other .actionWhile) (w : W) :
    RunningComboProcedure.round b s compound M w p = some (.goesOn { s with it := after fs }) := by
  have hmove := @moveOn_eq _ _ _ (⟨⟨.other .sequentialAnd, d⟩, (siblings d).length - 1⟩ :: fs) s b
    (List.forall_mem_cons.mpr ⟨.sequence hd, hfs⟩)
  rw [after_last] at hmove
  unfold RunningComboProcedure.round
  split
  · exact absurd (by assumption) hroot
  · simp only [hframes, hfail, if_true, hmove, Option.map_some]

end Rounds

section Exits
variable {c : Config A P X W} {k : Nat} {a : Program W} {fs : List (Frame A P X)}

/-- A failure goes up to the loop that it is in, or to the end. -/
theorem passes_abort {exit : Bool → Config A P X W → Prop} (hfs : ∀ f ∈ fs, Passable f)
    (hexit : ∀ d, At loops (abort fs) true d → exit false d) (hc : At loops (after fs) true c) :
    (interpreter M compound).Passes 0 c (done false) exit := by
  induction fs generalizing c with
  | nil => exact .here (hexit c hc)
  | cons f fs ih =>
    have hrest : ∀ f ∈ fs, Passable f := fun f hf => hfs f (List.mem_cons_of_mem _ hf)
    cases hfs f List.mem_cons_self with
    | @sequence d i htail =>
      cases ht : childAt (⟨.other .sequentialAnd, d⟩ : Node A P X) (i + 1) with
      | none =>
        simp only [after, ht] at hc
        exact ih hrest hexit hc
      | some t =>
        simp only [after, ht] at hc
        have hroot : t.root ≠ .other .actionWhile := htail t (List.mem_iff_getElem?.mpr
          ⟨i, by rw [List.getElem?_tail]; exact ht⟩)
        have hround := @round_leaves _ _ _ _ _ M compound c.procedure ⟨t, ⟨⟨_, d⟩, i + 1⟩ :: fs⟩
          c.planFailed fs d (i + 1) hroot hc.failing rfl hrest htail c.world
        refine (passes_move (.inl (hc.round.trans hround)) (ih hrest hexit ?_)).le (Nat.zero_le 1)
        exact ⟨rfl, hc.compound, hc.failing, hc.plain⟩
    | booleanIf hi => exact ih hrest hexit hc
    | actionIf hi => exact ih hrest hexit hc
    | booleanWhile hlen => exact .here (hexit c hc)
    | actionWhile => exact .here (hexit c hc)

/-- An action that has been sent, with the iterator already at what comes after it. -/
theorem passes_after (hfs : ∀ f ∈ fs, Passable f)
    (h : (interpreter M compound).Passes k c a fun q => At loops (after fs) (!q)) :
    (interpreter M compound).Passes k c a (Exit loops fs) := by
  rw [← branch_self a]
  refine h.branch fun q d hd => ?_
  cases q with
  | true => exact .here hd
  | false => exact passes_abort hfs (fun _ h => h) hd

end Exits

end OpenCog.Procedure
