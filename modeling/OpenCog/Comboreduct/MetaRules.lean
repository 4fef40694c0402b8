import OpenCog.Util.Tree

/-! The rules that apply another rule at the nodes of a subtree. A rule rewrites the subtree
at an iterator: its vertex and what is below it. -/
namespace OpenCog.Comboreduct

open Util

variable {V : Type}

abbrev Rule (V : Type) := V → Forest V → Option (V × Forest V)

/-- `visits` is the test on the output type. -/
def applyAt (visits : V → Bool) (r : Rule V) : Rule V :=
  fun v c => if visits v then r v c else some (v, c)

/-- The loop of `downwards` over siblings and what is below them: the rule first, then the
children that it leaves. The fuel bounds the depth of the recursion. -/
def downwards (visits : V → Bool) (r : Rule V) : Nat → Forest V → Option (Forest V)
  | 0, _ => none
  | _ + 1, .nil => some .nil
  | fuel + 1, .cons v c n => do
    let (v, c) ← applyAt visits r v c
    let c ← downwards visits r fuel c
    let n ← downwards visits r fuel n
    pure (.cons v c n)

/-- The loop of `upwards`: the rule comes to a node after its children. -/
def upwards (r : Rule V) : Forest V → Option (Forest V)
  | .nil => some .nil
  | .cons v c n => do
    let c ← upwards r c
    let (v, c) ← r v c
    let n ← upwards r n
    pure (.cons v c n)

/-- The loop of `iterative`, until a round leaves the tree as it is. -/
def iterative [DecidableEq V] (round : Forest V → Option (Forest V)) :
    Nat → Forest V → Option (Forest V)
  | 0, _ => none
  | fuel + 1, tmp => do
    let f ← round tmp
    if f = tmp then pure f else iterative round fuel f

/-- With enough fuel the rule turns the one forest into the other. -/
def Downwards (visits : V → Bool) (r : Rule V) (f f' : Forest V) : Prop :=
  ∃ enough, ∀ fuel ≥ enough, downwards visits r fuel f = some f'

variable {visits : V → Bool} {r : Rule V} {v v' : V} {c c' c'' n n' : Forest V}

theorem Downwards.nil : Downwards visits r .nil .nil :=
  ⟨1, fun fuel h => by cases fuel with
    | zero => omega
    | succ fuel => rfl⟩

theorem Downwards.of_nil (h : Downwards visits r .nil c) : c = .nil := by
  obtain ⟨k, hk⟩ := h
  exact (Option.some.inj (hk (k + 1) (Nat.le_succ k))).symm

theorem Downwards.cons (h : applyAt visits r v c = some (v', c'))
    (hc : Downwards visits r c' c'') (hn : Downwards visits r n n') :
    Downwards visits r (.cons v c n) (.cons v' c'' n') := by
  obtain ⟨k, hk⟩ := hc
  obtain ⟨m, hm⟩ := hn
  refine ⟨max k m + 1, fun fuel hfuel => ?_⟩
  cases fuel with
  | zero => omega
  | succ fuel =>
    simp only [downwards, h, hk fuel (by omega), hm fuel (by omega), Option.bind_eq_bind,
      Option.bind_some]
    rfl

end OpenCog.Comboreduct
