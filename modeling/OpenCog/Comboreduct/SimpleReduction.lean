import OpenCog.Comboreduct.LiteralWeight

/-! The loop of the logical reduction of effort 1: `eval_logical_identities` upwards, then
`level`, `reduce_ands` and `reduce_ors` downwards, until the tree stays as it is. -/
namespace OpenCog.Comboreduct

open Util

variable {α : Type}

/-! ## The rules -/

/-- The loop over the children of an `and`: nothing is left when a false one is met. -/
def andIdentities : Forest (Vertex α) → Option (Forest (Vertex α))
  | .nil => some .nil
  | .cons .logicalOr .nil n => andIdentities n
  | .cons .logicalTrue _ n => andIdentities n
  | .cons .logicalFalse _ _ => none
  | .cons v c n => (andIdentities n).map (.cons v c)

def orIdentities : Forest (Vertex α) → Option (Forest (Vertex α))
  | .nil => some .nil
  | .cons .logicalAnd .nil n => orIdentities n
  | .cons .logicalFalse _ n => orIdentities n
  | .cons .logicalTrue _ _ => none
  | .cons v c n => (orIdentities n).map (.cons v c)

def evalLogicalIdentities : Rule (Vertex α)
  | .logicalAnd, c =>
    match andIdentities c with
    | some c => some (.logicalAnd, c)
    | none => some (.logicalFalse, .nil)
  | .logicalOr, .cons v c .nil => some (v, c)
  | .logicalOr, c =>
    match orIdentities c with
    | some c => some (.logicalOr, c)
    | none => some (.logicalTrue, .nil)
  | v, c => some (v, c)

/-- What `level` takes for associative besides `and` and `or`. -/
def isAssociative (associative : α → Bool) : Vertex α → Bool
  | .logicalAnd | .logicalOr => true
  | .other a => associative a
  | _ => false

variable [DecidableEq α]

/-- The loop over the children: one with the operator of the node is flattened and erased, and
the loop goes on at its children. -/
def levelChildren (v : Vertex α) : Forest (Vertex α) → Forest (Vertex α)
  | .nil => .nil
  | .cons u c n =>
    if u = v then levelChildren v (c.append n) else .cons u c (levelChildren v n)
termination_by f => weight (fun _ => 1) f
decreasing_by
  · simp only [weight, weight_append]
    omega
  · simp only [weight]
    omega

def level (associative : α → Bool) : Rule (Vertex α) := fun v c =>
  some (v, if isAssociative associative v then levelChildren v c else c)

def atNode (rule : Subtree α → Option (Subtree α)) : Rule (Vertex α) := fun v c =>
  (rule ⟨v, c⟩).map fun t => (t.root, t.children)

/-- The nodes of boolean output type; `boolean` says which of the other vertices are. -/
def isBooleanNode (boolean : α → Bool) : Vertex α → Bool
  | .logicalAnd | .logicalOr | .logicalTrue | .logicalFalse => true
  | .argument _ => false
  | .other a => boolean a

/-- One round of the loop. -/
def simpleRound (associative boolean : α → Bool) (fuel : Nat) (tr : Forest (Vertex α)) :
    Option (Forest (Vertex α)) := do
  let tr ← upwards evalLogicalIdentities tr
  let tr ← downwards (fun _ => true) (level associative) fuel tr
  let tr ← downwards (isBooleanNode boolean) (atNode reduceAnds) fuel tr
  downwards (isBooleanNode boolean) (atNode reduceOrs) fuel tr

/-! ## The measure -/

def nodeWeight : Vertex α → Nat
  | .logicalAnd | .logicalOr => 2
  | _ => 1

omit [DecidableEq α] in
theorem nodeWeight_pos (v : Vertex α) : 0 < nodeWeight v := by
  cases v <;> simp [nodeWeight]

omit [DecidableEq α] in
theorem lowers_constant {v x : Vertex α} {c : Forest (Vertex α)} (hx : nodeWeight x = 1)
    (hv : nodeWeight v = 2) :
    Lowers nodeWeight (.cons x .nil .nil) (.cons v c .nil) := by
  right
  simp only [Less, leafCount, weight, hx, hv]
  omega

omit [DecidableEq α] in
theorem lowers_erase {v : Vertex α} {c n : Forest (Vertex α)} :
    Lowers nodeWeight n (.cons v c n) := .inr (less_next nodeWeight_pos)

omit [DecidableEq α] in
theorem andIdentities_lowers {c c' : Forest (Vertex α)} (h : andIdentities c = some c') :
    Lowers nodeWeight c' c := by
  fun_induction andIdentities c generalizing c' with
  | case1 =>
    cases h
    exact .refl _
  | case2 n ih => exact (ih h).trans lowers_erase
  | case3 c n ih => exact (ih h).trans lowers_erase
  | case4 => cases h
  | case5 v c n _ _ _ ih =>
    obtain ⟨n', hn, rfl⟩ := Option.map_eq_some_iff.mp h
    exact (ih hn).next

omit [DecidableEq α] in
theorem orIdentities_lowers {c c' : Forest (Vertex α)} (h : orIdentities c = some c') :
    Lowers nodeWeight c' c := by
  fun_induction orIdentities c generalizing c' with
  | case1 =>
    cases h
    exact .refl _
  | case2 n ih => exact (ih h).trans lowers_erase
  | case3 c n ih => exact (ih h).trans lowers_erase
  | case4 => cases h
  | case5 v c n _ _ _ ih =>
    obtain ⟨n', hn, rfl⟩ := Option.map_eq_some_iff.mp h
    exact (ih hn).next

omit [DecidableEq α] in
theorem evalLogicalIdentities_lowers :
    (evalLogicalIdentities (α := α)).Lowers nodeWeight := by
  intro v c
  fun_cases evalLogicalIdentities v c with
  | case1 c c' h => exact ⟨_, _, rfl, (andIdentities_lowers h).below nodeWeight_pos⟩
  | case2 c h => exact ⟨_, _, rfl, lowers_constant rfl rfl⟩
  | case3 v c =>
    refine ⟨_, _, rfl, .inr ?_⟩
    simp only [Less, leafCount, weight, nodeWeight]
    omega
  | case4 c _ c' h => exact ⟨_, _, rfl, (orIdentities_lowers h).below nodeWeight_pos⟩
  | case5 c _ h => exact ⟨_, _, rfl, lowers_constant rfl rfl⟩
  | case6 v c => exact ⟨_, _, rfl, .refl _⟩

theorem levelChildren_lowers (v : Vertex α) (c : Forest (Vertex α)) :
    Lowers nodeWeight (levelChildren v c) c := by
  fun_induction levelChildren v c with
  | case1 => exact .refl _
  | case2 c n ih =>
    refine ih.trans (.inr ?_)
    have := nodeWeight_pos v
    simp only [Less, leafCount, weight, leafCount_append, weight_append]
    omega
  | case3 u c n hne ih => exact ih.next

theorem level_lowers (associative : α → Bool) : (level associative).Lowers nodeWeight := by
  intro v c
  refine ⟨_, _, rfl, ?_⟩
  split
  · exact (levelChildren_lowers v c).below nodeWeight_pos
  · exact .refl _

omit [DecidableEq α] in
/-- A rule for one connective that leaves a constant or fewer leaves. -/
theorem atNode_lowers {rule : Subtree α → Option (Subtree α)} {junct : Vertex α}
    (hjunct : nodeWeight junct = 2)
    (hrule : ∀ t, ∃ u, rule t = some u ∧ (u = t ∨ t.root = junct ∧
      (u = ⟨.logicalTrue, .nil⟩ ∨ u = ⟨.logicalFalse, .nil⟩ ∨ u.leaves < t.leaves))) :
    (atNode rule).Lowers nodeWeight := by
  intro v c
  obtain ⟨u, hu, h⟩ := hrule ⟨v, c⟩
  refine ⟨u.root, u.children, by rw [atNode, hu, Option.map_some], ?_⟩
  rcases h with rfl | ⟨hroot, h⟩
  · exact .refl _
  obtain rfl : v = junct := hroot
  rcases h with rfl | rfl | h
  · exact lowers_constant rfl hjunct
  · exact lowers_constant rfl hjunct
  · right
    left
    simp only [Subtree.leaves] at h
    simp only [leafCount]
    omega

theorem simpleRound_lowers (associative boolean : α → Bool) (f : Forest (Vertex α)) :
    ∃ f', Lowers nodeWeight f' f ∧
      ∃ enough, ∀ fuel ≥ enough, simpleRound associative boolean fuel f = some f' := by
  have hands : (atNode (α := α) reduceAnds).Lowers nodeWeight :=
    atNode_lowers rfl reduceAnds_leaves
  have hors : (atNode (α := α) reduceOrs).Lowers nodeWeight := atNode_lowers rfl reduceOrs_leaves
  obtain ⟨f₁, h₁, hlow₁⟩ := upwards_lowers nodeWeight_pos evalLogicalIdentities_lowers f
  obtain ⟨f₂, ⟨k₂, h₂⟩, hlow₂⟩ :=
    downwards_lowers nodeWeight_pos (level_lowers associative) (fun _ => true) f₁
  obtain ⟨f₃, ⟨k₃, h₃⟩, hlow₃⟩ :=
    downwards_lowers nodeWeight_pos hands (isBooleanNode boolean) f₂
  obtain ⟨f₄, ⟨k₄, h₄⟩, hlow₄⟩ :=
    downwards_lowers nodeWeight_pos hors (isBooleanNode boolean) f₃
  refine ⟨f₄, ((hlow₄.trans hlow₃).trans hlow₂).trans hlow₁,
    max k₂ (max k₃ k₄), fun fuel hfuel => ?_⟩
  simp only [simpleRound, h₁, h₂ fuel (by omega), h₃ fuel (by omega), h₄ fuel (by omega),
    Option.bind_eq_bind, Option.bind_some]

/-- The loop ends at a tree that its rules leave as it is. -/
theorem simpleReduction_terminates (associative boolean : α → Bool) (tr : Forest (Vertex α)) :
    ∃ tr' enough, ∀ fuel ≥ enough,
      simpleRound associative boolean fuel tr' = some tr' ∧
      ∀ rounds ≥ enough,
        iterative (simpleRound associative boolean fuel) rounds tr = some tr' :=
  iterative_terminates (simpleRound_lowers associative boolean) tr

end OpenCog.Comboreduct
