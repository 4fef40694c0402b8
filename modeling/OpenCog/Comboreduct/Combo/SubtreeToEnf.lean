import OpenCog.Comboreduct.Combo.SubtreeOrder

/-! `subtree_to_enf` at the root of a tree: the reduction to elegant normal form. The sets of
subtrees are sorted lists, the loops run on a budget, and a node that the rule makes is none of
the nodes it has met. -/
namespace OpenCog.Comboreduct.Combo

open Util

/-- How a reduction stops without a result: out of budget, at a range that should be sorted,
at another assertion. -/
inductive Halt where
  | fuel
  | unsorted
  | assertion
  deriving DecidableEq

/-- `Keep` with what the node has become. -/
inductive Result (C : Type) where
  | delete
  | disconnect
  | keep (t : Tree C)
  deriving DecidableEq

/-- A child of the conjunction under the loop, and its place in `prev_guard_set` if it was
there. -/
structure Child (C : Type) where
  guard : Option Nat
  tree : Tree C

namespace ReduceToEnf

variable {C : Type} [LinearOrder C]

def checkSorted (l : List (Tree C)) : Except Halt Unit :=
  if isSorted subtreeCmp l then .ok () else .error .unsorted

def check (b : Bool) : Except Halt Unit := if b then .ok () else .error .assertion

def isArgument : Vertex C → Bool
  | .argument _ => true
  | _ => false

def isJunctor (v : Vertex C) : Bool := v.is .logicalAnd || v.is .logicalOr

def isComplement : Vertex C → Vertex C → Bool
  | .argument a, .argument b => a.idx = -b.idx
  | _, _ => false

/-- No two neighbours are complements. -/
def consistent : List (Tree C) → Bool
  | s :: t :: l => !isComplement s.root t.root && consistent (t :: l)
  | _ => true

def pushBackNegatedArguments (s : List (Tree C)) : List (Tree C) :=
  s.filterMap fun t =>
    match t.root with
    | .argument a => some ⟨.argument a.negate, t.below⟩
    | _ => none

def eraseSetIntersection (l m : List (Tree C)) : Except Halt (List (Tree C)) := do
  checkSorted l
  checkSorted m
  return eraseIntersection subtreeCmp l m

def eraseSetDifference (l m : List (Tree C)) : Except Halt (List (Tree C)) := do
  checkSorted l
  checkSorted m
  return eraseDifference subtreeCmp l m

/-- The first loop of `reduce`: a child equal to the one before it goes. -/
def dropEqual (t : Tree C) : List (Tree C) → List (Tree C)
  | [] => []
  | s :: l => if s = t then dropEqual t l else s :: dropEqual s l

def dropRepeated : List (Tree C) → List (Tree C)
  | [] => []
  | t :: l => t :: dropEqual t l

/-! ## The cuts -/

/-- The children of the node after the cut, and whether it is adopting. The loop goes on at
the first node that has come up. -/
def andCut : Forest (Vertex C) → Except Halt (List (Tree C) × Bool)
  | .nil => return ([], false)
  | .cons _ (.cons u d .nil) n => do
    let (l, adopted) ← (
      if u.is .logicalOr then
        (andCut d).map fun r => (r.1, r.2 || d.branches.any Branch.hasOneChild)
      else check (isArgument u) >>= fun _ => andCut (.cons u d .nil))
    let (m, adopted') ← andCut n
    return (l ++ m, adopted || adopted')
  | .cons v c n => do
    let (m, adopted) ← andCut n
    return (⟨v, c⟩ :: m, adopted)

def marked (before : List (Child C)) (child : Child C) (after : List (Child C)) :
    List (Bool × Child C) :=
  before.map (false, ·) ++ (true, child) :: after.map (false, ·)

def unmarked (l : List (Bool × Child C)) : List (Child C) × List (Child C) :=
  ((l.takeWhile (!·.1)).map (·.2), (l.dropWhile (!·.1)).tail.map (·.2))

def insertSetComplement (before : List (Child C)) (child : Child C) (after : List (Child C))
    (m : List (Tree C)) : Except Halt (List (Bool × Child C)) := do
  checkSorted ((before ++ child :: after).map Child.tree)
  checkSorted m
  return insertComplement subtreeCmp (·.2.tree) (fun t => (false, ⟨none, t⟩))
    (marked before child after) m

/-- The children before `child` have been passed. -/
def orCut : Nat → List (Child C) → List (Child C) → Except Halt (List (Child C))
  | 0, _, _ => .error .fuel
  | _ + 1, before, [] => return before
  | fuel + 1, before, child :: after =>
    match child.tree.children with
    | [only] =>
      if isJunctor child.tree.root then
        if only.root.is .logicalOr then do
          let l ← insertSetComplement before child after only.children
          let (before, after) := unmarked l
          orCut fuel before (only.children.map (⟨none, ·⟩) ++ after)
        else if isArgument only.root then orCut fuel before (⟨none, only⟩ :: after)
        else orCut fuel before after
      else orCut fuel (before ++ [child]) after
    | _ => orCut fuel (before ++ [child]) after

/-! ## Conjunctions -/

/-- `std::set_union` into the handle set: a dominant subtree stands for what equals it. -/
def handleSet (dominant : List (Tree C)) (current : List (Child C)) : List (Child C) :=
  insertAll subtreeCmp Child.tree [] (dominant.map (⟨none, ·⟩) ++ current)

/-- `child` keeps its iterator. -/
def sortAround (before : List (Child C)) (child : Child C) (after : List (Child C)) :
    List (Child C) × List (Child C) :=
  if isSorted subtreeCmp ((before ++ child :: after).map Child.tree) then (before, after)
  else unmarked (sortRange subtreeCmp (·.2.tree) (marked before child after))

/-- `res`: what all children of the node have for a child. -/
def commonChildren (t : Tree C) : Except Halt (List (Tree C)) :=
  match t.children.getLast? with
  | none => .error .assertion
  | some last =>
    t.children.dropLast.foldlM (fun res sib => eraseSetDifference res sib.children)
      (insertAll subtreeCmp id [] last.children)

def eraseFrom (res : List (Tree C)) (gchild : Tree C) : Except Halt (Tree C) := do
  return .node gchild.root (← eraseSetIntersection gchild.children res)

/-- The common children go up to the conjunction. -/
def moveUp (before : List (Child C)) (child : Child C) (after : List (Child C))
    (res : List (Tree C)) : Except Halt (Child C × List (Child C)) := do
  let l ← insertSetComplement before child after res
  let gchildren ← child.tree.children.mapM (eraseFrom res)
  let (gchildren, _) ← andCut (.ofBranches gchildren)
  let child := { child with tree := .node child.tree.root gchildren }
  return (child, l.map fun c => if c.1 then child else c.2)

/-- `handle_set.insert(tmp)`: the node that was taken out, as it is now. -/
def putBack (child : Child C) (handleSet : List (Child C)) :
    Option (Child C) → List (Child C)
  | none => handleSet
  | some tmp =>
    let tmp := if tmp.guard.isSome ∧ tmp.guard = child.guard then child else tmp
    insertSet subtreeCmp Child.tree tmp handleSet

section

variable (rec : Tree C → List (Tree C) → List (Tree C) → Except Halt (Result C))

/-- The loop over the children in one round; no result is `Delete`. -/
def childLoop (command : List (Tree C)) :
    Nat → List (Child C) → List (Child C) → List (Child C) →
      Except Halt (Option (List (Child C)))
  | 0, _, _, _ => .error .fuel
  | _ + 1, before, [], _ => return some before
  | fuel + 1, before, child :: after, handleSet =>
    if child.tree.isChildless || !isJunctor child.tree.root then
      childLoop command fuel (before ++ [child]) after handleSet
    else do
      let tmp := handleSet.find? fun c => subtreeCmp c.tree child.tree = .eq
      let handleSet := handleSet.filter fun c => subtreeCmp c.tree child.tree ≠ .eq
      match ← rec child.tree (handleSet.map Child.tree) command with
      | .delete => return none
      | .disconnect => childLoop command fuel before after handleSet
      | .keep t => do
        let child := { child with tree := t }
        let (before, after) := sortAround before child after
        let res ← commonChildren child.tree
        if res ≠ [] then do
          let (child, current) ← moveUp before child after res
          childLoop command fuel [] current (putBack child handleSet tmp)
        else do
          let (gchildren, adopted) ← andCut child.tree.below
          let child := { child with tree := .node child.tree.root gchildren }
          let handleSet := putBack child handleSet tmp
          if adopted then childLoop command fuel before (child :: after) handleSet
          else childLoop command fuel (before ++ [child]) after handleSet

/-- The rounds, until the children are those that the round has begun with. -/
def rounds (dominant command : List (Tree C)) :
    Nat → List (Tree C) → Except Halt (Result C)
  | 0, _ => .error .fuel
  | fuel + 1, children => do
    let prevGuardSet := children.zipIdx.map fun p => (⟨some p.2, p.1⟩ : Child C)
    let current :=
      if isSorted subtreeCmp children then prevGuardSet
      else sortRange subtreeCmp Child.tree prevGuardSet
    let handleSet := handleSet dominant current
    if !consistent (handleSet.map Child.tree) then return .delete
    else do
      match ← childLoop rec command fuel [] current handleSet with
      | none => return .delete
      | some current => do
        let current ← orCut fuel [] current
        if current.map Child.guard ≠ prevGuardSet.map Child.guard then
          rounds dominant command fuel (current.map Child.tree)
        else if current = [] then return .disconnect
        else return .keep (.node (.builtin .logicalAnd) (current.map Child.tree))

def reduceAnd (fuel : Nat) (children dominant command : List (Tree C)) :
    Except Halt (Result C) := do
  let children ← eraseSetIntersection children dominant
  let negated := sortRange subtreeCmp id (pushBackNegatedArguments command)
  let children ← eraseSetIntersection children negated
  if children = [] then return .disconnect
  else do
    checkSorted children
    checkSorted command
    if hasCommon subtreeCmp children command then return .delete
    else rounds rec dominant command fuel children

/-! ## Disjunctions -/

/-- The only children of the siblings are commands too. -/
def childCommand (command siblings : List (Tree C)) : List (Tree C) :=
  insertAll subtreeCmp id command
    (siblings.flatMap fun sib => if sib.hasOneChild then sib.children else [])

def reduceOr (dominant command : List (Tree C)) :
    List (Tree C) → List (Tree C) → Except Halt (Result C)
  | before, [] => return .keep (.node (.builtin .logicalOr) before)
  | before, child :: after => do
    match ← rec child dominant (childCommand command (before ++ after)) with
    | .delete =>
      if before ++ after = [] then return .delete else reduceOr dominant command before after
    | .disconnect => return .disconnect
    | .keep t => reduceOr dominant command (before ++ [t]) after

def reduceNode (fuel : Nat) (t : Tree C) (dominant command : List (Tree C)) :
    Except Halt (Result C) :=
  let children := dropRepeated t.children
  if t.root.is .logicalAnd then reduceAnd rec fuel children dominant command
  else if t.root.is .logicalOr then reduceOr rec dominant command [] children
  else return .keep (.node t.root children)

end

def reduce : Nat → Tree C → List (Tree C) → List (Tree C) → Except Halt (Result C)
  | 0, _, _, _ => .error .fuel
  | fuel + 1, t, dominant, command => reduceNode (reduce fuel) fuel t dominant command

/-- `sort_on_subtrees` with `deep`: the children of each sibling, before the siblings. -/
def sortedBelow : Forest (Vertex C) → List (Tree C)
  | .nil => []
  | .cons v c n => .node v (sortRange subtreeCmp id (sortedBelow c)) :: sortedBelow n

end ReduceToEnf

open ReduceToEnf in
def subtreeToEnf {C : Type} [LinearOrder C] (fuel : Nat) (tr : Tree C) :
    Except Halt (Tree C) :=
  if isBoolean tr.root then return tr
  else do
    match ← reduce fuel (.node tr.root (sortRange subtreeCmp id (sortedBelow tr.below))) [] [] with
    | .delete => return ⟨.builtin .logicalFalse, .nil⟩
    | .disconnect => return ⟨.builtin .logicalTrue, .nil⟩
    | .keep t => return t

end OpenCog.Comboreduct.Combo
