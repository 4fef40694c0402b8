import OpenCog.Lib.WeightedPaths

/-! The A* search over nodes in a memory of fixed size: the free list of the allocator gives the
cell freed last, and a freed cell keeps what it held until it is given out again. The standard
heap is one whose front has the least `f`; which of several such nodes is a parameter. A loop that
follows a null pointer, or does not come to its end, has no result. -/
namespace OpenCog.Spatial

variable {σ K : Type}

/-- What a state tells the search. -/
structure UserState (σ K : Type) where
  /-- The distance estimate of a state to the goal. -/
  goalDistanceEstimate : σ → σ → K
  isGoal : σ → σ → Bool
  isSameState : σ → σ → Bool
  /-- The states passed to `AddSuccessor`, given the state of the parent, and the result. -/
  getSuccessors : σ → Option σ → List σ × Bool
  getCost : σ → σ → K

/-- An index of the memory of the allocator. -/
abbrev Address := Nat

structure Node (σ K : Type) where
  parent : Option Address
  child : Option Address
  g : K
  h : K
  f : K
  userState : σ

inductive SearchState where
  | notInitialised
  | searching
  | succeeded
  | failed
  | outOfMemory
  deriving DecidableEq

structure AStarSearch (σ K : Type) where
  nodes : Address → Node σ K
  firstFree : List Address
  openList : List Address
  closedList : List Address
  successors : List Address
  state : SearchState
  steps : Nat
  start : Address
  goal : Address
  allocateNodeCount : Int
  cancelRequest : Bool

namespace AStarSearch
variable [AddCommGroup K] [LinearOrder K] (s : AStarSearch σ K) (u : UserState σ K)

/-! ## Nodes -/

def stateAt (n : Address) : σ := (s.nodes n).userState

def setNode (n : Address) (x : Node σ K) : AStarSearch σ K :=
  { s with nodes := Function.update s.nodes n x }

/-- The new node has the values of the constructor and its state. -/
def allocateNode (x : σ) : Option (Address × AStarSearch σ K) :=
  match s.firstFree with
  | [] => none
  | n :: rest => some (n,
      { s with
        firstFree := rest
        allocateNodeCount := s.allocateNodeCount + 1
        nodes := Function.update s.nodes n ⟨none, none, 0, 0, 0, x⟩ })

def freeNode (n : Address) : AStarSearch σ K :=
  { s with allocateNodeCount := s.allocateNodeCount - 1, firstFree := n :: s.firstFree }

def freeNodes (ns : List Address) : AStarSearch σ K := ns.foldl freeNode s

/-- The constructor, with memory for `maxNodes` nodes. -/
def new (maxNodes : Nat) (memory : Address → Node σ K) : AStarSearch σ K where
  nodes := memory
  firstFree := List.range maxNodes
  openList := []
  closedList := []
  successors := []
  state := .notInitialised
  steps := 0
  start := 0
  goal := 0
  allocateNodeCount := 0
  cancelRequest := false

/-- An assertion fails where there is no memory for the two nodes. -/
def setStartAndGoalStates (start goal : σ) : Option (AStarSearch σ K) := do
  let s := { s with cancelRequest := false }
  let (a, s) ← s.allocateNode start
  let (b, s) ← s.allocateNode goal
  let h := u.goalDistanceEstimate start goal
  let s := s.setNode a { s.nodes a with g := 0, h := h, f := 0 + h, parent := none }
  some { s with
    state := .searching
    start := a
    goal := b
    openList := s.openList ++ [a]
    steps := 0 }

/-! ## One step -/

def freeAllNodes : AStarSearch σ K :=
  let s := (s.freeNodes s.openList)
  let s := { s with openList := [] }
  let s := (s.freeNodes s.closedList)
  let s := { s with closedList := [] }
  s.freeNode s.goal

/-- Nodes of the solution have a child. -/
def freeUnusedNodes : AStarSearch σ K :=
  let s := s.freeNodes (s.openList.filter fun n => (s.nodes n).child.isNone)
  let s := { s with openList := [] }
  let s := s.freeNodes (s.closedList.filter fun n => (s.nodes n).child.isNone)
  { s with closedList := [] }

/-- The loop that sets the child pointers back to the start. -/
def setChildren : Nat → AStarSearch σ K → Address → Option Address → Option (AStarSearch σ K)
  | 0, _, _, _ => none
  | _ + 1, _, _, none => none
  | fuel + 1, s, nodeChild, some nodeParent =>
    let s := s.setNode nodeParent { s.nodes nodeParent with child := some nodeChild }
    if nodeParent = s.start then some s
    else setChildren fuel s nodeParent (s.nodes nodeParent).parent

/-- Nothing is added where the memory is used up. -/
def addSuccessor (s : AStarSearch σ K) (x : σ) : AStarSearch σ K :=
  match s.allocateNode x with
  | none => s
  | some (n, s) => { s with successors := s.successors ++ [n] }

/-- The first node of a list that has the same state. -/
def findSame (ns : List Address) (x : σ) : Option Address :=
  ns.find? fun m => u.isSameState (s.stateAt m) x

/-- One turn of the loop over the successors of `n`. -/
def handleSuccessor (n : Address) (s : AStarSearch σ K) (successor : Address) :
    AStarSearch σ K :=
  let x := s.stateAt successor
  let newg := (s.nodes n).g + u.getCost (s.stateAt n) x
  let openlistResult := s.findSame u s.openList x
  let closedlistResult := s.findSame u s.closedList x
  if openlistResult.any fun m => decide ((s.nodes m).g ≤ newg) then s.freeNode successor
  else if closedlistResult.any fun m => decide ((s.nodes m).g ≤ newg) then s.freeNode successor
  else
    let h := u.goalDistanceEstimate x (s.stateAt s.goal)
    let s := s.setNode successor
      { s.nodes successor with parent := some n, g := newg, h := h, f := newg + h }
    let s := match closedlistResult with
      | none => s
      | some m => { s.freeNode m with closedList := s.closedList.erase m }
    let s := match openlistResult with
      | none => s
      | some m => { s.freeNode m with openList := s.openList.erase m }
    { s with openList := s.openList ++ [successor] }

/-- The part of a step for a node that is not the goal. -/
def expand (n : Address) : AStarSearch σ K :=
  let s := { s with successors := [] }
  let (xs, ret) := u.getSuccessors (s.stateAt n) ((s.nodes n).parent.map s.stateAt)
  let s := xs.foldl addSuccessor s
  if ret then
    let s := s.successors.foldl (handleSuccessor u n) s
    { s with closedList := s.closedList ++ [n] }
  else
    let s := s.freeNodes s.successors
    { ({ s with successors := [] }).freeAllNodes with state := .outOfMemory }

/-- The part of a step for the goal. -/
def succeed (n : Address) : Option (AStarSearch σ K) := do
  let s := s.setNode s.goal { s.nodes s.goal with parent := (s.nodes n).parent }
  let s ← if u.isSameState (s.stateAt n) (s.stateAt s.start) then some s
    else
      let s := s.freeNode n
      setChildren (s.closedList.length + 1) s s.goal (s.nodes s.goal).parent
  some { s.freeUnusedNodes with state := .succeeded }

/-- `n` is the front of the heap. -/
def searchStep (n : Address) : Option (AStarSearch σ K) :=
  if s.state = .notInitialised then none
  else if s.state = .succeeded ∨ s.state = .failed then some s
  else if s.openList = [] ∨ s.cancelRequest = true then
    some { s.freeAllNodes with state := .failed }
  else
    let s := { s with steps := s.steps + 1, openList := s.openList.erase n }
    if u.isGoal (s.stateAt n) (s.stateAt s.goal) then s.succeed u n
    else some (s.expand u n)

/-! ## The solution -/

/-- From a node on along the child pointers: `GetSolutionNext` until it returns null. -/
def followChildren (s : AStarSearch σ K) : Nat → Address → Option (List Address)
  | 0, _ => none
  | fuel + 1, n =>
    match (s.nodes n).child with
    | none => some [n]
    | some m => (followChildren s fuel m).map (n :: ·)

/-- The loop of `FreeSolutionNodes`. -/
def freeChain : Nat → AStarSearch σ K → Address → Option (AStarSearch σ K)
  | 0, _, _ => none
  | fuel + 1, s, n =>
    match (s.nodes n).child with
    | none => none
    | some m =>
      let s := s.freeNode n
      if m = s.goal then some (s.freeNode m) else freeChain fuel s m

def freeSolutionNodes (fuel : Nat) : Option (AStarSearch σ K) :=
  if (s.nodes s.start).child.isSome then freeChain fuel s s.start
  else some ((s.freeNode s.start).freeNode s.goal)

end AStarSearch

/-! ## The controller -/

namespace AStarController
open AStarSearch

variable [AddCommGroup K] [LinearOrder K] (u : UserState σ K)
  (front : AStarSearch σ K → Address)

/-- The loop of `findPath`, up to the end of the search. -/
def search : Nat → AStarSearch σ K → Option (AStarSearch σ K)
  | 0, _ => none
  | fuel + 1, s => do
    let s ← s.searchStep u (front s)
    if s.state = .searching then search fuel s else some s

/-- `findPath`; an assertion fails where nodes are left in the memory. -/
def findPath (fuel : Nat) (s : AStarSearch σ K) : Option (AStarSearch σ K) := do
  let s ← search u front fuel s
  let s ← if s.state = .succeeded then do
      let _ ← s.followChildren fuel s.start
      s.freeSolutionNodes fuel
    else some s
  if s.allocateNodeCount = 0 then some s else none

/-- `getSolutionGridPoints`, as states. -/
def getSolution (fuel : Nat) (s : AStarSearch σ K) : Option (List σ) :=
  (s.followChildren fuel s.start).map (List.map s.stateAt)

end AStarController

end OpenCog.Spatial
