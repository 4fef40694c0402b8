import OpenCog.Lib.Backtrack
import OpenCog.Query.AtomGraph

/-! The pattern match engine: an up-and-down walk with backtracking through
stacks of partial groundings. `Handle::UNDEFINED` is `none`; a null atom that is
dereferenced is a crash. Recursion is bounded by counters, and an outcome says if
one of them was spent. -/
namespace OpenCog

open Backtrack (Outcome foreach foreachPair)

abbrev SolnMap := Handle → Option Handle

def SolnMap.empty : SolnMap := fun _ => none

/-- What `solution` is called with. -/
structure Solution where
  predSoln : SolnMap
  varSoln : SolnMap

/-- `PatternMatchCallback`; true is a mismatch, except for `solution`, which is
also told what was reported before. -/
structure PatternMatchCallback where
  nodeMatch : Handle → Handle → Bool
  variableMatch : Handle → Handle → Bool
  linkMatch : Handle → Handle → Bool
  clauseMatch : Handle → Handle → Bool
  optionalClauseMatch : Option Handle → Option Handle → Bool
  solution : List Solution → Solution → Bool

/-- The clauses each atom takes part in, sorted by atom. -/
abbrev RootMap := List (Handle × List Handle)

/-- The members of the engine that a search does not change. -/
structure Pattern where
  boundVars : List Handle
  cnfClauses : List Handle
  optionals : List Handle
  rootMap : RootMap
  invalidGrounding : Handle

/-- The members that it does, and the solutions reported so far. -/
structure Search where
  currRoot : Option Handle
  currPredHandle : Option Handle
  currSolnHandle : Option Handle
  clauseAccepted : Bool
  varGrounding : SolnMap
  clauseGrounding : SolnMap
  issued : List Handle
  rootHandleStack : List (Option Handle)
  predHandleStack : List (Option Handle)
  solnHandleStack : List (Option Handle)
  predSolutnStack : List SolnMap
  varSolutnStack : List SolnMap
  issuedStack : List (List Handle)
  reported : List Solution

namespace Search

/-- `POPTOP`: the value taken is the one under the entry popped. -/
def top (stack : List SolnMap) : SolnMap := stack.head?.getD .empty

def ground (s : Search) (hp hg : Handle) : Search :=
  { s with varGrounding := Function.update s.varGrounding hp (some hg) }

def pushVars (s : Search) : Search :=
  { s with varSolutnStack := s.varGrounding :: s.varSolutnStack }

def popVars (s : Search) : Search := { s with varSolutnStack := s.varSolutnStack.tail }

def popTopVars (s : Search) : Search :=
  { s with
    varSolutnStack := s.varSolutnStack.tail
    varGrounding := top s.varSolutnStack.tail }

end Search

namespace PatternMatchEngine

variable (G : AtomGraph) (cb : PatternMatchCallback) (p : Pattern)

/-! ## Comparing trees -/

/-- A bound variable of the pattern: an earlier grounding must be the same, a new
one is for the callback to admit. -/
def compareVariable (hp hg : Handle) (s : Search) : Search × Outcome :=
  if hg ∈ p.boundVars then (s, .yes)
  else
    match s.varGrounding hp with
    | some gnd => (s, if gnd = hg then .no else .yes)
    | none =>
      if G.isNode hp && G.isNode hg && !cb.variableMatch hp hg then (s.ground hp hg, .no)
      else (s, .yes)

/-- After the members of two links have been compared. -/
def closeLinks (hp hg : Handle) : Search × Outcome → Search × Outcome
  | (s, .no) => ((s.ground hp hg).popVars, .no)
  | (s, .yes) => (s.popTopVars, .yes)
  | r => r

/-- Returns true at a mismatch. -/
def treeCompare : Nat → Handle → Handle → Search → Search × Outcome
  | 0, _, _, s => (s, .spent)
  | n + 1, hp, hg, s =>
    match G.atom hp, G.atom hg with
    | some (_, bp), some (_, bg) =>
      if hp ∈ p.boundVars then compareVariable G cb p hp hg s
      else if hp = hg ∧ s.currPredHandle ≠ some hg then (s.ground hp hg, .no)
      else
        match bp, bg with
        | .link op, .link og =>
          if cb.linkMatch hp hg then (s, .yes)
          else closeLinks hp hg (foreachPair (treeCompare n) op og s.pushVars)
        | .node _, .node _ => if cb.nodeMatch hp hg then (s, .yes) else (s.ground hp hg, .no)
        | _, _ => (s, .yes)
    | _, _ => (s, .crashed)

/-- `OutgoingTree::is_node_in_tree`. -/
def isNodeInTree : Nat → Handle → Handle → Bool
  | 0, _, _ => false
  | n + 1, tree, tgt =>
    (G.atom tree).isSome && (tree == tgt || (G.outgoing tree).any fun x => isNodeInTree n x tgt)

/-! ## The next clause -/

/-- The first atom with a solved and an open clause, and the last of the open
ones. -/
def findJoin (solved untried : Handle → Bool) : RootMap → Option (Handle × Handle)
  | [] => none
  | (pursue, roots) :: m =>
    match (roots.filter fun r => !solved r && untried r).getLast? with
    | some r => if roots.any solved then some (pursue, r) else findJoin solved untried m
    | none => findJoin solved untried m

/-- Required clauses first; then any that was not issued yet. An optional clause
that was found absent counts as solved for the first pass alone. -/
def nextJoin (s : Search) : Option (Handle × Handle) :=
  findJoin (fun r => (s.clauseGrounding r).isSome)
    (fun r => decide (r ∉ s.issued) && decide (r ∉ p.optionals)) p.rootMap <|>
  findJoin (fun r => (s.clauseGrounding r).isSome &&
      decide (s.clauseGrounding r ≠ some p.invalidGrounding))
    (fun r => decide (r ∉ s.issued)) p.rootMap

def getNextUntriedClause (s : Search) : Search :=
  match nextJoin p s with
  | some (pursue, clause) =>
    { s with currRoot := some clause, currPredHandle := some pursue, issued := clause :: s.issued }
  | none => { s with currRoot := none, currPredHandle := none }

/-! ## Moving up -/

def isOptional (s : Search) : Bool := (s.currRoot.map fun r => decide (r ∈ p.optionals)).getD false

def report (s : Search) : Search × Outcome :=
  let soln : Solution := ⟨s.clauseGrounding, s.varGrounding⟩
  ({ s with reported := s.reported ++ [soln] },
    if cb.solution s.reported soln then .yes else .no)

/-- The search for the next clause, from the atom it shares with a solved one. -/
def solveNext (up : Handle → Search → Search × Outcome) (s : Search) : Search × Outcome :=
  match s.currRoot with
  | none => report cb s
  | some _ =>
    let soln := s.currPredHandle.bind s.varGrounding
    let s := { s with clauseAccepted := false, currSolnHandle := soln }
    match soln with
    | some h => up h s
    | none => (s, .crashed)

/-- The current clause, which is optional, has no match. -/
def markAbsent (s : Search) : Search :=
  match s.currRoot with
  | some r => { s with
      clauseGrounding := Function.update s.clauseGrounding r (some p.invalidGrounding) }
  | none => s

/-- The loop over optional clauses without a match. The flag says that a callback
refused and the function was left at once. -/
def optionalLoop (up : Handle → Search → Search × Outcome) :
    Nat → Search × Outcome → (Search × Outcome) × Bool
  | 0, (s, _) => ((s, .spent), false)
  | n + 1, (s, o) =>
    if o = .no ∧ s.clauseAccepted = false ∧ isOptional p s = true then
      if cb.optionalClauseMatch s.currPredHandle none then ((s, .no), true)
      else optionalLoop up n (solveNext cb up (getNextUntriedClause p (markAbsent p s)))
    else ((s, o), false)

/-- The pushes after a clause is grounded. -/
def pushClause (s : Search) : Search :=
  { s with
    rootHandleStack := s.currRoot :: s.rootHandleStack
    predHandleStack := s.currPredHandle :: s.predHandleStack
    solnHandleStack := s.currSolnHandle :: s.solnHandleStack
    predSolutnStack := s.clauseGrounding :: s.predSolutnStack
    varSolutnStack := s.varGrounding :: s.varSolutnStack
    issuedStack := s.issued :: s.issuedStack }

def popClause (s : Search) : Search :=
  { s with
    currRoot := s.rootHandleStack.head?.join
    rootHandleStack := s.rootHandleStack.tail
    currPredHandle := s.predHandleStack.head?.join
    predHandleStack := s.predHandleStack.tail
    currSolnHandle := s.solnHandleStack.head?.join
    solnHandleStack := s.solnHandleStack.tail
    clauseGrounding := Search.top s.predSolutnStack.tail
    predSolutnStack := s.predSolutnStack.tail
    varGrounding := Search.top s.varSolutnStack.tail
    varSolutnStack := s.varSolutnStack.tail
    issued := s.issuedStack.head?.getD []
    issuedStack := s.issuedStack.tail }

/-- The flag is set before the callback is asked. -/
def noteAccepted (root : Handle) (s : Search) : Search :=
  if root ∈ p.optionals then { s with clauseAccepted := true } else s

def refused (root hsoln : Handle) : Bool :=
  if root ∈ p.optionals then cb.optionalClauseMatch (some root) (some hsoln)
  else cb.clauseMatch root hsoln

def groundClause (root hsoln : Handle) (s : Search) : Search :=
  pushClause { s with
    currSolnHandle := some hsoln
    clauseGrounding := Function.update s.clauseGrounding root (some hsoln) }

/-- The pops at the end; a refused absence has skipped them. -/
def leaveClause : (Search × Outcome) × Bool → Search × Outcome
  | ((s, .no), true) => (s, .no)
  | ((s, .no), false) => (popClause s, .no)
  | ((s, .yes), _) => (popClause s, .yes)
  | (r, _) => r

/-- The whole clause `root` is matched by `hsoln`: on to the next one. -/
def clauseUp (up : Handle → Search → Search × Outcome) (root hsoln : Handle) (s : Search) :
    Search × Outcome :=
  if refused cb p root hsoln then (noteAccepted p root s, .no)
  else
    leaveClause (optionalLoop cb p up (p.cnfClauses.length + 1)
      (solveNext cb up (getNextUntriedClause p (groundClause root hsoln (noteAccepted p root s)))))

def predUp (up : Handle → Search → Search × Outcome) (h : Handle) (s : Search) :
    Search × Outcome :=
  if (s.currRoot.map fun r => isNodeInTree G (r + 1) r h).getD false then
    match s.currSolnHandle with
    | none => (s, .crashed)
    | some soln =>
      let save := s.currPredHandle
      match foreach up (G.incoming soln) { s with currPredHandle := some h } with
      | (s, .crashed) => (s, .crashed)
      | (s, .spent) => (s, .spent)
      | (s, o) => ({ s with currPredHandle := save }, o)
  else (s, .no)

/-- Somewhere in the middle of a clause, with everything below matched. -/
def moveUp (up : Handle → Search → Search × Outcome) (pred hsoln : Handle) (s : Search) :
    Search × Outcome :=
  let s := { s with
    solnHandleStack := s.currSolnHandle :: s.solnHandleStack
    currSolnHandle := some hsoln }
  match foreach (predUp G up) (G.incoming pred) s with
  | (s, .crashed) => (s, .crashed)
  | (s, .spent) => (s, .spent)
  | (s, o) => ({ s with
      currSolnHandle := s.solnHandleStack.head?.join
      solnHandleStack := s.solnHandleStack.tail }, o)

def doSolnUp (up : Handle → Search → Search × Outcome) (hsoln : Handle) (s : Search) :
    Search × Outcome :=
  if s.currRoot = some hsoln then (s, .no)
  else
    match s.currPredHandle with
    | none => (s, .crashed)
    | some pred =>
      match treeCompare G cb p (pred + 1) pred hsoln s with
      | (s, .yes) => (s, .no)
      | (s, .no) => if s.currRoot = some pred then clauseUp cb p up pred hsoln s
        else moveUp G up pred hsoln s
      | r => r

def solnUp : Nat → Handle → Search → Search × Outcome
  | 0, _, s => (s, .spent)
  | n + 1, hsoln, s =>
    match doSolnUp G cb p (solnUp n) hsoln s.pushVars with
    | (s, .yes) => (s.popVars, .yes)
    | (s, .no) => (s.popTopVars, .no)
    | r => r

/-! ## Searches -/

/-- A walk moves up inside a clause at most as often as its handle allows, and
once to each further clause. -/
def searchBound : Nat := (p.cnfClauses.length + 1) * (p.cnfClauses.foldr max 0 + 2)

def doCandidate (doClause : Handle) (starter : Option Handle) (ah : Handle) (s : Search) :
    Search × Outcome :=
  solnUp G cb p (searchBound p) ah { s with
    varGrounding := .empty
    clauseGrounding := .empty
    issued := [doClause]
    rootHandleStack := []
    predHandleStack := []
    solnHandleStack := []
    predSolutnStack := []
    varSolutnStack := []
    issuedStack := []
    currRoot := some doClause
    currPredHandle := starter }

end PatternMatchEngine

end OpenCog
