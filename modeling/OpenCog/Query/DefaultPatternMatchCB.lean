import OpenCog.Query.PatternMatchEngine

/-! The default callback, which compares nodes for identity and links by type and
arity, and the search it performs; and `match`, which sets the pattern up. -/
namespace OpenCog

open Backtrack (Outcome foreach)

namespace DefaultPatternMatchCB

variable (G : AtomGraph)

/-- The types allowed for the groundings of some of the variables. -/
abbrev VariableTypeMap := Handle → Option (List TypeCode)

def nodeMatch (npat nsoln : Handle) : Bool := decide (npat ≠ nsoln)

def variableMatch (restrictions : VariableTypeMap) (npat nsoln : Handle) : Bool :=
  if G.typeOf npat ≠ some VARIABLE_NODE then false
  else if G.typeOf nsoln = some VARIABLE_NODE then true
  else
    match restrictions npat with
    | none => false
    | some types => !types.any fun t => G.typeOf nsoln == some t

/-- `getArity` is a 16-bit number. -/
def arity (h : Handle) : Nat := (G.outgoing h).length % 65536

def linkMatch (lpat lsoln : Handle) : Bool :=
  if lpat = lsoln then false
  else if arity G lpat ≠ arity G lsoln then true
  else decide (G.typeOf lpat ≠ G.typeOf lsoln)

/-- The class with the defaults it inherits; `solution` is left to the derived
class. -/
def callback (restrictions : VariableTypeMap) (solution : List Solution → Solution → Bool) :
    PatternMatchCallback where
  nodeMatch := nodeMatch
  variableMatch := variableMatch G restrictions
  linkMatch := linkMatch G
  clauseMatch _ _ := false
  optionalClauseMatch _ _ := false
  solution := solution

/-- The first node that is no `VariableNode`, and the link entered last. -/
def findStarter : Nat → Handle → Option Handle → Option Handle × Option Handle
  | 0, _, starterPred => (none, starterPred)
  | n + 1, h, starterPred =>
    if G.isLink h then
      (G.outgoing h).foldl (fun r hout => if r.1.isSome then r else findStarter n hout r.2)
        (none, some h)
    else if G.typeOf h = some VARIABLE_NODE then (none, starterPred)
    else (some h, starterPred)

end DefaultPatternMatchCB

namespace PatternMatchEngine

variable (G : AtomGraph) (cb : PatternMatchCallback)

/-- `DefaultPatternMatchCB::perform_search`. The member `starter_pred` starts out
undefined; a missing first clause is read all the same. -/
def performSearch (p : Pattern) (vars clauses : List Handle) (s : Search) : Search × Outcome :=
  match clauses with
  | [] => (s, .crashed)
  | root :: _ =>
    match G.typeOf root with
    | none => (s, .crashed)
    | some ptype =>
      match DefaultPatternMatchCB.findStarter G (root + 1) root none with
      | (some start, starterPred) =>
        if vars.length ≠ 0 then foreach (doCandidate G cb p root starterPred) (G.incoming start) s
        else foreach (doCandidate G cb p root (some root)) (G.ofType ptype) s
      | (none, _) => foreach (doCandidate G cb p root (some root)) (G.ofType ptype) s

/-! ## `match` -/

/-- `root_map[h]->push_back(root)`. -/
def pushRoot (h root : Handle) : RootMap → RootMap
  | [] => [(h, [root])]
  | (k, roots) :: m =>
    if h < k then (h, [root]) :: (k, roots) :: m
    else if h = k then (k, roots ++ [root]) :: m
    else (k, roots) :: pushRoot h root m

def noteRoot (root : Handle) : Nat → Handle → RootMap → RootMap
  | 0, _, m => m
  | n + 1, h, m => (G.outgoing h).foldl (fun m x => noteRoot root n x m) (pushRoot h root m)

/-- The engine between searches. -/
structure Engine where
  boundVars : List Handle
  optionals : List Handle
  invalidGrounding : Handle
  search : Search

/-- A freshly constructed engine, after `set_atomspace`. -/
def Engine.new (invalidGrounding : Handle) : Engine where
  boundVars := []
  optionals := []
  invalidGrounding := invalidGrounding
  search :=
    { currRoot := none, currPredHandle := none, currSolnHandle := none, clauseAccepted := false,
      varGrounding := .empty, clauseGrounding := .empty, issued := [], rootHandleStack := [],
      predHandleStack := [], solnHandleStack := [], predSolutnStack := [], varSolutnStack := [],
      issuedStack := [], reported := [] }

/-- The pattern `match` sets up: variables and negations are inserted into the
sets of the engine, clauses and root map are made anew. -/
def Engine.pattern (e : Engine) (vars clauses negations : List Handle) : Pattern where
  boundVars := e.boundVars ++ vars
  cnfClauses := clauses ++ negations
  optionals := e.optionals ++ negations
  rootMap := (clauses ++ negations).foldl (fun m r => noteRoot G r (r + 1) r m) []
  invalidGrounding := e.invalidGrounding

/-- One call of `match`, and the solutions it reports. -/
def Engine.runMatch (e : Engine) (vars clauses negations : List Handle) : Engine × Outcome :=
  let p := e.pattern G vars clauses negations
  let s := { e.search with varGrounding := .empty, clauseGrounding := .empty, reported := [] }
  let (s, o) := if (clauses ++ negations).length = 0 then (s, .no)
    else performSearch G cb p vars clauses
      { s with currRoot := (clauses ++ negations).getLast? }
  ({ e with boundVars := p.boundVars, optionals := p.optionals, search := s }, o)

def Engine.solutions (e : Engine) : List Solution := e.search.reported

end PatternMatchEngine

end OpenCog
