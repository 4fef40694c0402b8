import OpenCog.Query.Grounding

/-! `PatternMatch::do_imply` up to the first candidate: the premise is split into required
and negated clauses, constant clauses are taken out, and `perform_search` starts at the
first required one. -/
namespace OpenCog

open Backtrack (Outcome foreach)
open PatternMatchEngine DefaultPatternMatchCB

namespace PatternMatch

variable (G : AtomGraph)

/-- `PatternMatchEngine::validate` of one clause. -/
def validateClause (vars : List Handle) : Nat → Handle → Bool
  | 0, _ => false
  | n + 1, h =>
    if G.isNode h then decide (h ∈ vars) else (G.outgoing h).any (validateClause vars n)

def validate (vars clauses : List Handle) : List Handle :=
  clauses.filter fun h => validateClause G vars (h + 1) h

/-- What `PatternMatch::match` calls the engine with, if it gets so far. -/
def matchArguments (hvarbles hclauses hnegates : Handle) :
    Option (List Handle × List Handle × List Handle) :=
  match G.atom hvarbles, G.atom hclauses with
  | some (tvarbles, .link vars), some (tclauses, .link clauses) =>
    if tvarbles ≠ LIST_LINK ∨ tclauses ≠ AND_LINK then none
    else
      match G.atom hnegates with
      | some (tnegates, .link negs) =>
        if tnegates ≠ AND_LINK then none
        else some (vars, validate G vars clauses, validate G vars negs)
      | _ => some (vars, validate G vars clauses, [])
  | _, _ => none

/-- How a call of `do_imply` comes to its end, or to the engine. -/
inductive ImplyCall where
  | undefined
  | thrown
  | matched (vars affirm negate : List Handle)
  deriving DecidableEq

/-- What `perform_search` reads before it tries a candidate: the root, the link to start
from and the candidates. It reads the first required clause and its atom. -/
def searchStart (vars clauses : List Handle) : Option (Handle × Option Handle × List Handle) :=
  clauses.head?.bind fun root => (G.typeOf root).map fun ptype =>
    match findStarter G (root + 1) root none with
    | (some start, starterPred) =>
      if vars.length ≠ 0 then (root, starterPred, G.incoming start)
      else (root, some root, G.ofType ptype)
    | (none, _) => (root, some root, G.ofType ptype)

/-- `match` has nothing to search for, or the search finds a root to start from. -/
def ImplyCall.Handled : ImplyCall → Prop
  | .undefined => True
  | .thrown => False
  | .matched vars affirm negate => affirm ++ negate = [] ∨ (searchStart G vars affirm).isSome

variable {G} {vars affirm negate cset : List Handle} {h x : Handle}

/-! ## The search -/

/-- The root is the first clause. -/
theorem searchStart_root {root : Handle} {starter : Option Handle} {candidates : List Handle}
    (h : searchStart G vars affirm = some (root, starter, candidates)) :
    ∃ rest ptype, affirm = root :: rest ∧ G.typeOf root = some ptype := by
  obtain ⟨first, hhead, h⟩ := Option.bind_eq_some_iff.mp h
  obtain ⟨rest, rfl⟩ := List.head?_eq_some_iff.mp hhead
  obtain ⟨ptype, htype, h⟩ := Option.map_eq_some_iff.mp h
  have hroot : root = first := by
    rcases hstart : findStarter G (first + 1) first none with ⟨_ | start, pred⟩
    · rw [hstart] at h
      exact (Prod.mk.inj h).1.symm
    · rw [hstart] at h
      simp only at h
      by_cases hvars : vars.length ≠ 0
      · rw [if_pos hvars] at h
        exact (Prod.mk.inj h).1.symm
      · rw [if_neg hvars] at h
        exact (Prod.mk.inj h).1.symm
  subst hroot
  exact ⟨rest, ptype, rfl, htype⟩

theorem performSearch_some (cb : PatternMatchCallback) (p : Pattern) {root : Handle}
    {starter : Option Handle} {candidates : List Handle}
    (h : searchStart G vars affirm = some (root, starter, candidates)) (s : Search) :
    performSearch G cb p vars affirm s = foreach (doCandidate G cb p root starter) candidates s := by
  obtain ⟨rest, ptype, rfl, htype⟩ := searchStart_root h
  simp only [searchStart, List.head?_cons, Option.bind_some, htype, Option.map_some,
    Option.some.injEq] at h
  unfold performSearch
  simp only [htype]
  rcases hstart : findStarter G (root + 1) root none with ⟨_ | start, pred⟩
  · rw [hstart] at h
    obtain ⟨rfl, rfl⟩ := Prod.mk.inj (Prod.mk.inj h).2
    rfl
  · rw [hstart] at h
    simp only at h ⊢
    by_cases hvars : vars.length ≠ 0
    · rw [if_pos hvars] at h ⊢
      obtain ⟨rfl, rfl⟩ := Prod.mk.inj (Prod.mk.inj h).2
      rfl
    · rw [if_neg hvars] at h ⊢
      obtain ⟨rfl, rfl⟩ := Prod.mk.inj (Prod.mk.inj h).2
      rfl

/-- A call that is handled has nothing to do, or tries candidates for a root that exists. -/
theorem runMatch_handled (cb : PatternMatchCallback) (e : Engine)
    (hh : (ImplyCall.matched vars affirm negate).Handled G) :
    (e.runMatch G cb vars affirm negate).2 = .no ∨
    ∃ root starter candidates s, (G.atom root).isSome ∧
      (e.runMatch G cb vars affirm negate).2 =
        (foreach (doCandidate G cb (e.pattern G vars affirm negate) root starter) candidates s).2 := by
  by_cases hlen : (affirm ++ negate).length = 0
  · exact .inl (by simp only [Engine.runMatch, if_pos hlen])
  · right
    rcases hh with hnil | hs
    · exact absurd (List.length_eq_zero_iff.2 hnil) hlen
    · obtain ⟨⟨root, starter, candidates⟩, hstart⟩ := Option.isSome_iff_exists.1 hs
      obtain ⟨rest, ptype, -, htype⟩ := searchStart_root hstart
      refine ⟨root, starter, candidates, { e.search with
        varGrounding := .empty
        clauseGrounding := .empty
        reported := []
        currRoot := (affirm ++ negate).getLast? }, ?_, ?_⟩
      · rw [← Option.isSome_map (f := Prod.fst)]
        exact Option.isSome_iff_exists.2 ⟨ptype, htype⟩
      · simp only [Engine.runMatch, if_neg hlen, performSearch_some _ _ hstart]

/-! ## The clauses -/

section Calls
variable {himplication hclauses implicand : Handle} {varlist : Option (List Handle)}

end Calls

end PatternMatch

end OpenCog
