import OpenCog.Query.DefaultPatternMatchCB
import OpenCog.Query.Restoring

/-! The calls of `soln_up` within a search. Each is made while the clause groundings are those
on top of their stack, but for clauses that were found absent since the last push. -/
namespace OpenCog

open Backtrack (Outcome foreach foreach_congr Calls)

/-! ## Valid groundings -/

/-- The same clauses are grounded by the same atoms. A clause that was found absent is not
grounded. -/
def SameValid (p : Pattern) (c d : SolnMap) : Prop :=
  ∀ r g, g ≠ p.invalidGrounding → (c r = some g ↔ d r = some g)

theorem SameValid.refl (p : Pattern) (c : SolnMap) : SameValid p c c := fun _ _ _ => Iff.rfl

theorem SameValid.trans {p : Pattern} {c d e : SolnMap} (h : SameValid p c d)
    (k : SameValid p d e) : SameValid p c e :=
  fun r g hg => (h r g hg).trans (k r g hg)

theorem SameValid.symm {p : Pattern} {c d : SolnMap} (h : SameValid p c d) : SameValid p d c :=
  fun r g hg => (h r g hg).symm

namespace PatternMatchEngine

variable {G : AtomGraph} {cb : PatternMatchCallback} {p : Pattern}

/-- The clause groundings are the ones on top of the stack. -/
def Consistent (p : Pattern) (s : Search) : Prop :=
  SameValid p s.clauseGrounding (Search.top s.predSolutnStack)

/-- The current clause, if there is one, has no grounding yet. -/
def Open (p : Pattern) (s : Search) : Prop :=
  ∀ r, s.currRoot = some r → ∀ g, g ≠ p.invalidGrounding → s.clauseGrounding r ≠ some g

theorem Balanced.sameValid {s s' : Search} (h : Balanced s s') (hs : Consistent p s) :
    SameValid p s'.clauseGrounding s.clauseGrounding := by
  rcases h.clauses with e | e
  · rw [e]
    exact .refl p _
  · rw [e]
    exact hs.symm

theorem Consistent.balanced {s s' : Search} (hs : Consistent p s) (h : Balanced s s') :
    Consistent p s' := by
  have hvalid := h.sameValid hs
  unfold Consistent
  rw [h.kept.clauses]
  exact hvalid.trans hs

theorem Open.balanced {s s' : Search} (ho : Open p s) (hs : Consistent p s) (h : Balanced s s') :
    Open p s' := by
  intro r hr g hg e
  rw [h.root] at hr
  exact ho r hr g hg ((h.sameValid hs r g hg).mp e)

theorem Consistent.onlyVars {s s' : Search} (hs : Consistent p s) (h : s.OnlyVars s') :
    Consistent p s' := by
  rw [h]
  exact hs

/-! ## The next clause -/

theorem findJoin_some {solved untried : Handle → Bool} {m : RootMap} {pursue r : Handle}
    (h : findJoin solved untried m = some (pursue, r)) : solved r = false := by
  induction m with
  | nil => cases h
  | cons k m ih =>
    obtain ⟨x, roots⟩ := k
    unfold findJoin at h
    split at h
    · next u hu =>
      split at h
      · obtain ⟨-, rfl⟩ := Prod.mk.inj (Option.some.inj h)
        have hmem := List.mem_of_getLast? hu
        rw [List.mem_filter, Bool.and_eq_true, Bool.not_eq_true'] at hmem
        exact hmem.2.1
      · exact ih h
    · exact ih h

theorem open_getNextUntriedClause (s : Search) : Open p (getNextUntriedClause p s) := by
  unfold getNextUntriedClause
  split
  · next pursue clause hjoin =>
    intro r hr g hg e
    obtain rfl := Option.some.inj hr
    change s.clauseGrounding clause = some g at e
    rw [nextJoin, Option.orElse_eq_orElse, Option.orElse_eq_or, Option.or_eq_some_iff] at hjoin
    rcases hjoin with h | ⟨-, h⟩
    · have hsolved := findJoin_some h
      rw [e] at hsolved
      cases hsolved
    · have hsolved := findJoin_some h
      simp [e, hg] at hsolved
  · intro r hr
    cases hr

theorem Consistent.getNextUntriedClause {s : Search} (hs : Consistent p s) :
    Consistent p (getNextUntriedClause p s) := by
  obtain ⟨hkept, -, hclauses, -⟩ := getNextUntriedClause_kept (p := p) s
  unfold Consistent
  rw [hclauses, hkept.clauses]
  exact hs

theorem Consistent.markAbsent {s : Search} (hs : Consistent p s) (ho : Open p s) :
    Consistent p (markAbsent p s) := by
  unfold Consistent PatternMatchEngine.markAbsent
  split
  · next r hr =>
    intro x g hg
    dsimp only
    by_cases e : x = r
    · subst e
      rw [Function.update_self]
      constructor
      · intro h
        exact absurd (Option.some.inj h).symm hg
      · intro h
        exact absurd ((hs x g hg).mpr h) (ho x hr g hg)
    · rw [Function.update_of_ne e]
      exact hs x g hg
  · exact hs

/-! ## Where the calls are made -/

section Up
variable {up up' : Handle → Search → Search × Outcome}
  (hup : ∀ h s, (up h s).2 = .no → Restored s (up h s).1)
  (heq : ∀ h s, Consistent p s → up' h s = up h s)
include heq

theorem solveNext_congr {s : Search} (hs : Consistent p s) :
    solveNext cb up' s = solveNext cb up s := by
  cases hr : s.currRoot with
  | none => rw [solveNext_none hr, solveNext_none hr]
  | some r =>
    cases hh : s.currPredHandle.bind s.varGrounding with
    | none => rw [solveNext_crashed hr hh, solveNext_crashed hr hh]
    | some h =>
      rw [solveNext_some hr hh, solveNext_some hr hh]
      exact heq h (entering s) hs

include hup

omit heq in
/-- After a search for the next clause that finds nothing, the clause is still open. -/
theorem solveNext_open {s : Search} (hs : Consistent p s) (ho : Open p s)
    (hn : (solveNext cb up s).2 = .no) :
    Consistent p (solveNext cb up s).1 ∧ Open p (solveNext cb up s).1 := by
  cases hr : s.currRoot with
  | none =>
    rw [solveNext_none hr]
    refine ⟨hs, fun r hr' => ?_⟩
    cases hr.symm.trans hr'
  | some r =>
    cases hh : s.currPredHandle.bind s.varGrounding with
    | none =>
      rw [solveNext_crashed hr hh] at hn
      cases hn
    | some h =>
      rw [solveNext_some hr hh] at hn ⊢
      have hs' : Consistent p (entering s) := hs
      have ho' : Open p (entering s) := ho
      have hb : Balanced (entering s) (up h (entering s)).1 := (hup h _ hn).toBalanced
      exact ⟨hs'.balanced hb, ho'.balanced hs' hb⟩

theorem optionalLoop_congr (n : Nat) (r : Search × Outcome)
    (hr : r.2 = .no → Consistent p r.1 ∧ Open p r.1) :
    optionalLoop cb p up' n r = optionalLoop cb p up n r := by
  induction n generalizing r with
  | zero => rfl
  | succ n ih =>
    obtain ⟨s, o⟩ := r
    unfold optionalLoop
    split
    · next hcond =>
      split
      · rfl
      · obtain ⟨hs, ho⟩ := hr hcond.1
        have hnext := (hs.markAbsent ho).getNextUntriedClause
        rw [solveNext_congr heq hnext]
        apply ih
        exact solveNext_open hup hnext (open_getNextUntriedClause _)
    · rfl

theorem clauseUp_congr {root hsoln : Handle} {s : Search} :
    clauseUp cb p up' root hsoln s = clauseUp cb p up root hsoln s := by
  unfold clauseUp
  split
  · rfl
  · have hpushed : Consistent p (groundClause root hsoln (noteAccepted p root s)) := .refl p _
    have hnext := hpushed.getNextUntriedClause
    rw [solveNext_congr heq hnext, optionalLoop_congr hup heq]
    exact solveNext_open hup hnext (open_getNextUntriedClause _)

theorem predUp_congr {h : Handle} {s : Search} (hs : Consistent p s) :
    predUp G up' h s = predUp G up h s := by
  unfold predUp
  split
  · split
    · rfl
    · next soln _ =>
      have hloop : foreach up' (G.incoming soln) { s with currPredHandle := some h } =
          foreach up (G.incoming soln) { s with currPredHandle := some h } := by
        apply foreach_congr (P := Consistent p)
        · exact fun x _ t ht => ⟨heq x t ht, fun hn => ht.balanced (hup x t hn).toBalanced⟩
        · exact hs
      rw [hloop]
  · rfl

theorem moveUp_congr {pred hsoln : Handle} {s : Search} (hs : Consistent p s) :
    moveUp G up' pred hsoln s = moveUp G up pred hsoln s := by
  unfold moveUp
  dsimp only
  rw [foreach_congr (P := Consistent p) (fun x _ t ht => ⟨predUp_congr hup heq ht,
    fun hn => ht.balanced (predUp_balanced hup (Prod.ext rfl hn))⟩)]
  exact hs

theorem doSolnUp_congr {hsoln : Handle} {s : Search} (hs : Consistent p s) :
    doSolnUp G cb p up' hsoln s = doSolnUp G cb p up hsoln s := by
  unfold doSolnUp
  split
  · rfl
  · split
    · rfl
    · next pred _ =>
      have honly : s.OnlyVars (treeCompare G cb p (pred + 1) pred hsoln s).1 :=
        (framed_treeCompare _ _ _ s).1
      split
      · rfl
      · next s₁ hr =>
        rw [hr] at honly
        rw [clauseUp_congr hup heq, moveUp_congr hup heq (hs.onlyVars honly)]
      · rfl

end Up

/-! ## The calls of a search -/

/-- The state in which `do_candidate` calls `soln_up`. -/
def starting (doClause : Handle) (starter : Option Handle) (s : Search) : Search :=
  { s with
    varGrounding := .empty
    clauseGrounding := .empty
    issued := [doClause]
    rootHandleStack := []
    predHandleStack := []
    solnHandleStack := []
    predSolutnStack := []
    varSolutnStack := []
    issuedStack := []
    currRoot := some doClause
    currPredHandle := starter }

theorem doCandidate_eq (doClause : Handle) (starter : Option Handle) (ah : Handle) (s : Search) :
    doCandidate G cb p doClause starter ah s =
      solnUp G cb p (searchBound p) ah (starting doClause starter s) := rfl

/-- The calls of `soln_up` that `do_candidate` leads to, at every depth of the recursion. -/
inductive Entered (G : AtomGraph) (cb : PatternMatchCallback) (p : Pattern) :
    Nat → Handle → Search → Prop
  | candidate (n : Nat) (doClause : Handle) (starter : Option Handle) (ah : Handle) (s : Search) :
      Entered G cb p n ah (starting doClause starter s)
  | inner {n : Nat} {h h' : Handle} {s s' : Search} : Entered G cb p (n + 1) h s →
      Calls (fun up => doSolnUp G cb p up h s.pushVars) (solnUp G cb p n) h' s' →
      Entered G cb p n h' s'

theorem Entered.consistent (habsent : AcceptsAbsence cb p) {n : Nat} {h : Handle} {s : Search}
    (he : Entered G cb p n h s) : Consistent p s := by
  induction he with
  | candidate n doClause starter ah s => exact .refl p _
  | @inner n h h' s s' _ hcall ih =>
    apply hcall.holds
    intro up' heq
    exact doSolnUp_congr (solnUp_restored habsent n) heq ih

/-- What a call that returns false is to leave behind. -/
structure Backtracked (p : Pattern) (s s' : Search) : Prop where
  kept : StacksKept s s'
  root : s'.currRoot = s.currRoot
  pred : s'.currPredHandle = s.currPredHandle
  issued : s'.issued = s.issued
  valid : SameValid p s'.clauseGrounding s.clauseGrounding

/-- With a callback that accepts the absence of optional clauses, each call of a search that
returns false restores the state. The groundings of clauses are the very same if none was found
absent since the last push. -/
theorem backtracking_restores (habsent : AcceptsAbsence cb p) {n : Nat} {h : Handle} {s : Search}
    (he : Entered G cb p n h s) (hn : (solnUp G cb p n h s).2 = .no) :
    Backtracked p s (solnUp G cb p n h s).1 ∧
      (s.clauseGrounding = Search.top s.predSolutnStack →
        (solnUp G cb p n h s).1.clauseGrounding = s.clauseGrounding) := by
  have hr := solnUp_restored habsent n h s hn
  refine ⟨⟨hr.kept, hr.root, hr.pred, hr.issued, hr.sameValid (he.consistent habsent)⟩, ?_⟩
  intro htop
  rcases hr.clauses with e | e
  · exact e
  · exact e.trans htop.symm

/-! ## An absent clause -/

/-- `c` is in a list with `a`, and in none with `b`: the lists of `$x` with `a` and with `b` are
the atoms 5 and 6, the list of `c` with `a` is 7. -/
def oneList : AtomGraph :=
  AtomGraph.ofList
    [(VARIABLE_NODE, .node "$x"), (CONCEPT_NODE, .node "a"), (CONCEPT_NODE, .node "b"),
      (CONCEPT_NODE, .node "c"), (LIST_LINK, .link [1, 2]), (LIST_LINK, .link [1, 3]),
      (LIST_LINK, .link [4, 2])]
    (by decide) (by decide)

/-- `$x` is in a list with `a`, and optionally in one with `b`. -/
def optionalList : Pattern := (Engine.new 8).pattern oneList [1] [5] [6]

def keepLooking : PatternMatchCallback :=
  DefaultPatternMatchCB.callback oneList (fun _ => none) fun _ _ => false

/-- An optional clause has to have a match. -/
def rejecting : PatternMatchCallback :=
  { keepLooking with optionalClauseMatch := fun _ soln => soln.isNone }

/-- The search for `$x` from the list of `c` with `a`. -/
def fromList : Search := starting 5 (some 5) (Engine.new 8).search

theorem oneList_backtracked :
    Backtracked optionalList fromList (solnUp oneList keepLooking optionalList 20 7 fromList).1 ∧
      (fromList.clauseGrounding = Search.top fromList.predSolutnStack →
        (solnUp oneList keepLooking optionalList 20 7 fromList).1.clauseGrounding =
          fromList.clauseGrounding) :=
  backtracking_restores (fun _ _ => rfl) (.candidate 20 5 (some 5) 7 (Engine.new 8).search)
    (by decide +kernel)

/-- The early return for a refused absence skips the pops. -/
theorem rejected_absence_skips_pops :
    ¬ ∀ (G : AtomGraph) (cb : PatternMatchCallback) (p : Pattern) (n : Nat) (h : Handle)
      (s : Search), Entered G cb p n h s → (solnUp G cb p n h s).2 = .no →
        Backtracked p s (solnUp G cb p n h s).1 := by
  intro hall
  have hno : (solnUp oneList rejecting optionalList 20 7 fromList).2 = .no := by decide +kernel
  have hroots : (solnUp oneList rejecting optionalList 20 7 fromList).1.rootHandleStack = [some 5] := by
    decide +kernel
  have hback := hall oneList rejecting optionalList 20 7 fromList
    (.candidate 20 5 (some 5) 7 (Engine.new 8).search) hno
  have hkept := hroots.symm.trans hback.kept.roots
  cases hkept

end PatternMatchEngine

end OpenCog
