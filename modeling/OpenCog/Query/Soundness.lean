import OpenCog.Query.Backtracking

/-! What a search reports. The groundings on top of the stacks match the clauses they are for,
and the groundings of the moment only add to them. -/
namespace OpenCog

open Backtrack (Outcome foreach foreach_rule)

namespace PatternMatchEngine

section Definitions
variable (G : AtomGraph) (cb : PatternMatchCallback) (p : Pattern)

/-- What a clause may be grounded by: another atom that matches it, or, when it is optional and
was found absent, the mark for that. -/
def Met (V : SolnMap) (r g : Handle) : Prop :=
  (g ≠ r ∧ Matches G p.boundVars V r g) ∨ (r ∈ p.optionals ∧ g = p.invalidGrounding)

/-- A solution of a search that began with the clause `first`. Where one clause at an atom is
grounded, so is each required one. -/
structure Good (first : Handle) (sol : Solution) : Prop where
  admissible : Admissible G p.boundVars cb.variableMatch sol.varSoln
  met : ∀ r g, sol.predSoln r = some g → Met G p sol.varSoln r g
  first : first ∉ p.optionals → sol.predSoln first ≠ none
  closed : ∀ a roots, (a, roots) ∈ p.rootMap → ∀ r ∈ roots, sol.predSoln r ≠ none →
    ∀ r' ∈ roots, r' ∉ p.optionals → sol.predSoln r' ≠ none

/-- Between the steps of a search that began with the clause `first`. -/
structure Sound (first : Handle) (s : Search) : Prop where
  grown : Grown G p cb.variableMatch (Search.top s.varSolutnStack) s.varGrounding
  admissible : Admissible G p.boundVars cb.variableMatch (Search.top s.varSolutnStack)
  clauses : ∀ r g, s.clauseGrounding r = some g → Met G p (Search.top s.varSolutnStack) r g
  topClauses : ∀ r g, Search.top s.predSolutnStack r = some g →
    Met G p (Search.top s.varSolutnStack) r g
  first : first ∈ s.issued
  issued : ∀ r ∈ s.issued, r ∉ p.optionals → s.currRoot ≠ some r →
    s.clauseGrounding r ≠ none ∧ Search.top s.predSolutnStack r ≠ none

/-- Every required clause that was issued has its grounding. -/
def Settled (s : Search) : Prop :=
  ∀ r ∈ s.issued, r ∉ p.optionals →
    s.clauseGrounding r ≠ none ∧ Search.top s.predSolutnStack r ≠ none

def Reported (first : Handle) (s : Search) : Prop := ∀ sol ∈ s.reported, Good G cb p first sol

end Definitions

variable {G : AtomGraph} {cb : PatternMatchCallback} {p : Pattern} {first : Handle}

theorem Met.mono {V V' : SolnMap} (hext : ∀ x ∈ p.boundVars, ∀ g, V x = some g → V' x = some g)
    {r g : Handle} (h : Met G p V r g) : Met G p V' r g := by
  rcases h with ⟨hne, hm⟩ | habsent
  · exact .inl ⟨hne, hm.mono hext⟩
  · exact .inr habsent

/-! ## What keeps a search sound -/

namespace Sound
variable {s s' : Search}

/-- After a call that returned false. -/
theorem restored (hs : Sound G cb p first s) (h : Restored s s') : Sound G cb p first s' := by
  have hvars : Search.top s'.varSolutnStack = Search.top s.varSolutnStack := by
    rw [h.kept.vars]
  have hpreds : Search.top s'.predSolutnStack = Search.top s.predSolutnStack := by
    rw [h.kept.clauses]
  refine ⟨?_, ?_, ?_, ?_, ?_, ?_⟩
  · rw [hvars, h.vars]
    exact .refl _
  · rw [hvars]
    exact hs.admissible
  · rw [hvars]
    rcases h.clauses with e | e
    · rw [e]
      exact hs.clauses
    · rw [e]
      exact hs.topClauses
  · rw [hvars, hpreds]
    exact hs.topClauses
  · rw [h.issued]
    exact hs.first
  · rw [h.issued, h.root, hpreds]
    intro r hr hreq hroot
    obtain ⟨hc, ht⟩ := hs.issued r hr hreq hroot
    rcases h.clauses with e | e
    · rw [e]
      exact ⟨hc, ht⟩
    · rw [e]
      exact ⟨ht, ht⟩

theorem admissible_now (hs : Sound G cb p first s) :
    Admissible G p.boundVars cb.variableMatch s.varGrounding :=
  hs.grown.admissible hs.admissible

theorem push (hs : Sound G cb p first s) : Sound G cb p first s.pushVars :=
  ⟨.refl _, hs.admissible_now, fun r g h => (hs.clauses r g h).mono hs.grown.kept,
    fun r g h => (hs.topClauses r g h).mono hs.grown.kept, hs.first, hs.issued⟩

/-- After a comparison that succeeded. -/
theorem compared (hs : Sound G cb p first s) (honly : s.OnlyVars s')
    (hstack : s'.varSolutnStack = s.varSolutnStack)
    (hgrown : Grown G p cb.variableMatch s.varGrounding s'.varGrounding) :
    Sound G cb p first s' := by
  rw [honly, hstack]
  exact ⟨hs.grown.trans hgrown, hs.admissible, hs.clauses, hs.topClauses, hs.first, hs.issued⟩

/-- The clause at hand is grounded, and everything is pushed. -/
theorem ground {root hsoln : Handle} (hs : Sound G cb p first s)
    (hroot : s.currRoot = some root) (hmet : Met G p s.varGrounding root hsoln) :
    Sound G cb p first (groundClause root hsoln s) ∧ Settled p (groundClause root hsoln s) := by
  have hclauses : ∀ r g, (groundClause root hsoln s).clauseGrounding r = some g →
      Met G p s.varGrounding r g := by
    intro r g h
    change Function.update s.clauseGrounding root (some hsoln) r = some g at h
    by_cases e : r = root
    · subst e
      rw [Function.update_self] at h
      exact Option.some.inj h ▸ hmet
    · rw [Function.update_of_ne e] at h
      exact (hs.clauses r g h).mono hs.grown.kept
  have hsettled : Settled p (groundClause root hsoln s) := by
    have hsome : ∀ r ∈ s.issued, r ∉ p.optionals →
        Function.update s.clauseGrounding root (some hsoln) r ≠ none := by
      intro r hr hreq
      by_cases e : r = root
      · rw [e, Function.update_self]
        exact Option.some_ne_none _
      · rw [Function.update_of_ne e]
        refine (hs.issued r hr hreq fun h => e ?_).1
        rw [hroot] at h
        exact (Option.some.inj h).symm
    exact fun r hr hreq => ⟨hsome r hr hreq, hsome r hr hreq⟩
  exact ⟨⟨.refl _, hs.admissible_now, hclauses, hclauses, hs.first,
    fun r hr hreq _ => hsettled r hr hreq⟩, hsettled⟩

theorem note (hs : Sound G cb p first s) (root : Handle) :
    Sound G cb p first (noteAccepted p root s) := by
  unfold PatternMatchEngine.noteAccepted
  split
  · exact ⟨hs.grown, hs.admissible, hs.clauses, hs.topClauses, hs.first, hs.issued⟩
  · exact hs

/-- An optional clause is left ungrounded. -/
theorem mark (hs : Sound G cb p first s) (ho : isOptional p s = true) :
    Sound G cb p first (markAbsent p s) ∧ Settled p (markAbsent p s) := by
  unfold isOptional at ho
  cases hr : s.currRoot with
  | none =>
    rw [hr] at ho
    cases ho
  | some o =>
    have hopt : o ∈ p.optionals := by simpa [hr] using ho
    have hmark : PatternMatchEngine.markAbsent p s = { s with
        clauseGrounding := Function.update s.clauseGrounding o (some p.invalidGrounding) } := by
      simp only [PatternMatchEngine.markAbsent, hr]
    rw [hmark]
    have hother : ∀ r, r ∉ p.optionals →
        Function.update s.clauseGrounding o (some p.invalidGrounding) r = s.clauseGrounding r := by
      intro r hreq
      apply Function.update_of_ne
      rintro rfl
      exact hreq hopt
    have hsettled : Settled p { s with
        clauseGrounding := Function.update s.clauseGrounding o (some p.invalidGrounding) } := by
      intro r hmem hreq
      obtain ⟨hc, ht⟩ := hs.issued r hmem hreq fun h => by
        rw [hr] at h
        exact hreq (Option.some.inj h ▸ hopt)
      refine ⟨?_, ht⟩
      change Function.update s.clauseGrounding o (some p.invalidGrounding) r ≠ none
      rwa [hother r hreq]
    refine ⟨⟨hs.grown, hs.admissible, ?_, hs.topClauses, hs.first,
      fun r hmem hreq _ => hsettled r hmem hreq⟩, hsettled⟩
    intro r g h
    change Function.update s.clauseGrounding o (some p.invalidGrounding) r = some g at h
    by_cases e : r = o
    · subst e
      rw [Function.update_self] at h
      exact .inr ⟨hopt, (Option.some.inj h).symm⟩
    · rw [Function.update_of_ne e] at h
      exact hs.clauses r g h

theorem next (hs : Sound G cb p first s) (ht : Settled p s) :
    Sound G cb p first (getNextUntriedClause p s) := by
  unfold PatternMatchEngine.getNextUntriedClause
  split
  · next pursue clause _ =>
    refine ⟨hs.grown, hs.admissible, hs.clauses, hs.topClauses,
      List.mem_cons_of_mem clause hs.first, ?_⟩
    intro r hr hreq hroot
    rcases List.mem_cons.mp hr with rfl | hr
    · exact absurd rfl hroot
    · exact ht r hr hreq
  · exact ⟨hs.grown, hs.admissible, hs.clauses, hs.topClauses, hs.first,
      fun r hr hreq _ => ht r hr hreq⟩

end Sound

theorem currRoot_of_onlyVars {s s' : Search} (h : s.OnlyVars s') : s'.currRoot = s.currRoot := by
  rw [h]

/-! ## No clause is left -/

theorem findJoin_none {solved untried : Handle → Bool} {m : RootMap}
    (h : findJoin solved untried m = none) {a : Handle} {roots : List Handle}
    (hm : (a, roots) ∈ m) {r : Handle} (hr : r ∈ roots) (hsolved : solved r = true) :
    ∀ r' ∈ roots, solved r' = true ∨ untried r' = false := by
  induction m with
  | nil => cases hm
  | cons k m ih =>
    obtain ⟨b, others⟩ := k
    unfold findJoin at h
    split at h
    · split at h
      · cases h
      · next hany =>
        rcases List.mem_cons.mp hm with e | hm
        · obtain ⟨rfl, rfl⟩ := Prod.mk.inj e
          exact absurd (List.any_eq_true.mpr ⟨r, hr, hsolved⟩) hany
        · exact ih h hm
    · next hlast =>
      rcases List.mem_cons.mp hm with e | hm
      · obtain ⟨rfl, rfl⟩ := Prod.mk.inj e
        intro r' hr'
        rw [List.getLast?_eq_none_iff, List.filter_eq_nil_iff] at hlast
        have hno := hlast r' hr'
        cases hs : solved r' with
        | true => exact .inl rfl
        | false =>
          simp only [hs, Bool.not_false, Bool.true_and] at hno
          exact .inr (Bool.not_eq_true _ ▸ hno)
      · exact ih h hm

theorem good_of_settled {s : Search} (hs : Sound G cb p first s) (ht : Settled p s)
    (hnone : nextJoin p s = none) : Good G cb p first ⟨s.clauseGrounding, s.varGrounding⟩ := by
  rw [nextJoin, Option.orElse_eq_orElse, Option.orElse_eq_or, Option.or_eq_none_iff] at hnone
  refine ⟨hs.admissible_now, fun r g h => (hs.clauses r g h).mono hs.grown.kept,
    fun hreq => (ht first hs.first hreq).1, ?_⟩
  intro a roots hmem r hr hsolved r' hr' hreq hnot
  rcases findJoin_none hnone.1 hmem hr (Option.isSome_iff_ne_none.mpr hsolved) r' hr' with h | h
  · change (s.clauseGrounding r').isSome = true at h
    rw [show s.clauseGrounding r' = none from hnot] at h
    cases h
  · simp only [Bool.and_eq_false_iff, decide_eq_false_iff_not, not_not] at h
    rcases h with h | h
    · exact (ht r' h hreq).1 hnot
    · exact hreq h

/-! ## The walk -/

theorem Reported.of_eq {s s' : Search} (h : Reported G cb p first s)
    (e : s'.reported = s.reported) : Reported G cb p first s' := by
  intro sol hsol
  rw [e] at hsol
  exact h sol hsol

theorem leaveClause_reported (r : (Search × Outcome) × Bool) :
    (leaveClause r).1.reported = r.1.1.reported := by
  obtain ⟨⟨s, o⟩, flag⟩ := r
  cases o with
  | no =>
    cases flag with
    | true => rfl
    | false => rfl
  | yes => rfl
  | crashed => rfl
  | spent => rfl

section Up
variable {up : Handle → Search → Search × Outcome}
  (hup : ∀ h s, (up h s).2 = .no → Restored s (up h s).1)
  (hrep : ∀ h s, Sound G cb p first s → Reported G cb p first s →
    Reported G cb p first (up h s).1)
include hup hrep

/-- The search for the next clause, or the report when there is none. -/
theorem solveNext_sound {s : Search} (hs : Sound G cb p first s) (ht : Settled p s)
    (hr : Reported G cb p first s) :
    Reported G cb p first (solveNext cb up (getNextUntriedClause p s)).1 ∧
      ((solveNext cb up (getNextUntriedClause p s)).2 = .no →
        Sound G cb p first (solveNext cb up (getNextUntriedClause p s)).1) := by
  have hnext := hs.next ht
  have hrnext : Reported G cb p first (getNextUntriedClause p s) :=
    hr.of_eq (getNextUntriedClause_kept s).2.2.2
  cases hroot : (getNextUntriedClause p s).currRoot with
  | none =>
    rw [solveNext_none hroot]
    have hgood : Good G cb p first ⟨(getNextUntriedClause p s).clauseGrounding,
        (getNextUntriedClause p s).varGrounding⟩ := by
      cases hjoin : nextJoin p s with
      | none =>
        obtain ⟨-, hvars, hclauses, -⟩ := getNextUntriedClause_kept (p := p) s
        rw [hvars, hclauses]
        exact good_of_settled hs ht hjoin
      | some k =>
        simp only [getNextUntriedClause, hjoin] at hroot
        cases hroot
    refine ⟨?_, fun _ => ⟨hnext.grown, hnext.admissible, hnext.clauses, hnext.topClauses,
      hnext.first, hnext.issued⟩⟩
    intro sol hsol
    rcases List.mem_append.mp hsol with hsol | hsol
    · exact hrnext sol hsol
    · exact List.mem_singleton.mp hsol ▸ hgood
  | some r =>
    have henter : Sound G cb p first (entering (getNextUntriedClause p s)) :=
      ⟨hnext.grown, hnext.admissible, hnext.clauses, hnext.topClauses, hnext.first, hnext.issued⟩
    cases hh : (getNextUntriedClause p s).currPredHandle.bind
        (getNextUntriedClause p s).varGrounding with
    | none =>
      rw [solveNext_crashed hroot hh]
      exact ⟨hrnext, fun h => by cases h⟩
    | some h =>
      rw [solveNext_some hroot hh]
      exact ⟨hrep h _ henter hrnext, fun hn => henter.restored (hup h _ hn)⟩

theorem optionalLoop_sound (n : Nat) (r : Search × Outcome) (hr : Reported G cb p first r.1)
    (hs : r.2 = .no → Sound G cb p first r.1) :
    Reported G cb p first (optionalLoop cb p up n r).1.1 := by
  induction n generalizing r with
  | zero => exact hr
  | succ n ih =>
    obtain ⟨s, o⟩ := r
    unfold optionalLoop
    split
    · next hcond =>
      split
      · exact hr
      · obtain ⟨hmark, hsettled⟩ := (hs hcond.1).mark hcond.2.2
        have hrmark : Reported G cb p first (markAbsent p s) := by
          apply Reported.of_eq hr
          unfold markAbsent
          split
          · rfl
          · rfl
        obtain ⟨hr', hs'⟩ := solveNext_sound hup hrep hmark hsettled hrmark
        exact ih _ hr' hs'
    · exact hr

theorem clauseUp_sound {root hsoln : Handle} {s : Search} (hs : Sound G cb p first s)
    (hroot : s.currRoot = some root) (hmet : Met G p s.varGrounding root hsoln)
    (hr : Reported G cb p first s) : Reported G cb p first (clauseUp cb p up root hsoln s).1 := by
  have hnote : Sound G cb p first (noteAccepted p root s) := hs.note root
  have hsame : (noteAccepted p root s).currRoot = s.currRoot ∧
      (noteAccepted p root s).varGrounding = s.varGrounding ∧
      (noteAccepted p root s).reported = s.reported := by
    unfold noteAccepted
    split
    · exact ⟨rfl, rfl, rfl⟩
    · exact ⟨rfl, rfl, rfl⟩
  have hrnote : Reported G cb p first (noteAccepted p root s) := hr.of_eq hsame.2.2
  unfold clauseUp
  split
  · exact hrnote
  · have hmet' : Met G p (noteAccepted p root s).varGrounding root hsoln := by
      rw [hsame.2.1]
      exact hmet
    obtain ⟨hground, hsettled⟩ := hnote.ground (hsame.1.trans hroot) hmet'
    obtain ⟨hr', hs'⟩ := solveNext_sound hup hrep hground hsettled hrnote
    have hloop := optionalLoop_sound hup hrep (p.cnfClauses.length + 1) _ hr' hs'
    exact hloop.of_eq (leaveClause_reported _)

theorem predUp_sound {h : Handle} {s : Search} (hs : Sound G cb p first s)
    (hr : Reported G cb p first s) : Reported G cb p first (predUp G up h s).1 ∧
      ((predUp G up h s).2 = .no →
        Sound G cb p first (predUp G up h s).1 ∧ Reported G cb p first (predUp G up h s).1) := by
  have hboth : Reported G cb p first (predUp G up h s).1 ∧
      ((predUp G up h s).2 = .no → Sound G cb p first (predUp G up h s).1) := by
    unfold predUp
    split
    · split
      · exact ⟨hr, fun h => by cases h⟩
      · next soln _ =>
        have hmoved : Sound G cb p first { s with currPredHandle := some h } :=
          ⟨hs.grown, hs.admissible, hs.clauses, hs.topClauses, hs.first, hs.issued⟩
        obtain ⟨hreported, hsound⟩ := foreach_rule
          (P := fun t => Sound G cb p first t ∧ Reported G cb p first t)
          (K := fun r => Reported G cb p first r.1)
          (fun x _ t ht => ⟨hrep x t ht.1 ht.2,
            fun hn => ⟨ht.1.restored (hup x t hn), hrep x t ht.1 ht.2⟩⟩)
          (fun t ht => ht.2) ⟨hmoved, hr⟩
        split
        · next heq =>
          rw [heq] at hreported
          exact ⟨hreported, fun h => by cases h⟩
        · next heq =>
          rw [heq] at hreported
          exact ⟨hreported, fun h => by cases h⟩
        · next heq =>
          rw [heq] at hreported hsound
          refine ⟨hreported, fun hn => ?_⟩
          obtain ⟨h₁, -⟩ := hsound hn
          exact ⟨h₁.grown, h₁.admissible, h₁.clauses, h₁.topClauses, h₁.first, h₁.issued⟩
    · exact ⟨hr, fun _ => hs⟩
  exact ⟨hboth.1, fun hn => ⟨hboth.2 hn, hboth.1⟩⟩

theorem moveUp_sound {pred hsoln : Handle} {s : Search} (hs : Sound G cb p first s)
    (hr : Reported G cb p first s) : Reported G cb p first (moveUp G up pred hsoln s).1 := by
  unfold moveUp
  dsimp only
  have hmoved : Sound G cb p first { s with
      solnHandleStack := s.currSolnHandle :: s.solnHandleStack
      currSolnHandle := some hsoln } :=
    ⟨hs.grown, hs.admissible, hs.clauses, hs.topClauses, hs.first, hs.issued⟩
  obtain ⟨hreported, -⟩ := foreach_rule
    (P := fun t => Sound G cb p first t ∧ Reported G cb p first t)
    (K := fun r => Reported G cb p first r.1)
    (fun x _ t ht => predUp_sound hup hrep ht.1 ht.2) (fun t ht => ht.2) ⟨hmoved, hr⟩
  split
  · next heq =>
    rw [heq] at hreported
    exact hreported
  · next heq =>
    rw [heq] at hreported
    exact hreported
  · next heq =>
    rw [heq] at hreported
    exact hreported

variable {restrictions : DefaultPatternMatchCB.VariableTypeMap}
  (hd : DefaultMatching G restrictions cb)
include hd

theorem doSolnUp_sound {hsoln : Handle} {s : Search} (hs : Sound G cb p first s)
    (hr : Reported G cb p first s) : Reported G cb p first (doSolnUp G cb p up hsoln s).1 := by
  unfold doSolnUp
  split
  · exact hr
  · next hroot =>
    split
    · exact hr
    · next pred _ =>
      have hframed : Framed s (treeCompare G cb p (pred + 1) pred hsoln s) :=
        framed_treeCompare _ _ _ s
      obtain ⟨honly, hstack⟩ := hframed
      have hsame : Reported G cb p first (treeCompare G cb p (pred + 1) pred hsoln s).1 := by
        apply Reported.of_eq hr
        rw [honly]
      split
      · next heq =>
        rw [heq] at hsame
        exact hsame
      · next s₁ heq =>
        rw [heq] at honly hstack hsame
        have hc := treeCompare_compared hd heq
        have hs₁ : Sound G cb p first s₁ := hs.compared honly (hstack (.inl rfl)) hc.grown
        split
        · next htop =>
          have hroot₁ : s₁.currRoot = s.currRoot := currRoot_of_onlyVars honly
          have hne : hsoln ≠ pred := by
            rintro rfl
            exact hroot (hroot₁.symm.trans htop)
          exact clauseUp_sound hup hrep hs₁ htop (.inl ⟨hne, hc.found⟩) hsame
        · exact moveUp_sound hup hrep hs₁ hsame
      · exact hsame

end Up

theorem acceptsAbsence_of_default {restrictions : DefaultPatternMatchCB.VariableTypeMap}
    (hd : DefaultMatching G restrictions cb) : AcceptsAbsence cb p := fun _ => hd.absent

/-- Whatever a call reports is good. -/
theorem solnUp_sound {restrictions : DefaultPatternMatchCB.VariableTypeMap}
    (hd : DefaultMatching G restrictions cb) (n : Nat) (hsoln : Handle) (s : Search)
    (hs : Sound G cb p first s) (hr : Reported G cb p first s) :
    Reported G cb p first (solnUp G cb p n hsoln s).1 := by
  induction n generalizing hsoln s with
  | zero => exact hr
  | succ n ih =>
    have hup := solnUp_restored (G := G) (p := p) (acceptsAbsence_of_default hd) n
    have hbody : Reported G cb p first (doSolnUp G cb p (solnUp G cb p n) hsoln s.pushVars).1 :=
      doSolnUp_sound hup ih hd hs.push hr
    unfold solnUp
    split
    · next heq =>
      rw [heq] at hbody
      exact hbody
    · next heq =>
      rw [heq] at hbody
      exact hbody
    · exact hbody

end PatternMatchEngine

end OpenCog
