import OpenCog.Query.TreeCompare

/-! Backtracking: a walk that returns false leaves the stacks, the current clause
and the issued clauses as they were, and takes its groundings from the tops of the
stacks. -/
namespace OpenCog

open Backtrack (Outcome foreach foreach_cons foreach_rule)

namespace PatternMatchEngine

variable {G : AtomGraph} {cb : PatternMatchCallback} {p : Pattern}

/-- All stacks are the same. -/
structure StacksKept (s s' : Search) : Prop where
  roots : s'.rootHandleStack = s.rootHandleStack
  preds : s'.predHandleStack = s.predHandleStack
  solns : s'.solnHandleStack = s.solnHandleStack
  clauses : s'.predSolutnStack = s.predSolutnStack
  vars : s'.varSolutnStack = s.varSolutnStack
  issueds : s'.issuedStack = s.issuedStack

theorem StacksKept.refl (s : Search) : StacksKept s s := ⟨rfl, rfl, rfl, rfl, rfl, rfl⟩

theorem StacksKept.trans {s s₁ s₂ : Search} (h₁ : StacksKept s s₁) (h₂ : StacksKept s₁ s₂) :
    StacksKept s s₂ :=
  ⟨h₂.roots.trans h₁.roots, h₂.preds.trans h₁.preds, h₂.solns.trans h₁.solns,
    h₂.clauses.trans h₁.clauses, h₂.vars.trans h₁.vars, h₂.issueds.trans h₁.issueds⟩

/-- What the body of a call that returns false leaves behind. The clause groundings may have
been taken from their stack. -/
structure Balanced (s s' : Search) : Prop where
  kept : StacksKept s s'
  root : s'.currRoot = s.currRoot
  pred : s'.currPredHandle = s.currPredHandle
  issued : s'.issued = s.issued
  clauses : s'.clauseGrounding = s.clauseGrounding ∨
    s'.clauseGrounding = Search.top s.predSolutnStack
  soln : s.currSolnHandle.isSome → s'.currSolnHandle.isSome

/-- What the call leaves behind: the variable groundings come from their stack. -/
structure Restored (s s' : Search) : Prop extends Balanced s s' where
  vars : s'.varGrounding = Search.top s.varSolutnStack

theorem Balanced.refl (s : Search) : Balanced s s := ⟨.refl s, rfl, rfl, rfl, .inl rfl, id⟩

theorem Balanced.trans {s s₁ s₂ : Search} (h₁ : Balanced s s₁) (h₂ : Balanced s₁ s₂) :
    Balanced s s₂ := by
  refine ⟨h₁.kept.trans h₂.kept, h₂.root.trans h₁.root, h₂.pred.trans h₁.pred,
    h₂.issued.trans h₁.issued, ?_, h₂.soln ∘ h₁.soln⟩
  rcases h₂.clauses with h | h
  · rw [h]
    exact h₁.clauses
  · rw [h, h₁.kept.clauses]
    exact .inr rfl

/-! ## The pieces -/

theorem getNextUntriedClause_kept (s : Search) : StacksKept s (getNextUntriedClause p s) ∧
    (getNextUntriedClause p s).varGrounding = s.varGrounding ∧
    (getNextUntriedClause p s).clauseGrounding = s.clauseGrounding ∧
    (getNextUntriedClause p s).reported = s.reported := by
  unfold getNextUntriedClause
  split <;> exact ⟨⟨rfl, rfl, rfl, rfl, rfl, rfl⟩, rfl, rfl, rfl⟩

theorem markAbsent_kept (s : Search) : StacksKept s (markAbsent p s) := by
  unfold markAbsent
  split <;> exact ⟨rfl, rfl, rfl, rfl, rfl, rfl⟩

/-- The state a search for the next clause starts from. -/
def entering (s : Search) : Search :=
  { s with clauseAccepted := false, currSolnHandle := s.currPredHandle.bind s.varGrounding }

/-- The six pushes are undone, whatever was pushed. -/
theorem popClause_balanced {s s' : Search} {root hsoln : Handle}
    (h : StacksKept (groundClause root hsoln s) s') :
    Balanced s (popClause s') := by
  obtain ⟨hroots, hpreds, hsolns, hclauses, hvars, hissueds⟩ := h
  refine ⟨⟨?_, ?_, ?_, ?_, ?_, ?_⟩, ?_, ?_, ?_, .inr ?_, fun _ => ?_⟩
  · exact congrArg List.tail hroots
  · exact congrArg List.tail hpreds
  · exact congrArg List.tail hsolns
  · exact congrArg List.tail hclauses
  · exact congrArg List.tail hvars
  · exact congrArg List.tail hissueds
  · simp only [popClause, hroots]
    rfl
  · simp only [popClause, hpreds]
    rfl
  · simp only [popClause, hissueds]
    rfl
  · simp only [popClause, hclauses]
    rfl
  · simp only [popClause, hsolns]
    rfl

theorem noteAccepted_balanced (root : Handle) (s : Search) :
    Balanced s (noteAccepted p root s) := by
  unfold noteAccepted
  split
  · exact ⟨⟨rfl, rfl, rfl, rfl, rfl, rfl⟩, rfl, rfl, rfl, .inl rfl, id⟩
  · exact .refl s

theorem foreach_balanced {s₀ : Search} {f : Handle → Search → Search × Outcome} {hs : List Handle}
    (hf : ∀ h s, Balanced s₀ s → (f h s).2 = .no → Balanced s₀ (f h s).1)
    (hn : (foreach f hs s₀).2 = .no) : Balanced s₀ (foreach f hs s₀).1 :=
  (foreach_rule (K := fun _ => True) (fun h _ s hs => ⟨trivial, hf h s hs⟩) (fun _ _ => trivial)
    (Balanced.refl s₀)).2 hn

/-- The ways a step up the clause returns false. -/
theorem predUp_no {up : Handle → Search → Search × Outcome} {h : Handle} {s s' : Search}
    (hno : predUp G up h s = (s', .no)) :
    s' = s ∨ ∃ soln s₁, s.currSolnHandle = some soln ∧
      foreach up (G.incoming soln) { s with currPredHandle := some h } = (s₁, .no) ∧
      s' = { s₁ with currPredHandle := s.currPredHandle } := by
  unfold predUp at hno
  split at hno
  · split at hno
    · cases hno
    · next soln hsoln =>
      split at hno
      · cases hno
      · cases hno
      · next s₁ o _ _ hr =>
        obtain ⟨rfl, rfl⟩ := Prod.mk.inj hno
        exact .inr ⟨soln, s₁, hsoln, hr, rfl⟩
  · exact .inl (Prod.mk.inj hno).1.symm

theorem moveUp_no {up : Handle → Search → Search × Outcome} {pred hsoln : Handle} {s s' : Search}
    (hno : moveUp G up pred hsoln s = (s', .no)) :
    ∃ s₁, foreach (predUp G up) (G.incoming pred) { s with
        solnHandleStack := s.currSolnHandle :: s.solnHandleStack
        currSolnHandle := some hsoln } = (s₁, .no) ∧
      s' = { s₁ with
        currSolnHandle := s₁.solnHandleStack.head?.join
        solnHandleStack := s₁.solnHandleStack.tail } := by
  unfold moveUp at hno
  dsimp only at hno
  split at hno
  · cases hno
  · cases hno
  · next s₁ o _ _ hr =>
    obtain ⟨rfl, rfl⟩ := Prod.mk.inj hno
    exact ⟨s₁, hr, rfl⟩

/-- The callback never refuses the absence of an optional clause, if there is one. -/
def AcceptsAbsence (cb : PatternMatchCallback) (p : Pattern) : Prop :=
  p.optionals ≠ [] → ∀ h, cb.optionalClauseMatch h none = false

theorem optionals_ne_nil {s : Search} (h : isOptional p s = true) : p.optionals ≠ [] := by
  intro hnil
  unfold isOptional at h
  cases hr : s.currRoot with
  | none => simp [hr] at h
  | some r => simp [hr, hnil] at h

section Up
variable {up : Handle → Search → Search × Outcome}

theorem solveNext_none {s : Search} (h : s.currRoot = none) : solveNext cb up s = report cb s := by
  simp [solveNext, h]

theorem solveNext_some {s : Search} {r h : Handle} (hr : s.currRoot = some r)
    (hh : s.currPredHandle.bind s.varGrounding = some h) :
    solveNext cb up s = up h (entering s) := by
  simp [solveNext, hr, hh, entering]

theorem solveNext_crashed {s : Search} {r : Handle} (hr : s.currRoot = some r)
    (hh : s.currPredHandle.bind s.varGrounding = none) :
    solveNext cb up s = (entering s, .crashed) := by
  simp [solveNext, hr, hh, entering]

variable (hup : ∀ h s, (up h s).2 = .no → Restored s (up h s).1)
include hup

theorem solveNext_kept (s : Search) (hn : (solveNext cb up s).2 = .no) :
    StacksKept s (solveNext cb up s).1 := by
  cases hr : s.currRoot with
  | none =>
    rw [solveNext_none hr]
    exact ⟨rfl, rfl, rfl, rfl, rfl, rfl⟩
  | some r =>
    cases hh : s.currPredHandle.bind s.varGrounding with
    | none =>
      rw [solveNext_crashed hr hh] at hn
      cases hn
    | some h =>
      rw [solveNext_some hr hh] at hn ⊢
      obtain ⟨h₁, h₂, h₃, h₄, h₅, h₆⟩ := (hup h _ hn).kept
      exact ⟨h₁, h₂, h₃, h₄, h₅, h₆⟩

theorem optionalLoop_kept (habsent : AcceptsAbsence cb p) (n : Nat)
    (r : Search × Outcome) (hn : (optionalLoop cb p up n r).1.2 = .no) :
    (optionalLoop cb p up n r).2 = false ∧ r.2 = .no ∧
      StacksKept r.1 (optionalLoop cb p up n r).1.1 := by
  induction n generalizing r with
  | zero => cases hn
  | succ n ih =>
    obtain ⟨s, o⟩ := r
    unfold optionalLoop at hn ⊢
    split
    · rename_i hcond
      have haccept : cb.optionalClauseMatch s.currPredHandle none = false :=
        habsent (optionals_ne_nil hcond.2.2) s.currPredHandle
      rw [if_pos hcond] at hn
      simp only [haccept, Bool.false_eq_true, if_false] at hn ⊢
      obtain ⟨hflag, hno, hkept⟩ := ih _ hn
      have hnext := @solveNext_kept cb up hup _ hno
      refine ⟨hflag, hcond.1, StacksKept.trans ?_ (hnext.trans hkept)⟩
      exact (markAbsent_kept s).trans (getNextUntriedClause_kept _).1
    · rename_i hcond
      rw [if_neg hcond] at hn
      exact ⟨rfl, hn, .refl s⟩

theorem clauseUp_balanced (habsent : AcceptsAbsence cb p) {root hsoln : Handle} {s : Search}
    (hn : (clauseUp cb p up root hsoln s).2 = .no) :
    Balanced s (clauseUp cb p up root hsoln s).1 := by
  have hnote : Balanced s (noteAccepted p root s) := noteAccepted_balanced root s
  unfold clauseUp at hn ⊢
  split
  · exact hnote
  · next hacc =>
    rw [if_neg hacc] at hn
    set pushed := groundClause root hsoln (noteAccepted p root s)
    set next := solveNext cb up (getNextUntriedClause p pushed)
    set r := optionalLoop cb p up (p.cnfClauses.length + 1) next with hr
    have hno : r.1.2 = .no := by
      obtain ⟨⟨s₁, o⟩, flag⟩ := r
      cases o with
      | no => rfl
      | yes => cases hn
      | crashed => cases hn
      | spent => cases hn
    obtain ⟨hflag, hnext, hkept⟩ := optionalLoop_kept hup habsent _ next hno
    have hfirst : StacksKept pushed next.1 :=
      (getNextUntriedClause_kept pushed).1.trans (solveNext_kept hup _ hnext)
    have hpop : leaveClause r = (popClause r.1.1, .no) := by
      rw [← hr] at hflag
      obtain ⟨⟨s₁, o⟩, flag⟩ := r
      cases hno
      cases hflag
      rfl
    rw [hpop]
    exact hnote.trans (popClause_balanced (hfirst.trans hkept))

/-! ## Up inside a clause -/

theorem predUp_balanced {h : Handle} {s s' : Search} (hno : predUp G up h s = (s', .no)) :
    Balanced s s' := by
  obtain rfl | ⟨soln, s₁, -, hr, rfl⟩ := predUp_no hno
  · exact .refl s'
  · have hloop := foreach_balanced (fun x s₂ h₂ hno => h₂.trans (hup x s₂ hno).toBalanced)
      (congrArg Prod.snd hr)
    rw [hr] at hloop
    obtain ⟨⟨h₁, h₂, h₃, h₄, h₅, h₆⟩, hroot, -, hissued, hclauses, hsome⟩ := hloop
    exact ⟨⟨h₁, h₂, h₃, h₄, h₅, h₆⟩, hroot, rfl, hissued, hclauses, hsome⟩

theorem moveUp_balanced {pred hsoln : Handle} {s s' : Search}
    (hno : moveUp G up pred hsoln s = (s', .no)) : Balanced s s' := by
  obtain ⟨s₁, hr, rfl⟩ := moveUp_no hno
  have hloop := foreach_balanced
    (fun x s₂ h₂ hno => h₂.trans (predUp_balanced hup (Prod.ext rfl hno))) (congrArg Prod.snd hr)
  rw [hr] at hloop
  obtain ⟨⟨h₁, h₂, h₃, h₄, h₅, h₆⟩, hroot, hpred, hissued, hclauses, -⟩ := hloop
  refine ⟨⟨h₁, h₂, congrArg List.tail h₃, h₄, h₅, h₆⟩, hroot, hpred, hissued, hclauses, ?_⟩
  intro hsome
  rw [h₃]
  exact hsome

theorem doSolnUp_balanced (habsent : AcceptsAbsence cb p) {hsoln : Handle} {s : Search}
    (hn : (doSolnUp G cb p up hsoln s).2 = .no) :
    Balanced s (doSolnUp G cb p up hsoln s).1 := by
  unfold doSolnUp at hn ⊢
  split
  · exact .refl s
  · next hroot =>
    rw [if_neg hroot] at hn
    cases hpred : s.currPredHandle with
    | none =>
      rw [hpred] at hn
      cases hn
    | some pred =>
      rw [hpred] at hn
      simp only at hn ⊢
      have hframed : Framed s (treeCompare G cb p (pred + 1) pred hsoln s) :=
        framed_treeCompare _ _ _ s
      obtain ⟨honly, hstack⟩ := hframed
      cases hr : treeCompare G cb p (pred + 1) pred hsoln s with
      | mk s₁ o =>
        rw [hr] at hn honly hstack
        simp only at hn honly hstack ⊢
        have hcompared : o = .no ∨ o = .yes → Balanced s s₁ := by
          intro ho
          have hsame := hstack ho
          rw [honly]
          exact ⟨⟨rfl, rfl, rfl, rfl, hsame, rfl⟩, rfl, rfl, rfl, .inl rfl, id⟩
        cases o with
        | yes => exact hcompared (.inr rfl)
        | no =>
          simp only at hn ⊢
          have hb := hcompared (.inl rfl)
          split
          · next htop =>
            rw [if_pos htop] at hn
            exact hb.trans (clauseUp_balanced hup habsent hn)
          · next htop =>
            rw [if_neg htop] at hn
            exact hb.trans (moveUp_balanced hup (Prod.ext rfl hn))
        | crashed => cases hn
        | spent => cases hn

end Up

/-- Every call that returns false leaves the search as it was, but for the groundings, which come
from the tops of the stacks. -/
theorem solnUp_restored (habsent : AcceptsAbsence cb p) (n : Nat) (hsoln : Handle) (s : Search)
    (hn : (solnUp G cb p n hsoln s).2 = .no) : Restored s (solnUp G cb p n hsoln s).1 := by
  induction n generalizing hsoln s with
  | zero => cases hn
  | succ n ih =>
    unfold solnUp at hn ⊢
    have hbody := @doSolnUp_balanced G cb p (solnUp G cb p n) ih habsent hsoln s.pushVars
    cases hr : doSolnUp G cb p (solnUp G cb p n) hsoln s.pushVars with
    | mk s₁ o =>
      rw [hr] at hn hbody
      cases o with
      | no =>
        obtain ⟨⟨h₁, h₂, h₃, h₄, h₅, h₆⟩, hroot, hpred, hissued, hclauses, hsome⟩ := hbody rfl
        refine ⟨⟨⟨h₁, h₂, h₃, h₄, congrArg List.tail h₅, h₆⟩, hroot, hpred, hissued, hclauses, hsome⟩, ?_⟩
        change Search.top s₁.varSolutnStack.tail = Search.top s.varSolutnStack
        rw [h₅]
        rfl
      | yes => cases hn
      | crashed => cases hn
      | spent => cases hn

end PatternMatchEngine

end OpenCog
