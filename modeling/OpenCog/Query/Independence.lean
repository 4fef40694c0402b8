import OpenCog.Query.PatternMatch
import OpenCog.Query.Solutions

/-! One engine used again. It keeps the variables and the negations of the calls before; where
they do no harm, a call reports what it does on a fresh engine. -/
namespace OpenCog

open Backtrack (Outcome foreach foreachPair Simulates foreach_simulates foreachPair_simulates)

namespace PatternMatchEngine

/-- The pattern `p` of an engine that was used before does what the pattern `q` of a fresh one
does: its further variables stand in no clause and may ground no variable, and its further
negations are no clauses. -/
structure Harmless (G : AtomGraph) (cb : PatternMatchCallback) (p q : Pattern) : Prop where
  cnfClauses : p.cnfClauses = q.cnfClauses
  rootMap : p.rootMap = q.rootMap
  invalidGrounding : p.invalidGrounding = q.invalidGrounding
  optionals : ∀ r ∈ q.cnfClauses, (r ∈ p.optionals ↔ r ∈ q.optionals)
  boundVars : ∀ r ∈ q.cnfClauses, ∀ x, G.InTree r x → (x ∈ p.boundVars ↔ x ∈ q.boundVars)
  more : ∀ x ∈ q.boundVars, x ∈ p.boundVars
  rejected : ∀ r ∈ q.cnfClauses, ∀ v ∈ q.boundVars, G.InTree r v → ∀ x ∈ p.boundVars,
    x ∉ q.boundVars → G.isNode v = true → G.isNode x = true → cb.variableMatch v x = true
  roots : ∀ a roots, (a, roots) ∈ q.rootMap → ∀ r ∈ roots, r ∈ q.cnfClauses ∧ G.InTree r a

/-- No variable of the fresh pattern is grounded by one of the other. -/
def Clean (p q : Pattern) (V : SolnMap) : Prop :=
  ∀ v ∈ q.boundVars, ∀ g, V v = some g → g ∉ p.boundVars

/-- What does not matter before it is set: the link at hand, the stack of these, the flag. -/
def Search.withSolns (s : Search) (c : Option Handle) (k : List (Option Handle)) (b : Bool) :
    Search :=
  { s with currSolnHandle := c, solnHandleStack := k, clauseAccepted := b }

/-- Two searches that differ in these alone. -/
structure Twin (p q : Pattern) (s s' : Search) : Prop where
  same : ∃ c k b, s' = Search.withSolns s c k b
  ground : Clean p q s.varGrounding
  grounds : ∀ V ∈ s.varSolutnStack, Clean p q V

variable {G : AtomGraph} {cb : PatternMatchCallback} {p q : Pattern} {r : Handle} {s s' : Search}

/-! ## Comparing trees -/

theorem clean_empty : Clean p q .empty := by
  intro v _ g h
  cases h

theorem clean_top {stack : List SolnMap} (h : ∀ V ∈ stack, Clean p q V) :
    Clean p q (Search.top stack) := by
  cases stack with
  | nil => exact clean_empty
  | cons V stack => exact h V List.mem_cons_self

theorem clean_ground {V : SolnMap} {hp hg : Handle} (hV : Clean p q V)
    (h : hp ∈ q.boundVars → hg ∉ p.boundVars) : Clean p q (Function.update V hp (some hg)) := by
  intro v hv g e
  by_cases hvp : v = hp
  · subst hvp
    rw [Function.update_self] at e
    exact Option.some.inj e ▸ h hv
  · rw [Function.update_of_ne hvp] at e
    exact hV v hv g e

namespace Twin

theorem ground_pair (h : Twin p q s s') {hp hg : Handle}
    (hnot : hp ∈ q.boundVars → hg ∉ p.boundVars) :
    Twin p q (s.ground hp hg) (s'.ground hp hg) := by
  obtain ⟨⟨c, k, b, rfl⟩, hground, hstack⟩ := h
  exact ⟨⟨c, k, b, rfl⟩, clean_ground hground hnot, hstack⟩

theorem pushVars (h : Twin p q s s') : Twin p q s.pushVars s'.pushVars := by
  obtain ⟨⟨c, k, b, rfl⟩, hground, hstack⟩ := h
  refine ⟨⟨c, k, b, rfl⟩, hground, fun V hV => ?_⟩
  rcases List.mem_cons.mp hV with rfl | hV
  · exact hground
  · exact hstack V hV

theorem popVars (h : Twin p q s s') : Twin p q s.popVars s'.popVars := by
  obtain ⟨⟨c, k, b, rfl⟩, hground, hstack⟩ := h
  exact ⟨⟨c, k, b, rfl⟩, hground, fun V hV => hstack V (List.mem_of_mem_tail hV)⟩

theorem popTopVars (h : Twin p q s s') : Twin p q s.popTopVars s'.popTopVars := by
  obtain ⟨⟨c, k, b, rfl⟩, hground, hstack⟩ := h
  have htail : ∀ V ∈ s.varSolutnStack.tail, Clean p q V :=
    fun V hV => hstack V (List.mem_of_mem_tail hV)
  exact ⟨⟨c, k, b, rfl⟩, clean_top htail, htail⟩

theorem varGrounding_eq (h : Twin p q s s') : s'.varGrounding = s.varGrounding := by
  obtain ⟨⟨c, k, b, rfl⟩, -, -⟩ := h
  rfl

theorem currPredHandle_eq (h : Twin p q s s') : s'.currPredHandle = s.currPredHandle := by
  obtain ⟨⟨c, k, b, rfl⟩, -, -⟩ := h
  rfl

theorem ends (h : Twin p q s s') (o : Outcome) :
    Simulates (Twin p q) (Twin p q) (s, o) (s', o) :=
  ⟨rfl, h, fun _ => h⟩

end Twin

theorem compareVariable_simulates (hp : Harmless G cb p q) (hr : r ∈ q.cnfClauses) {v hg : Handle}
    (hin : G.InTree r v) (hv : v ∈ q.boundVars) (h : Twin p q s s') :
    Simulates (Twin p q) (Twin p q) (compareVariable G cb q v hg s)
      (compareVariable G cb p v hg s') := by
  unfold compareVariable
  by_cases hgp : hg ∈ p.boundVars
  · rw [if_pos hgp]
    by_cases hgq : hg ∈ q.boundVars
    · rw [if_pos hgq]
      exact h.ends _
    · rw [if_neg hgq]
      -- The fresh engine has to reject it as well.
      split
      · next gnd hgnd =>
        have hne : gnd ≠ hg := by
          rintro rfl
          exact h.ground v hv gnd hgnd hgp
        rw [if_neg hne]
        exact h.ends _
      · rw [if_neg]
        · exact h.ends _
        · intro hall
          simp only [Bool.and_eq_true, Bool.not_eq_true'] at hall
          rw [hp.rejected r hr v hv hin hg hgp hgq hall.1.1 hall.1.2] at hall
          cases hall.2
  · rw [if_neg hgp, if_neg fun hgq => hgp (hp.more hg hgq), h.varGrounding_eq]
    split
    · exact h.ends _
    · split
      · exact (h.ground_pair fun _ => hgp).ends _
      · exact h.ends _

theorem closeLinks_simulates {hp hg : Handle} (hnot : hp ∉ q.boundVars) {x x' : Search × Outcome}
    (h : Simulates (Twin p q) (Twin p q) x x') :
    Simulates (Twin p q) (Twin p q) (closeLinks hp hg x) (closeLinks hp hg x') := by
  obtain ⟨s, o⟩ := x
  obtain ⟨s', o'⟩ := x'
  obtain ⟨ho, hs, -⟩ := h
  obtain rfl : o' = o := ho
  cases o' with
  | no => exact (hs.ground_pair fun hb => absurd hb hnot).popVars.ends _
  | yes => exact hs.popTopVars.ends _
  | crashed => exact hs.ends _
  | spent => exact hs.ends _

theorem treeCompare_simulates (hp : Harmless G cb p q) (hr : r ∈ q.cnfClauses) (n : Nat)
    {h hg : Handle} (hin : G.InTree r h) (hs : Twin p q s s') :
    Simulates (Twin p q) (Twin p q) (treeCompare G cb q n h hg s)
      (treeCompare G cb p n h hg s') := by
  induction n generalizing h hg s s' with
  | zero => exact hs.ends _
  | succ n ih =>
    unfold treeCompare
    split
    · next e _ =>
      by_cases hb : h ∈ q.boundVars
      · rw [if_pos hb, if_pos ((hp.boundVars r hr h hin).mpr hb)]
        exact compareVariable_simulates hp hr hin hb hs
      · rw [if_neg hb, if_neg fun hbp => hb ((hp.boundVars r hr h hin).mp hbp),
          hs.currPredHandle_eq]
        have hground : Twin p q (s.ground h hg) (s'.ground h hg) :=
          hs.ground_pair fun hq => absurd hq hb
        split
        · exact hground.ends _
        · split
          · split
            · exact hs.ends _
            · apply closeLinks_simulates hb
              apply foreachPair_simulates _ (fun _ _ h => h) hs.pushVars
              intro a ha b t t' ht
              refine ih (hin.trans (.member ?_ (.self a))) ht
              rw [AtomGraph.outgoing_of_atom e]
              exact ha
          · split
            · exact hs.ends _
            · exact hground.ends _
          · exact hs.ends _
    · exact hs.ends _

/-! ## The walk -/

/-- The atoms at hand stand in clauses of the pattern. -/
structure Placed (G : AtomGraph) (q : Pattern) (s : Search) : Prop where
  root : ∀ r, s.currRoot = some r → r ∈ q.cnfClauses
  pred : ∀ h, s.currPredHandle = some h → ∃ r ∈ q.cnfClauses, G.InTree r h
  roots : ∀ r, some r ∈ s.rootHandleStack → r ∈ q.cnfClauses
  preds : ∀ h, some h ∈ s.predHandleStack → ∃ r ∈ q.cnfClauses, G.InTree r h

/-- The links at hand, innermost first. -/
def solns (s : Search) : List (Option Handle) := s.currSolnHandle :: s.solnHandleStack

/-- Between the steps of two searches. The `n` innermost links are the same, and so is the flag
where `f` says so. -/
structure Alike (G : AtomGraph) (p q : Pattern) (f : Prop) (n : Nat) (s s' : Search) : Prop where
  twin : Twin p q s s'
  placed : Placed G q s
  flag : f → s'.clauseAccepted = s.clauseAccepted
  links : ∃ l d d', n ≤ l.length ∧ solns s = l ++ [d] ∧ solns s' = l ++ [d']

/-- The same was reported. -/
def SameReport (s s' : Search) : Prop := s'.reported = s.reported

theorem Twin.report (h : Twin p q s s') : SameReport s s' := by
  obtain ⟨⟨c, k, b, rfl⟩, -, -⟩ := h
  rfl

namespace Alike
variable {f : Prop} {n : Nat}

theorem ends (h : Alike G p q f n s s') (o : Outcome) :
    Simulates (Alike G p q f n) SameReport (s, o) (s', o) :=
  ⟨rfl, h.twin.report, fun _ => h⟩

theorem weaken (h : Alike G p q f (n + 1) s s') : Alike G p q f n s s' := by
  obtain ⟨ht, hp, hf, l, d, d', hl, hs, hs'⟩ := h
  exact ⟨ht, hp, hf, l, d, d', Nat.le_of_succ_le hl, hs, hs'⟩

theorem forget (h : Alike G p q True n s s') : Alike G p q f n s s' :=
  ⟨h.twin, h.placed, fun _ => h.flag trivial, h.links⟩

theorem currRoot_eq (h : Alike G p q f n s s') : s'.currRoot = s.currRoot := by
  obtain ⟨c, k, b, rfl⟩ := h.twin.same
  rfl

theorem currSolnHandle_eq (h : Alike G p q f (n + 1) s s') :
    s'.currSolnHandle = s.currSolnHandle := by
  obtain ⟨l, d, d', hl, hs, hs'⟩ := h.links
  cases l with
  | nil => cases hl
  | cons x l => exact (List.cons.inj hs').1.trans (List.cons.inj hs).1.symm

/-- Entering a link. -/
theorem push (h : Alike G p q f n s s') (hsoln : Handle) :
    Alike G p q f (n + 1)
      { s with
        solnHandleStack := s.currSolnHandle :: s.solnHandleStack
        currSolnHandle := some hsoln }
      { s' with
        solnHandleStack := s'.currSolnHandle :: s'.solnHandleStack
        currSolnHandle := some hsoln } := by
  obtain ⟨⟨⟨c, k, b, rfl⟩, hground, hgrounds⟩, hp, hf, l, d, d', hl, hs, hs'⟩ := h
  refine ⟨⟨⟨some hsoln, c :: k, b, rfl⟩, hground, hgrounds⟩,
    ⟨hp.root, hp.pred, hp.roots, hp.preds⟩, hf, some hsoln :: l, d, d', Nat.succ_le_succ hl, ?_, ?_⟩
  · exact congrArg (some hsoln :: ·) hs
  · exact congrArg (some hsoln :: ·) hs'

/-- Leaving it. -/
theorem pop (h : Alike G p q f (n + 1) s s') :
    Alike G p q f n
      { s with
        currSolnHandle := s.solnHandleStack.head?.join
        solnHandleStack := s.solnHandleStack.tail }
      { s' with
        currSolnHandle := s'.solnHandleStack.head?.join
        solnHandleStack := s'.solnHandleStack.tail } := by
  obtain ⟨⟨⟨c, k, b, rfl⟩, hground, hgrounds⟩, hp, hf, l, d, d', hl, hs, hs'⟩ := h
  cases l with
  | nil => cases hl
  | cons x l =>
    have htail : ∀ {stack : List (Option Handle)} {e : Option Handle}, stack = l ++ [e] →
        stack.head?.join :: stack.tail = l ++ [e] := by
      rintro stack e rfl
      cases l with
      | nil => cases e <;> rfl
      | cons y l => cases y <;> rfl
    refine ⟨⟨⟨_, _, b, rfl⟩, hground, hgrounds⟩, ⟨hp.root, hp.pred, hp.roots, hp.preds⟩, hf, l, d, d',
      Nat.le_of_succ_le_succ hl, ?_, ?_⟩
    · exact htail (List.cons.inj hs).2
    · exact htail (List.cons.inj hs').2

/-- A new link at hand. -/
theorem setSoln (h : Alike G p q f n s s') (c : Option Handle) :
    Alike G p q f n { s with currSolnHandle := c } { s' with currSolnHandle := c } := by
  obtain ⟨⟨⟨_, k, b, rfl⟩, hground, hgrounds⟩, hp, hf, l, d, d', hl, hs, hs'⟩ := h
  refine ⟨⟨⟨c, k, b, rfl⟩, hground, hgrounds⟩, ⟨hp.root, hp.pred, hp.roots, hp.preds⟩, hf, ?_⟩
  cases l with
  | nil => exact ⟨[], c, c, hl, congrArg (c :: ·) (List.cons.inj hs).2,
      congrArg (c :: ·) (List.cons.inj hs').2⟩
  | cons x l => exact ⟨c :: l, d, d', hl, congrArg (c :: ·) (List.cons.inj hs).2,
      congrArg (c :: ·) (List.cons.inj hs').2⟩

theorem setFlag (h : Alike G p q f n s s') (b : Bool) :
    Alike G p q True n { s with clauseAccepted := b } { s' with clauseAccepted := b } := by
  obtain ⟨⟨⟨c, k, _, rfl⟩, hground, hgrounds⟩, hp, -, hlinks⟩ := h
  exact ⟨⟨⟨c, k, b, rfl⟩, hground, hgrounds⟩, ⟨hp.root, hp.pred, hp.roots, hp.preds⟩, fun _ => rfl,
    hlinks⟩

end Alike

/-! ## The next clause -/

theorem findJoin_congr {solved untried untried' : Handle → Bool} {m : RootMap}
    (h : ∀ a roots, (a, roots) ∈ m → ∀ r ∈ roots, untried' r = untried r) :
    findJoin solved untried' m = findJoin solved untried m := by
  induction m with
  | nil => rfl
  | cons k m ih =>
    obtain ⟨a, roots⟩ := k
    have hfilter : roots.filter (fun r => !solved r && untried' r) =
        roots.filter fun r => !solved r && untried r := by
      apply List.filter_congr
      intro r hr
      rw [h a roots List.mem_cons_self r hr]
    have hrest := ih fun b others hm => h b others (List.mem_cons_of_mem _ hm)
    unfold findJoin
    rw [hfilter, hrest]

theorem findJoin_mem {solved untried : Handle → Bool} {m : RootMap} {a r : Handle}
    (h : findJoin solved untried m = some (a, r)) : ∃ roots, (a, roots) ∈ m ∧ r ∈ roots := by
  induction m with
  | nil => cases h
  | cons k m ih =>
    obtain ⟨b, roots⟩ := k
    have hrest : findJoin solved untried m = some (a, r) →
        ∃ roots', (a, roots') ∈ (b, roots) :: m ∧ r ∈ roots' := by
      intro h
      obtain ⟨roots', hm, hr⟩ := ih h
      exact ⟨roots', List.mem_cons_of_mem _ hm, hr⟩
    unfold findJoin at h
    split at h
    · next u hu =>
      split at h
      · obtain ⟨rfl, rfl⟩ := Prod.mk.inj (Option.some.inj h)
        exact ⟨roots, List.mem_cons_self, (List.mem_filter.mp (List.mem_of_getLast? hu)).1⟩
      · exact hrest h
    · exact hrest h

theorem nextJoin_eq (hp : Harmless G cb p q) (h : Twin p q s s') :
    nextJoin p s' = nextJoin q s := by
  obtain ⟨⟨c, k, b, rfl⟩, -, -⟩ := h
  unfold nextJoin
  rw [hp.rootMap, hp.invalidGrounding]
  congr 1
  apply findJoin_congr
  intro a roots hm r hr
  have hopt : decide (r ∉ p.optionals) = decide (r ∉ q.optionals) :=
    decide_eq_decide.mpr (not_congr (hp.optionals r (hp.roots a roots hm r hr).1))
  exact congrArg (decide (r ∉ s.issued) && ·) hopt

theorem nextJoin_placed (hp : Harmless G cb p q) {a : Handle}
    (h : nextJoin q s = some (a, r)) : r ∈ q.cnfClauses ∧ G.InTree r a := by
  rw [nextJoin, Option.orElse_eq_orElse, Option.orElse_eq_or, Option.or_eq_some_iff] at h
  rcases h with h | ⟨-, h⟩
  · obtain ⟨roots, hm, hr⟩ := findJoin_mem h
    exact hp.roots a roots hm r hr
  · obtain ⟨roots, hm, hr⟩ := findJoin_mem h
    exact hp.roots a roots hm r hr

theorem inTree_of_isNodeInTree {n : Nat} {h x : Handle} (hx : isNodeInTree G n h x = true) :
    G.InTree h x := by
  induction n generalizing h with
  | zero => cases hx
  | succ n ih =>
    rw [isNodeInTree, Bool.and_eq_true, Bool.or_eq_true, beq_iff_eq, List.any_eq_true] at hx
    obtain ⟨-, rfl | ⟨y, hy, hin⟩⟩ := hx
    · exact .self h
    · exact .member hy (ih hin)

section Walk
variable {f : Prop} {n : Nat}

theorem Alike.next (hp : Harmless G cb p q) (h : Alike G p q f n s s') :
    Alike G p q f n (getNextUntriedClause q s) (getNextUntriedClause p s') := by
  unfold getNextUntriedClause
  rw [nextJoin_eq hp h.twin]
  obtain ⟨⟨⟨c, k, b, rfl⟩, hground, hgrounds⟩, hplaced, hf, hlinks⟩ := h
  cases hj : nextJoin q s with
  | none =>
    exact ⟨⟨⟨c, k, b, rfl⟩, hground, hgrounds⟩, ⟨nofun, nofun, hplaced.roots, hplaced.preds⟩, hf,
      hlinks⟩
  | some j =>
    obtain ⟨a, clause⟩ := j
    obtain ⟨hclause, hin⟩ := nextJoin_placed hp hj
    refine ⟨⟨⟨c, k, b, rfl⟩, hground, hgrounds⟩, ⟨?_, ?_, hplaced.roots, hplaced.preds⟩, hf, hlinks⟩
    · intro r hr
      exact Option.some.inj hr ▸ hclause
    · intro x hx
      exact Option.some.inj hx ▸ ⟨clause, hclause, hin⟩

theorem Alike.mark (hp : Harmless G cb p q) (h : Alike G p q f n s s') :
    Alike G p q f n (markAbsent q s) (markAbsent p s') := by
  unfold markAbsent
  rw [h.currRoot_eq, hp.invalidGrounding]
  obtain ⟨⟨⟨c, k, b, rfl⟩, hground, hgrounds⟩, hplaced, hf, hlinks⟩ := h
  split
  · exact ⟨⟨⟨c, k, b, rfl⟩, hground, hgrounds⟩,
      ⟨hplaced.root, hplaced.pred, hplaced.roots, hplaced.preds⟩, hf, hlinks⟩
  · exact ⟨⟨⟨c, k, b, rfl⟩, hground, hgrounds⟩, hplaced, hf, hlinks⟩

theorem isOptional_eq (hp : Harmless G cb p q) (h : Alike G p q f n s s') :
    isOptional p s' = isOptional q s := by
  unfold isOptional
  rw [h.currRoot_eq]
  cases hr : s.currRoot with
  | none => rfl
  | some r =>
    have hopt := hp.optionals r (h.placed.root r hr)
    simp only [Option.map_some, Option.getD_some, hopt]

theorem Alike.note (hp : Harmless G cb p q) (hr : r ∈ q.cnfClauses) (h : Alike G p q f n s s') :
    Alike G p q f n (noteAccepted q r s) (noteAccepted p r s') := by
  unfold noteAccepted
  by_cases hopt : r ∈ q.optionals
  · rw [if_pos hopt, if_pos ((hp.optionals r hr).mpr hopt)]
    exact (h.setFlag true).forget
  · rw [if_neg hopt, if_neg fun ho => hopt ((hp.optionals r hr).mp ho)]
    exact h

theorem refused_eq (hp : Harmless G cb p q) (hr : r ∈ q.cnfClauses) (hsoln : Handle) :
    refused cb p r hsoln = refused cb q r hsoln := by
  unfold refused
  rw [if_congr (hp.optionals r hr) rfl rfl]

theorem Alike.groundClause (h : Alike G p q f n s s') (root hsoln : Handle) :
    Alike G p q f (n + 1) (groundClause root hsoln s) (groundClause root hsoln s') := by
  have hpushed := (h.setSoln (some hsoln)).push hsoln
  obtain ⟨c, k, b, rfl⟩ := h.twin.same
  refine ⟨⟨⟨_, _, b, rfl⟩, h.twin.ground, ?_⟩, ⟨h.placed.root, h.placed.pred, ?_, ?_⟩, hpushed.flag,
    hpushed.links⟩
  · intro V hV
    rcases List.mem_cons.mp hV with rfl | hV
    · exact h.twin.ground
    · exact h.twin.grounds V hV
  · intro r hr
    rcases List.mem_cons.mp hr with hr | hr
    · exact h.placed.root r hr.symm
    · exact h.placed.roots r hr
  · intro x hx
    rcases List.mem_cons.mp hx with hx | hx
    · exact h.placed.pred x hx.symm
    · exact h.placed.preds x hx

theorem Alike.popClause (h : Alike G p q f (n + 1) s s') :
    Alike G p q f n (popClause s) (popClause s') := by
  have hhead : ∀ {stack : List (Option Handle)} {x : Handle}, stack.head?.join = some x →
      some x ∈ stack := by
    intro stack x hx
    cases stack with
    | nil => cases hx
    | cons y stack =>
      obtain rfl : y = some x := hx
      exact List.mem_cons_self
  have hpopped := h.pop
  obtain ⟨c, k, b, rfl⟩ := h.twin.same
  have htail : ∀ V ∈ s.varSolutnStack.tail, Clean p q V :=
    fun V hV => h.twin.grounds V (List.mem_of_mem_tail hV)
  exact ⟨⟨⟨_, _, b, rfl⟩, clean_top htail, htail⟩,
    ⟨fun r hr => h.placed.roots r (hhead hr), fun x hx => h.placed.preds x (hhead hx),
      fun r hr => h.placed.roots r (List.mem_of_mem_tail hr),
      fun x hx => h.placed.preds x (List.mem_of_mem_tail hx)⟩, hpopped.flag, hpopped.links⟩

theorem leaveClause_simulates {x x' : (Search × Outcome) × Bool} (hflag : x'.2 = x.2)
    (h : Simulates (Alike G p q f (n + 1)) SameReport x.1 x'.1) :
    Simulates (Alike G p q f n) SameReport (leaveClause x) (leaveClause x') := by
  obtain ⟨⟨s, o⟩, flag⟩ := x
  obtain ⟨⟨s', o'⟩, flag'⟩ := x'
  obtain ⟨ho, hreport, hgo⟩ := h
  obtain rfl : o' = o := ho
  obtain rfl : flag' = flag := hflag
  cases o' with
  | no =>
    cases flag' with
    | true => exact (hgo rfl).weaken.ends _
    | false => exact (hgo rfl).popClause.ends _
  | yes => exact ⟨rfl, hreport, nofun⟩
  | crashed => exact ⟨rfl, hreport, nofun⟩
  | spent => exact ⟨rfl, hreport, nofun⟩

theorem currRoot_of_isOptional (h : isOptional q s = true) : s.currRoot ≠ none := by
  intro hnone
  rw [isOptional, hnone] at h
  cases h

theorem Alike.setPred (h : Alike G p q f n s s') {x : Option Handle}
    (hx : ∀ a, x = some a → ∃ r ∈ q.cnfClauses, G.InTree r a) :
    Alike G p q f n { s with currPredHandle := x } { s' with currPredHandle := x } := by
  obtain ⟨⟨⟨c, k, b, rfl⟩, hground, hgrounds⟩, hplaced, hf, hlinks⟩ := h
  exact ⟨⟨⟨c, k, b, rfl⟩, hground, hgrounds⟩, ⟨hplaced.root, hx, hplaced.roots, hplaced.preds⟩, hf,
    hlinks⟩

/-! ## Moving up -/

/-- What is done after a loop that was neither cut short nor crashed. -/
def after (g : Search → Search) : Search × Outcome → Search × Outcome
  | (s, .yes) => (g s, .yes)
  | (s, .no) => (g s, .no)
  | r => r

theorem after_simulates {R R' : Search → Search → Prop} {g g' : Search → Search}
    {x x' : Search × Outcome} (h : Simulates R SameReport x x')
    (hR : ∀ s s', R s s' → R' (g s) (g' s'))
    (hQ : ∀ s s', SameReport s s' → SameReport (g s) (g' s')) :
    Simulates R' SameReport (after g x) (after g' x') := by
  obtain ⟨s, o⟩ := x
  obtain ⟨s', o'⟩ := x'
  obtain ⟨ho, hreport, hgo⟩ := h
  obtain rfl : o' = o := ho
  cases o' with
  | yes => exact ⟨rfl, hQ _ _ hreport, nofun⟩
  | no => exact ⟨rfl, hQ _ _ hreport, fun _ => hR _ _ (hgo rfl)⟩
  | crashed => exact ⟨rfl, hreport, nofun⟩
  | spent => exact ⟨rfl, hreport, nofun⟩

section Equations
variable {up : Handle → Search → Search × Outcome} {x soln : Handle}

theorem predUp_elsewhere
    (h : ¬ (s.currRoot.map fun r => isNodeInTree G (r + 1) r x).getD false = true) :
    predUp G up x s = (s, .no) := by
  rw [predUp, if_neg h]

theorem predUp_crashed (h : (s.currRoot.map fun r => isNodeInTree G (r + 1) r x).getD false = true)
    (hs : s.currSolnHandle = none) : predUp G up x s = (s, .crashed) := by
  rw [predUp, if_pos h, hs]

theorem predUp_some (h : (s.currRoot.map fun r => isNodeInTree G (r + 1) r x).getD false = true)
    (hs : s.currSolnHandle = some soln) :
    predUp G up x s = after (fun t => { t with currPredHandle := s.currPredHandle })
      (foreach up (G.incoming soln) { s with currPredHandle := some x }) := by
  rw [predUp, if_pos h]
  simp only [hs]
  generalize foreach up (G.incoming soln) _ = y
  obtain ⟨t, o⟩ := y
  cases o <;> rfl

theorem moveUp_eq {pred hsoln : Handle} :
    moveUp G up pred hsoln s = after (fun t => { t with
        currSolnHandle := t.solnHandleStack.head?.join
        solnHandleStack := t.solnHandleStack.tail })
      (foreach (predUp G up) (G.incoming pred) { s with
        solnHandleStack := s.currSolnHandle :: s.solnHandleStack
        currSolnHandle := some hsoln }) := by
  unfold moveUp
  dsimp only
  generalize foreach (predUp G up) (G.incoming pred) _ = y
  obtain ⟨t, o⟩ := y
  cases o <;> rfl

end Equations

variable {up up' : Handle → Search → Search × Outcome}
  (hup : ∀ f n h s s', Alike G p q f n s s' →
    Simulates (Alike G p q f n) SameReport (up h s) (up' h s'))
include hup

/-- After the search for the next clause the flag counts only where there is one. -/
theorem solveNext_simulates (h : Alike G p q f n s s') :
    Simulates (fun t t' => Alike G p q f n t t' ∧
        (t.currRoot ≠ none → t'.clauseAccepted = t.clauseAccepted)) SameReport
      (solveNext cb up s) (solveNext cb up' s') := by
  cases hr : s.currRoot with
  | none =>
    rw [solveNext_none hr, solveNext_none (h.currRoot_eq.trans hr)]
    obtain ⟨⟨⟨c, k, b, rfl⟩, hground, hgrounds⟩, hplaced, hf, hlinks⟩ := h
    refine ⟨rfl, rfl, fun _ => ⟨⟨⟨⟨c, k, b, rfl⟩, hground, hgrounds⟩,
      ⟨hplaced.root, hplaced.pred, hplaced.roots, hplaced.preds⟩, hf, hlinks⟩, ?_⟩⟩
    intro hne
    exact absurd hr hne
  | some r =>
    have hsoln : s'.currPredHandle.bind s'.varGrounding = s.currPredHandle.bind s.varGrounding := by
      rw [h.twin.currPredHandle_eq, h.twin.varGrounding_eq]
    have henter : Alike G p q True n (entering s) (entering s') := by
      unfold entering
      rw [hsoln]
      exact (h.setSoln (s.currPredHandle.bind s.varGrounding)).setFlag false
    cases hh : s.currPredHandle.bind s.varGrounding with
    | none =>
      rw [solveNext_crashed hr hh, solveNext_crashed (h.currRoot_eq.trans hr) (hsoln.trans hh)]
      exact ⟨rfl, henter.twin.report, nofun⟩
    | some x =>
      rw [solveNext_some hr hh, solveNext_some (h.currRoot_eq.trans hr) (hsoln.trans hh)]
      apply (hup True n x _ _ henter).mono
      exact fun t t' ht => ⟨ht.forget, fun _ => ht.flag trivial⟩

theorem optionalLoop_simulates (hp : Harmless G cb p q) (m : Nat) {x x' : Search × Outcome}
    (h : Simulates (fun t t' => Alike G p q f n t t' ∧
      (t.currRoot ≠ none → t'.clauseAccepted = t.clauseAccepted)) SameReport x x') :
    (optionalLoop cb p up' m x').2 = (optionalLoop cb q up m x).2 ∧
      Simulates (Alike G p q f n) SameReport (optionalLoop cb q up m x).1
        (optionalLoop cb p up' m x').1 := by
  induction m generalizing x x' with
  | zero => exact ⟨rfl, rfl, h.states, nofun⟩
  | succ m ih =>
    obtain ⟨s, o⟩ := x
    obtain ⟨s', o'⟩ := x'
    obtain ⟨ho, hreport, hgo⟩ := h
    obtain rfl : o' = o := ho
    unfold optionalLoop
    by_cases hcond : o' = .no ∧ s.clauseAccepted = false ∧ isOptional q s = true
    · obtain ⟨halike, hsame⟩ := hgo hcond.1
      have hcond' : o' = .no ∧ s'.clauseAccepted = false ∧ isOptional p s' = true :=
        ⟨hcond.1, (hsame (currRoot_of_isOptional hcond.2.2)).trans hcond.2.1,
          (isOptional_eq hp halike).trans hcond.2.2⟩
      rw [if_pos hcond, if_pos hcond', halike.twin.currPredHandle_eq]
      split
      · exact ⟨rfl, halike.ends _⟩
      · exact ih (solveNext_simulates hup ((halike.mark hp).next hp))
    · have hcond' : ¬ (o' = .no ∧ s'.clauseAccepted = false ∧ isOptional p s' = true) := by
        rintro ⟨rfl, hflag, hopt⟩
        obtain ⟨halike, hsame⟩ := hgo rfl
        rw [isOptional_eq hp halike] at hopt
        exact hcond ⟨rfl, (hsame (currRoot_of_isOptional hopt)).symm.trans hflag, hopt⟩
      rw [if_neg hcond, if_neg hcond']
      exact ⟨rfl, rfl, hreport, fun hn => (hgo hn).1⟩

theorem clauseUp_simulates (hp : Harmless G cb p q) (hr : r ∈ q.cnfClauses) {hsoln : Handle}
    (h : Alike G p q f n s s') :
    Simulates (Alike G p q f n) SameReport (clauseUp cb q up r hsoln s)
      (clauseUp cb p up' r hsoln s') := by
  unfold clauseUp
  rw [refused_eq hp hr, hp.cnfClauses]
  split
  · exact (h.note hp hr).ends _
  · have hnext := ((h.note hp hr).groundClause r hsoln).next hp
    obtain ⟨hflag, hloop⟩ := optionalLoop_simulates hup hp (q.cnfClauses.length + 1)
      (solveNext_simulates hup hnext)
    exact leaveClause_simulates hflag hloop

theorem predUp_simulates {x : Handle} (h : Alike G p q f (n + 1) s s') :
    Simulates (Alike G p q f (n + 1)) SameReport (predUp G up x s) (predUp G up' x s') := by
  by_cases hin : (s.currRoot.map fun r => isNodeInTree G (r + 1) r x).getD false = true
  · cases hsoln : s.currSolnHandle with
    | none =>
      rw [predUp_crashed hin hsoln, predUp_crashed (by rwa [h.currRoot_eq])
        (h.currSolnHandle_eq.trans hsoln)]
      exact ⟨rfl, h.twin.report, nofun⟩
    | some soln =>
      have hmoved : Alike G p q f (n + 1) { s with currPredHandle := some x }
          { s' with currPredHandle := some x } := by
        apply h.setPred
        intro a ha
        obtain rfl := Option.some.inj ha
        cases hr : s.currRoot with
        | none =>
          rw [hr] at hin
          cases hin
        | some r =>
          rw [hr] at hin
          exact ⟨r, h.placed.root r hr, inTree_of_isNodeInTree hin⟩
      have hloop := foreach_simulates (fun a (_ : a ∈ G.incoming soln) t t' ht =>
        hup f (n + 1) a t t' ht) (fun _ _ ht => ht.twin.report) hmoved
      rw [predUp_some hin hsoln, predUp_some (by rwa [h.currRoot_eq])
        (h.currSolnHandle_eq.trans hsoln), h.twin.currPredHandle_eq]
      exact after_simulates hloop (fun _ _ ht => ht.setPred h.placed.pred) fun _ _ e => e
  · rw [predUp_elsewhere hin, predUp_elsewhere (by rwa [h.currRoot_eq])]
    exact h.ends _

theorem moveUp_simulates {pred hsoln : Handle} (h : Alike G p q f n s s') :
    Simulates (Alike G p q f n) SameReport (moveUp G up pred hsoln s)
      (moveUp G up' pred hsoln s') := by
  rw [moveUp_eq, moveUp_eq]
  have hloop := foreach_simulates (fun a (_ : a ∈ G.incoming pred) t t' ht =>
    predUp_simulates hup ht (x := a)) (fun _ _ ht => ht.twin.report) (h.push hsoln)
  exact after_simulates hloop (fun _ _ ht => ht.pop) fun _ _ e => e

omit hup in
theorem Alike.compared (h : Alike G p q f n s s') {t t' : Search} (ht : s.OnlyVars t)
    (ht' : s'.OnlyVars t') (htwin : Twin p q t t') : Alike G p q f n t t' := by
  refine ⟨htwin, ?_, ?_, ?_⟩
  · rw [ht]
    exact ⟨h.placed.root, h.placed.pred, h.placed.roots, h.placed.preds⟩
  · rw [ht, ht']
    exact h.flag
  · rw [ht, ht']
    exact h.links

theorem doSolnUp_simulates (hp : Harmless G cb p q) {hsoln : Handle} (h : Alike G p q f n s s') :
    Simulates (Alike G p q f n) SameReport (doSolnUp G cb q up hsoln s)
      (doSolnUp G cb p up' hsoln s') := by
  unfold doSolnUp
  rw [h.currRoot_eq, h.twin.currPredHandle_eq]
  split
  · exact h.ends _
  · cases hpred : s.currPredHandle with
    | none => exact ⟨rfl, h.twin.report, nofun⟩
    | some pred =>
      obtain ⟨r, hr, hin⟩ := h.placed.pred pred hpred
      have hcompare : Simulates (Twin p q) (Twin p q) (treeCompare G cb q (pred + 1) pred hsoln s)
          (treeCompare G cb p (pred + 1) pred hsoln s') :=
        treeCompare_simulates hp hr (pred + 1) hin h.twin
      have honly : s.OnlyVars (treeCompare G cb q (pred + 1) pred hsoln s).1 :=
        (framed_treeCompare _ _ _ s).1
      have honly' : s'.OnlyVars (treeCompare G cb p (pred + 1) pred hsoln s').1 :=
        (framed_treeCompare _ _ _ s').1
      dsimp only
      generalize treeCompare G cb q (pred + 1) pred hsoln s = x at hcompare honly ⊢
      generalize treeCompare G cb p (pred + 1) pred hsoln s' = x' at hcompare honly' ⊢
      obtain ⟨t, o⟩ := x
      obtain ⟨t', o'⟩ := x'
      obtain ⟨ho, htwin, -⟩ := hcompare
      obtain rfl : o' = o := ho
      have ht : Alike G p q f n t t' := h.compared honly honly' htwin
      cases o' with
      | yes => exact ht.ends _
      | no =>
        dsimp only
        rw [ht.currRoot_eq]
        split
        · next htop => exact clauseUp_simulates hup hp (ht.placed.root pred htop) ht
        · exact moveUp_simulates hup ht
      | crashed => exact ht.ends _
      | spent => exact ht.ends _

end Walk

theorem solnUp_simulates (hp : Harmless G cb p q) (m : Nat) {f : Prop} {n : Nat} {hsoln : Handle}
    (h : Alike G p q f n s s') :
    Simulates (Alike G p q f n) SameReport (solnUp G cb q m hsoln s)
      (solnUp G cb p m hsoln s') := by
  induction m generalizing f n hsoln s s' with
  | zero => exact h.ends _
  | succ m ih =>
    have hpushed : Alike G p q f n s.pushVars s'.pushVars :=
      h.compared s.onlyVars_pushVars s'.onlyVars_pushVars h.twin.pushVars
    have hup : ∀ f n h s s', Alike G p q f n s s' →
        Simulates (Alike G p q f n) SameReport (solnUp G cb q m h s) (solnUp G cb p m h s') :=
      fun _ _ _ _ _ ht => ih ht
    have hbody : Simulates (Alike G p q f n) SameReport
        (doSolnUp G cb q (solnUp G cb q m) hsoln s.pushVars)
        (doSolnUp G cb p (solnUp G cb p m) hsoln s'.pushVars) :=
      doSolnUp_simulates hup hp hpushed
    unfold solnUp
    generalize doSolnUp G cb q (solnUp G cb q m) hsoln s.pushVars = x at hbody ⊢
    generalize doSolnUp G cb p (solnUp G cb p m) hsoln s'.pushVars = x' at hbody ⊢
    obtain ⟨t, o⟩ := x
    obtain ⟨t', o'⟩ := x'
    obtain ⟨ho, hreport, hgo⟩ := hbody
    obtain rfl : o' = o := ho
    cases o' with
    | yes => exact ⟨rfl, hreport, fun h => by cases h⟩
    | no =>
      have ht := hgo rfl
      exact (ht.compared t.onlyVars_popTopVars t'.onlyVars_popTopVars ht.twin.popTopVars).ends _
    | crashed => exact ⟨rfl, hreport, fun h => by cases h⟩
    | spent => exact ⟨rfl, hreport, fun h => by cases h⟩

/-! ## A search -/

theorem starting_alike {first : Handle} {starter : Option Handle} (hfirst : first ∈ q.cnfClauses)
    (hstarter : ∀ h, starter = some h → G.InTree first h) (h : SameReport s s') :
    Alike G p q False 0 (starting first starter s) (starting first starter s') := by
  refine ⟨⟨⟨s'.currSolnHandle, [], s'.clauseAccepted, ?_⟩, clean_empty, nofun⟩, ⟨?_, ?_, nofun, nofun⟩,
    nofun, [], s.currSolnHandle, s'.currSolnHandle, Nat.le_refl 0, rfl, rfl⟩
  · unfold starting Search.withSolns
    rw [show s'.reported = s.reported from h]
  · intro r hr
    exact Option.some.inj hr ▸ hfirst
  · intro x hx
    exact ⟨first, hfirst, hstarter x hx⟩

theorem candidates_simulates (hp : Harmless G cb p q) {first : Handle} {starter : Option Handle}
    (hfirst : first ∈ q.cnfClauses) (hstarter : ∀ h, starter = some h → G.InTree first h)
    (candidates : List Handle) (h : SameReport s s') :
    Simulates SameReport SameReport (foreach (doCandidate G cb q first starter) candidates s)
      (foreach (doCandidate G cb p first starter) candidates s') := by
  refine foreach_simulates (fun ah _ t t' ht => ?_) (fun _ _ e => e) h
  rw [doCandidate_eq, doCandidate_eq]
  have hbound : searchBound p = searchBound q := by rw [searchBound, searchBound, hp.cnfClauses]
  rw [hbound]
  exact (solnUp_simulates hp (searchBound q) (starting_alike hfirst hstarter ht)).mono
    fun _ _ e => e.twin.report

/-- The link entered last, where the search for a node starts, is a part of the clause. -/
theorem findStarter_inTree {n : Nat} {h : Handle} {pred : Option Handle} {x : Handle}
    (hx : (DefaultPatternMatchCB.findStarter G n h pred).2 = some x) :
    pred = some x ∨ G.InTree h x := by
  induction n generalizing h pred x with
  | zero => exact .inl hx
  | succ n ih =>
    unfold DefaultPatternMatchCB.findStarter at hx
    split at hx
    · right
      have hfold : ∀ (hs : List Handle) (y : Option Handle × Option Handle),
          (∀ h' ∈ hs, h' ∈ G.outgoing h) → (∀ x, y.2 = some x → G.InTree h x) →
          ∀ x, (hs.foldl (fun r hout => if r.1.isSome then r
            else DefaultPatternMatchCB.findStarter G n hout r.2) y).2 = some x → G.InTree h x := by
        intro hs
        induction hs with
        | nil => exact fun y _ hy => hy
        | cons h' hs ihs =>
          intro y hmem hy
          rw [List.foldl_cons]
          refine ihs _ (fun z hz => hmem z (List.mem_cons_of_mem h' hz)) fun x hx => ?_
          split at hx
          · exact hy x hx
          · rcases ih hx with e | hin
            · exact hy x e
            · exact .member (hmem h' List.mem_cons_self) hin
      refine hfold (G.outgoing h) (none, some h) (fun _ hm => hm) ?_ x hx
      intro z hz
      exact Option.some.inj hz ▸ .self h
    · split at hx
      · exact .inl hx
      · exact .inl hx

theorem performSearch_simulates (hp : Harmless G cb p q) {vars clauses : List Handle}
    (hclauses : ∀ r ∈ clauses, r ∈ q.cnfClauses) (h : SameReport s s') :
    Simulates SameReport SameReport (performSearch G cb q vars clauses s)
      (performSearch G cb p vars clauses s') := by
  unfold performSearch
  cases clauses with
  | nil => exact ⟨rfl, h, nofun⟩
  | cons first rest =>
    have hfirst := hclauses first List.mem_cons_self
    have hself : ∀ x, some first = some x → G.InTree first x := by
      intro x hx
      exact Option.some.inj hx ▸ .self first
    dsimp only
    split
    · exact ⟨rfl, h, nofun⟩
    · split
      · next start starterPred hstart =>
        split
        · refine candidates_simulates hp hfirst (fun x hx => ?_) _ h
          have hx' : (DefaultPatternMatchCB.findStarter G (first + 1) first none).2 = some x := by
            rw [hstart]
            exact hx
          rcases findStarter_inTree hx' with e | hin
          · cases e
          · exact hin
        · exact candidates_simulates hp hfirst hself _ h
      · exact candidates_simulates hp hfirst hself _ h

/-! ## The pattern of a used engine -/

/-- What is noted for an atom is so because of its place in the clause. -/
def NotedFor (P : Handle → Handle → Prop) (m : RootMap) : Prop :=
  ∀ a roots, (a, roots) ∈ m → ∀ r ∈ roots, P r a

theorem notedFor_pushRoot {P : Handle → Handle → Prop} {h root : Handle} (hP : P root h) {m : RootMap}
    (hm : NotedFor P m) : NotedFor P (pushRoot h root m) := by
  have hnew : ∀ r ∈ [root], P r h := fun r hr => List.mem_singleton.mp hr ▸ hP
  induction m with
  | nil =>
    intro a roots hmem
    obtain ⟨rfl, rfl⟩ := Prod.mk.inj (List.mem_singleton.mp hmem)
    exact hnew
  | cons k m ih =>
    obtain ⟨b, others⟩ := k
    have hrest := ih fun a roots hmem => hm a roots (List.mem_cons_of_mem _ hmem)
    unfold pushRoot
    split
    · intro a roots hmem
      rcases List.mem_cons.mp hmem with e | hmem
      · obtain ⟨rfl, rfl⟩ := Prod.mk.inj e
        exact hnew
      · exact hm a roots hmem
    · split
      · next e =>
        intro a roots hmem r hr
        rcases List.mem_cons.mp hmem with e' | hmem
        · obtain ⟨rfl, rfl⟩ := Prod.mk.inj e'
          rcases List.mem_append.mp hr with hr | hr
          · exact hm a others List.mem_cons_self r hr
          · exact e ▸ hnew r hr
        · exact hm a roots (List.mem_cons_of_mem _ hmem) r hr
      · intro a roots hmem
        rcases List.mem_cons.mp hmem with e | hmem
        · obtain ⟨rfl, rfl⟩ := Prod.mk.inj e
          exact hm a roots List.mem_cons_self
        · exact hrest a roots hmem

theorem notedFor_noteRoot {P : Handle → Handle → Prop} {root : Handle} (n : Nat) {h : Handle}
    (hP : ∀ x, G.InTree h x → P root x) {m : RootMap} (hm : NotedFor P m) :
    NotedFor P (noteRoot G root n h m) := by
  induction n generalizing h m with
  | zero => exact hm
  | succ n ih =>
    have hfold : ∀ (hs : List Handle) (m : RootMap), (∀ x ∈ hs, x ∈ G.outgoing h) → NotedFor P m →
        NotedFor P (hs.foldl (fun m x => noteRoot G root n x m) m) := by
      intro hs
      induction hs with
      | nil => exact fun m _ hm => hm
      | cons x hs ihs =>
        intro m hmem hm
        have hx : ∀ y, G.InTree x y → P root y :=
          fun y hy => hP y (.member (hmem x List.mem_cons_self) hy)
        exact ihs _ (fun y hy => hmem y (List.mem_cons_of_mem x hy)) (ih hx hm)
    exact hfold (G.outgoing h) _ (fun _ hx => hx) (notedFor_pushRoot (hP h (.self h)) hm)

/-- A clause is noted for the atoms in its tree. -/
theorem roots_pattern (e : Engine) (vars clauses negations : List Handle) :
    NotedFor (fun r a => r ∈ clauses ++ negations ∧ G.InTree r a)
      (e.pattern G vars clauses negations).rootMap := by
  have hfold : ∀ (rs : List Handle) (m : RootMap), (∀ r ∈ rs, r ∈ clauses ++ negations) →
      NotedFor (fun r a => r ∈ clauses ++ negations ∧ G.InTree r a) m →
      NotedFor (fun r a => r ∈ clauses ++ negations ∧ G.InTree r a)
        (rs.foldl (fun m r => noteRoot G r (r + 1) r m) m) := by
    intro rs
    induction rs with
    | nil => exact fun m _ hm => hm
    | cons r rs ih =>
      intro m hmem hm
      refine ih _ (fun x hx => hmem x (List.mem_cons_of_mem r hx)) ?_
      exact notedFor_noteRoot (r + 1) (fun x hx => ⟨hmem r List.mem_cons_self, hx⟩) hm
  exact hfold _ [] (fun _ hr => hr) nofun

/-- The variables and negations of earlier calls do not disturb this one: no negation of theirs
is among its clauses unless it is negated here as well, and no variable of theirs that is none of
its own stands in a clause or may ground a variable that does. -/
structure Undisturbed (G : AtomGraph) (cb : PatternMatchCallback)
    (oldVars oldNegations vars affirm negate : List Handle) : Prop where
  negations : ∀ r ∈ affirm, r ∈ oldNegations → r ∈ negate
  absent : ∀ x ∈ oldVars, x ∉ vars → ∀ r ∈ affirm ++ negate, ¬ G.InTree r x
  rejected : ∀ x ∈ oldVars, x ∉ vars → ∀ v ∈ vars, ∀ r ∈ affirm ++ negate, G.InTree r v →
    G.isNode v = true → G.isNode x = true → cb.variableMatch v x = true

section Match
variable {vars affirm negate : List Handle}

theorem Undisturbed.harmless {e : Engine}
    (h : Undisturbed G cb e.boundVars e.optionals vars affirm negate) :
    Harmless G cb (e.pattern G vars affirm negate)
      ((Engine.new e.invalidGrounding).pattern G vars affirm negate) where
  cnfClauses := rfl
  rootMap := rfl
  invalidGrounding := rfl
  optionals r hr := by
    simp only [Engine.pattern, Engine.new, List.nil_append, List.mem_append]
    refine or_iff_right_of_imp fun hold => ?_
    rcases List.mem_append.mp hr with hc | hn
    · exact h.negations r hc hold
    · exact hn
  boundVars r hr x hin := by
    simp only [Engine.pattern, Engine.new, List.nil_append, List.mem_append]
    refine or_iff_right_of_imp fun hold => ?_
    by_contra hx
    exact h.absent x hold hx r hr hin
  more x hx := by
    simp only [Engine.pattern, Engine.new, List.nil_append] at hx
    exact List.mem_append_right _ hx
  rejected r hr v hv hin x hx hnot := by
    simp only [Engine.pattern, Engine.new, List.nil_append] at hv hnot
    have hold : x ∈ e.boundVars := (List.mem_append.mp hx).resolve_right hnot
    exact h.rejected x hold hnot v hv r hr hin
  roots := roots_pattern _ vars affirm negate

theorem runMatch_eq_new {e : Engine}
    (h : Undisturbed G cb e.boundVars e.optionals vars affirm negate) :
    (e.runMatch G cb vars affirm negate).1.solutions =
      ((Engine.new e.invalidGrounding).runMatch G cb vars affirm negate).1.solutions := by
  have hclauses : ∀ r ∈ affirm,
      r ∈ ((Engine.new e.invalidGrounding).pattern G vars affirm negate).cnfClauses :=
    fun r hr => List.mem_append_left negate hr
  have hsearch : ∀ s s', SameReport s s' →
      (performSearch G cb (e.pattern G vars affirm negate) vars affirm s').1.reported =
        (performSearch G cb ((Engine.new e.invalidGrounding).pattern G vars affirm negate) vars affirm
          s).1.reported :=
    fun s s' hs => (performSearch_simulates h.harmless hclauses hs).states
  unfold Engine.runMatch Engine.solutions
  dsimp only
  split
  · rfl
  · exact hsearch _ _ rfl

end Match

/-! ## Sequences of calls -/

/-- A call of `match`, of the engine or of the class around it. -/
inductive Query where
  | engine (vars clauses negations : List Handle)
  | patternMatch (hvarbles hclauses hnegates : Handle)

/-- The variables, clauses and negations the engine is called with, if it is. -/
def Query.arguments (G : AtomGraph) : Query → Option (List Handle × List Handle × List Handle)
  | .engine vars clauses negations => some (vars, clauses, negations)
  | .patternMatch hvarbles hclauses hnegates =>
    PatternMatch.matchArguments G hvarbles hclauses hnegates

/-- The engine after a call, and what the call reports. -/
def Engine.ask (G : AtomGraph) (e : Engine) (cb : PatternMatchCallback) (query : Query) :
    Engine × List Solution :=
  (query.arguments G).elim (e, []) fun a =>
    let e' := (e.runMatch G cb a.1 a.2.1 a.2.2).1
    (e', e'.solutions)

def Engine.askAll (G : AtomGraph) (e : Engine) (history : List (PatternMatchCallback × Query)) :
    Engine :=
  history.foldl (fun e a => (e.ask G a.1 a.2).1) e

def pastVars (G : AtomGraph) (history : List (PatternMatchCallback × Query)) : List Handle :=
  history.flatMap fun a => (a.2.arguments G).elim [] fun a => a.1

def pastNegations (G : AtomGraph) (history : List (PatternMatchCallback × Query)) : List Handle :=
  history.flatMap fun a => (a.2.arguments G).elim [] fun a => a.2.2

/-- Nothing else is kept than the variables and the negations. -/
theorem ask_keeps (e : Engine) (cb : PatternMatchCallback) (query : Query) :
    (e.ask G cb query).1.boundVars = e.boundVars ++ pastVars G [(cb, query)] ∧
      (e.ask G cb query).1.optionals = e.optionals ++ pastNegations G [(cb, query)] ∧
      (e.ask G cb query).1.invalidGrounding = e.invalidGrounding := by
  simp only [Engine.ask, pastVars, pastNegations, List.flatMap_cons, List.flatMap_nil,
    List.append_nil]
  cases query.arguments G with
  | none => simp
  | some a => exact ⟨rfl, rfl, rfl⟩

theorem askAll_keeps (e : Engine) (history : List (PatternMatchCallback × Query)) :
    (e.askAll G history).boundVars = e.boundVars ++ pastVars G history ∧
      (e.askAll G history).optionals = e.optionals ++ pastNegations G history ∧
      (e.askAll G history).invalidGrounding = e.invalidGrounding := by
  induction history generalizing e with
  | nil => simp [Engine.askAll, pastVars, pastNegations]
  | cons a history ih =>
    obtain ⟨hvars, hnegations, hinvalid⟩ := ask_keeps (G := G) e a.1 a.2
    obtain ⟨hvars', hnegations', hinvalid'⟩ := ih (e.ask G a.1 a.2).1
    refine ⟨hvars'.trans ?_, hnegations'.trans ?_, hinvalid'.trans hinvalid⟩
    · rw [hvars]
      simp [pastVars]
    · rw [hnegations]
      simp [pastNegations]

/-- A call that the calls before do not disturb reports what it reports on a fresh engine. -/
theorem queries_independent (G : AtomGraph) (inv : Handle)
    (history : List (PatternMatchCallback × Query)) (cb : PatternMatchCallback) (query : Query)
    (h : ∀ vars affirm negate, query.arguments G = some (vars, affirm, negate) →
      Undisturbed G cb (pastVars G history) (pastNegations G history) vars affirm negate) :
    (((Engine.new inv).askAll G history).ask G cb query).2 =
      ((Engine.new inv).ask G cb query).2 := by
  obtain ⟨hvars, hnegations, hinvalid⟩ := askAll_keeps (G := G) (Engine.new inv) history
  unfold Engine.ask
  cases ha : query.arguments G with
  | none => rfl
  | some a =>
    obtain ⟨vars, affirm, negate⟩ := a
    have hundisturbed : Undisturbed G cb ((Engine.new inv).askAll G history).boundVars
        ((Engine.new inv).askAll G history).optionals vars affirm negate := by
      rw [hvars, hnegations]
      exact h vars affirm negate ha
    have heq := runMatch_eq_new hundisturbed
    rw [hinvalid] at heq
    exact heq

/-- A query for `$x` in a list with `a` and not with `b`. -/
def negating : List (PatternMatchCallback × Query) := [(keepLooking, .engine [1] [5] [6])]

/-- After it `$x` in a list with `a` is found as before. -/
theorem oneList_independent :
    (((Engine.new 8).askAll oneList negating).ask oneList keepLooking (.engine [1] [5] [])).2 =
        ((Engine.new 8).ask oneList keepLooking (.engine [1] [5] [])).2 ∧
      ((Engine.new 8).ask oneList keepLooking (.engine [1] [5] [])).2.length = 1 := by
  refine ⟨queries_independent oneList 8 negating keepLooking (.engine [1] [5] []) ?_,
    by decide +kernel⟩
  intro vars affirm negate e
  obtain ⟨rfl, rfl, rfl⟩ : [1] = vars ∧ [5] = affirm ∧ [] = negate := by
    simpa [Query.arguments] using e
  exact ⟨by decide, fun x hx hnot => absurd hx hnot, fun x hx hnot => absurd hx hnot⟩

/-- After it the list with `b` may be missing though it is required. -/
theorem negation_kept_by_engine :
    ¬ ∀ (G : AtomGraph) (inv : Handle) (history : List (PatternMatchCallback × Query))
      (cb : PatternMatchCallback) (query : Query),
      (((Engine.new inv).askAll G history).ask G cb query).2 =
        ((Engine.new inv).ask G cb query).2 := by
  intro hall
  have heq := congrArg List.length (hall oneList 8 negating keepLooking (.engine [1] [5, 6] []))
  have hfresh : ((Engine.new 8).ask oneList keepLooking (.engine [1] [5, 6] [])).2.length = 0 := by
    decide +kernel
  have hused : (((Engine.new 8).askAll oneList negating).ask oneList keepLooking
      (.engine [1] [5, 6] [])).2.length = 1 := by
    decide +kernel
  rw [hfresh, hused] at heq
  cases heq

end PatternMatchEngine

end OpenCog
