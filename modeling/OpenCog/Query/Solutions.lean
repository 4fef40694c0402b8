import OpenCog.Query.Soundness

/-! What `match` reports. A solution grounds every required clause, and by the clause with its
variables replaced unless a link with a variable in it is met by itself. -/
namespace OpenCog

open Backtrack (Outcome foreach foreach_rule)

namespace PatternMatchEngine

variable {G : AtomGraph}

/-! ## The root map -/

/-- The clauses that are noted for an atom. -/
def rootsAt (m : RootMap) (a : Handle) : List Handle :=
  ((m.find? fun k => k.1 = a).map Prod.snd).getD []

def KeysSorted (m : RootMap) : Prop := m.Pairwise fun k l => k.1 < l.1

theorem mem_of_rootsAt {m : RootMap} {a r : Handle} (h : r ∈ rootsAt m a) :
    ∃ roots, (a, roots) ∈ m ∧ rootsAt m a = roots := by
  unfold rootsAt at h ⊢
  cases hf : m.find? fun k => k.1 = a with
  | none =>
    rw [hf] at h
    cases h
  | some k =>
    have hkey : k.1 = a := by simpa using List.find?_some hf
    exact ⟨k.2, hkey ▸ List.mem_of_find?_eq_some hf, rfl⟩

theorem rootsAt_cons (k : Handle × List Handle) (m : RootMap) (a : Handle) :
    rootsAt (k :: m) a = if k.1 = a then k.2 else rootsAt m a := by
  unfold rootsAt
  by_cases h : k.1 = a
  · simp [h]
  · simp [h]

theorem rootsAt_of_lt {m : RootMap} {a : Handle} (h : ∀ k ∈ m, a < k.1) : rootsAt m a = [] := by
  unfold rootsAt
  rw [List.find?_eq_none.mpr]
  · rfl
  · intro k hk
    simpa using Nat.ne_of_gt (h k hk)

theorem mem_pushRoot_key {h root : Handle} {m : RootMap} {k : Handle × List Handle}
    (hk : k ∈ pushRoot h root m) : k.1 = h ∨ ∃ l ∈ m, l.1 = k.1 := by
  induction m with
  | nil =>
    rw [pushRoot, List.mem_singleton] at hk
    exact .inl (congrArg Prod.fst hk)
  | cons l m ih =>
    obtain ⟨b, roots⟩ := l
    unfold pushRoot at hk
    split at hk
    · rcases List.mem_cons.mp hk with rfl | hk
      · exact .inl rfl
      · exact .inr ⟨k, hk, rfl⟩
    · split at hk
      · next e =>
        rcases List.mem_cons.mp hk with rfl | hk
        · exact .inl e.symm
        · exact .inr ⟨k, List.mem_cons_of_mem _ hk, rfl⟩
      · rcases List.mem_cons.mp hk with rfl | hk
        · exact .inr ⟨_, List.mem_cons_self, rfl⟩
        · rcases ih hk with e | ⟨l, hl, e⟩
          · exact .inl e
          · exact .inr ⟨l, List.mem_cons_of_mem _ hl, e⟩

theorem sorted_pushRoot (h root : Handle) {m : RootMap} (hs : KeysSorted m) :
    KeysSorted (pushRoot h root m) := by
  induction m with
  | nil => exact List.pairwise_singleton ..
  | cons l m ih =>
    obtain ⟨b, roots⟩ := l
    obtain ⟨hb, hm⟩ := List.pairwise_cons.mp hs
    unfold pushRoot
    split
    · next hlt =>
      refine List.pairwise_cons.mpr ⟨fun k hk => ?_, hs⟩
      rcases List.mem_cons.mp hk with rfl | hk
      · exact hlt
      · exact Nat.lt_trans hlt (hb k hk)
    · split
      · exact List.pairwise_cons.mpr ⟨hb, hm⟩
      · next hlt hne =>
        refine List.pairwise_cons.mpr ⟨fun k hk => ?_, ih hm⟩
        rcases mem_pushRoot_key hk with e | ⟨l, hl, e⟩
        · change b < k.1
          lia
        · exact e ▸ hb l hl

theorem rootsAt_pushRoot (h root : Handle) {m : RootMap} (hs : KeysSorted m) (a : Handle) :
    rootsAt (pushRoot h root m) a = rootsAt m a ++ if a = h then [root] else [] := by
  induction m with
  | nil =>
    rw [pushRoot, rootsAt_cons]
    by_cases e : a = h
    · simp [e, rootsAt]
    · simp [e, Ne.symm e]
  | cons l m ih =>
    obtain ⟨b, roots⟩ := l
    obtain ⟨hb, hm⟩ := List.pairwise_cons.mp hs
    unfold pushRoot
    split
    · next hlt =>
      rw [rootsAt_cons]
      by_cases e : a = h
      · subst e
        have hempty : rootsAt ((b, roots) :: m) a = [] := by
          apply rootsAt_of_lt
          intro k hk
          rcases List.mem_cons.mp hk with rfl | hk
          · exact hlt
          · exact Nat.lt_trans hlt (hb k hk)
        simp [hempty]
      · simp [e, Ne.symm e]
    · split
      · next e =>
        rw [rootsAt_cons, rootsAt_cons]
        by_cases ea : a = h
        · simp [ea, e]
        · simp [ea, ← e, Ne.symm ea]
      · next hlt hne =>
        rw [rootsAt_cons, rootsAt_cons]
        by_cases ea : b = a
        · simp [← ea, Ne.symm hne]
        · simp only [if_neg ea]
          exact ih hm

/-- What was noted stays noted. -/
def Notes (m m' : RootMap) : Prop := KeysSorted m' ∧ ∀ a, ∀ r ∈ rootsAt m a, r ∈ rootsAt m' a

theorem Notes.trans {m₁ m₂ m₃ : RootMap} (h : Notes m₁ m₂) (k : Notes m₂ m₃) : Notes m₁ m₃ :=
  ⟨k.1, fun a r hr => k.2 a r (h.2 a r hr)⟩

theorem notes_pushRoot (h root : Handle) {m : RootMap} (hs : KeysSorted m) :
    Notes m (pushRoot h root m) := by
  refine ⟨sorted_pushRoot h root hs, fun a r hr => ?_⟩
  rw [rootsAt_pushRoot h root hs]
  exact List.mem_append_left _ hr

theorem notes_foldl {α : Type} {f : RootMap → α → RootMap} (hf : ∀ m x, KeysSorted m → Notes m (f m x))
    (xs : List α) {m : RootMap} (hs : KeysSorted m) : Notes m (xs.foldl f m) := by
  induction xs generalizing m with
  | nil => exact ⟨hs, fun _ _ hr => hr⟩
  | cons x xs ih => exact (hf m x hs).trans (ih (hf m x hs).1)

theorem notes_noteRoot (root : Handle) (n : Nat) (h : Handle) {m : RootMap} (hs : KeysSorted m) :
    Notes m (noteRoot G root n h m) := by
  induction n generalizing h m with
  | zero => exact ⟨hs, fun _ _ hr => hr⟩
  | succ n ih =>
    have hpush := notes_pushRoot h root hs
    exact hpush.trans (notes_foldl (fun m x hm => ih x hm) _ hpush.1)

/-- Every atom of a clause is noted with the clause. -/
theorem mem_noteRoot {root : Handle} {n : Nat} {h a : Handle} (hn : h < n) (ha : G.InTree h a)
    {m : RootMap} (hs : KeysSorted m) : root ∈ rootsAt (noteRoot G root n h m) a := by
  induction n generalizing h m with
  | zero => exact absurd hn (Nat.not_lt_zero _)
  | succ n ih =>
    have hpush := notes_pushRoot h root hs
    have hkeep : ∀ m x, KeysSorted m → Notes m (noteRoot G root n x m) :=
      fun m x hm => notes_noteRoot root n x hm
    unfold noteRoot
    cases ha with
    | self =>
      apply (notes_foldl hkeep _ hpush.1).2
      rw [rootsAt_pushRoot _ root hs, if_pos rfl]
      exact List.mem_append_right _ (List.mem_singleton.mpr rfl)
    | @member _ x _ hx hin =>
      obtain ⟨before, after, hsplit⟩ := List.append_of_mem hx
      rw [hsplit, List.foldl_append, List.foldl_cons]
      have hbefore := notes_foldl hkeep before hpush.1
      have hlt : x < n := Nat.lt_of_lt_of_le (AtomGraph.lt_of_mem_outgoing hx) (Nat.le_of_lt_succ hn)
      apply (notes_foldl hkeep after (notes_noteRoot root n x hbefore.1).1).2
      exact ih hlt hin hbefore.1

/-- Two clauses that share an atom are noted for it in one entry. -/
theorem exists_entry {clauses : List Handle} {r r' a : Handle} (hr : r ∈ clauses)
    (hr' : r' ∈ clauses) (ha : G.InTree r a) (ha' : G.InTree r' a) :
    ∃ roots, (a, roots) ∈ clauses.foldl (fun m r => noteRoot G r (r + 1) r m) [] ∧
      r ∈ roots ∧ r' ∈ roots := by
  have hkeep : ∀ m x, KeysSorted m → Notes m (noteRoot G x (x + 1) x m) :=
    fun m x hm => notes_noteRoot x (x + 1) x hm
  have hmem : ∀ x ∈ clauses, G.InTree x a →
      x ∈ rootsAt (clauses.foldl (fun m r => noteRoot G r (r + 1) r m) []) a := by
    intro x hx hin
    obtain ⟨before, after, rfl⟩ := List.append_of_mem hx
    rw [List.foldl_append, List.foldl_cons]
    have hbefore := notes_foldl hkeep before (List.Pairwise.nil : KeysSorted [])
    apply (notes_foldl hkeep after (hkeep _ x hbefore.1).1).2
    exact mem_noteRoot (Nat.lt_succ_self x) hin hbefore.1
  obtain ⟨roots, hentry, hroots⟩ := mem_of_rootsAt (hmem r hr ha)
  exact ⟨roots, hentry, hroots ▸ hmem r hr ha, hroots ▸ hmem r' hr' ha'⟩

/-! ## A run of match -/

/-- Each clause is reached from the first one through clauses that share an atom. -/
def Connected (G : AtomGraph) (clauses : List Handle) : Prop :=
  ∀ first rest, clauses = first :: rest → ∀ r ∈ clauses,
    Relation.ReflTransGen (fun a b => b ∈ clauses ∧ ∃ x, G.InTree a x ∧ G.InTree b x) first r

section Run
variable {cb : PatternMatchCallback} {restrictions : DefaultPatternMatchCB.VariableTypeMap}
  {p : Pattern}

theorem sound_starting {first : Handle} {starter : Option Handle} (s : Search) :
    Sound G cb p first (starting first starter s) := by
  refine ⟨.refl _, ?_, ?_, ?_, List.mem_singleton.mpr rfl, ?_⟩
  · intro x _ g h
    cases h
  · intro r g h
    cases h
  · intro r g h
    cases h
  · intro r hr _ hroot
    exact absurd (congrArg some (List.mem_singleton.mp hr).symm) hroot

/-- All that a loop over candidates reports is good. -/
theorem candidates_sound (hd : DefaultMatching G restrictions cb) {first : Handle}
    {starter : Option Handle} {candidates : List Handle} {s : Search}
    (hs : Reported G cb p first s) :
    Reported G cb p first (foreach (doCandidate G cb p first starter) candidates s).1 := by
  have hcall : ∀ ah t, Reported G cb p first t →
      Reported G cb p first (doCandidate G cb p first starter ah t).1 := by
    intro ah t ht
    rw [doCandidate_eq]
    exact solnUp_sound hd _ ah _ (sound_starting t) (ht.of_eq rfl)
  exact (foreach_rule (P := Reported G cb p first) (K := fun r => Reported G cb p first r.1)
    (fun ah _ t ht => ⟨hcall ah t ht, fun _ => hcall ah t ht⟩) (fun _ ht => ht) hs).1

theorem performSearch_sound (hd : DefaultMatching G restrictions cb) {first : Handle}
    {rest vars : List Handle} {s : Search} (hs : Reported G cb p first s) :
    Reported G cb p first (performSearch G cb p vars (first :: rest) s).1 := by
  unfold performSearch
  dsimp only
  split
  · exact hs
  · split
    · split
      · exact candidates_sound hd hs
      · exact candidates_sound hd hs
    · exact candidates_sound hd hs

/-- The solutions a fresh engine reports. -/
theorem runMatch_good (hd : DefaultMatching G restrictions cb) {inv first : Handle}
    {vars rest negations : List Handle} :
    ∀ sol ∈ ((Engine.new inv).runMatch G cb vars (first :: rest) negations).1.solutions,
      Good G cb ((Engine.new inv).pattern G vars (first :: rest) negations) first sol := by
  have hstart : ∀ s : Search, s.reported = [] →
      Reported G cb ((Engine.new inv).pattern G vars (first :: rest) negations) first s := by
    intro s h sol hsol
    rw [h] at hsol
    cases hsol
  have hlen : (first :: rest ++ negations).length ≠ 0 := by simp
  intro sol hsol
  simp only [Engine.runMatch, Engine.solutions, if_neg hlen] at hsol
  exact performSearch_sound hd (hstart _ rfl) sol hsol

/-- Without clauses nothing is reported. -/
theorem solutions_nil (e : Engine) (vars negations : List Handle) :
    (e.runMatch G cb vars [] negations).1.solutions = [] := by
  simp only [Engine.runMatch, Engine.solutions, performSearch]
  split
  · rfl
  · rfl

/-- In a good solution of connected clauses each required one has its grounding. -/
theorem Good.all_grounded {inv first : Handle} {vars rest negations : List Handle} {sol : Solution}
    (h : Good G cb ((Engine.new inv).pattern G vars (first :: rest) negations) first sol)
    (hconn : Connected G (first :: rest)) (hdisj : ∀ r ∈ first :: rest, r ∉ negations) :
    ∀ r ∈ first :: rest, ∃ g, sol.predSoln r = some g ∧ g ≠ r ∧ Matches G vars sol.varSoln r g := by
  have hreq : ∀ r ∈ first :: rest,
      r ∉ ((Engine.new inv).pattern G vars (first :: rest) negations).optionals := by
    intro r hr hopt
    exact hdisj r hr (by simpa [Engine.pattern, Engine.new] using hopt)
  have hsome : ∀ r, Relation.ReflTransGen
      (fun a b => b ∈ first :: rest ∧ ∃ x, G.InTree a x ∧ G.InTree b x) first r →
      r ∈ first :: rest ∧ sol.predSoln r ≠ none := by
    intro r hreach
    induction hreach with
    | refl => exact ⟨List.mem_cons_self, h.first (hreq first List.mem_cons_self)⟩
    | tail _ hstep ih =>
      obtain ⟨hb, x, ha, hx⟩ := hstep
      obtain ⟨roots, hentry, hra, hrb⟩ := exists_entry (List.mem_append_left negations ih.1)
        (List.mem_append_left negations hb) ha hx
      exact ⟨hb, h.closed x roots hentry _ hra ih.2 _ hrb (hreq _ hb)⟩
  intro r hr
  obtain ⟨-, hne⟩ := hsome r (hconn first rest rfl r hr)
  obtain ⟨g, hg⟩ := Option.ne_none_iff_exists'.mp hne
  refine ⟨g, hg, ?_⟩
  rcases h.met r g hg with hmet | ⟨hopt, -⟩
  · exact ⟨hmet.1, by simpa [Engine.pattern, Engine.new] using hmet.2⟩
  · exact absurd hopt (hreq r hr)

/-- What a solution says: each required clause is grounded by another atom, which is the clause
with its grounded variables replaced, and the variables are grounded by nodes that may stand for
them. -/
structure Grounds (G : AtomGraph) (restrictions : DefaultPatternMatchCB.VariableTypeMap)
    (vars clauses : List Handle) (sol : Solution) : Prop where
  clauses : ∀ r ∈ clauses, ∃ g, sol.predSoln r = some g ∧ (G.atom g).isSome ∧ g ≠ r ∧
    Instance G vars sol.varSoln r g
  vars : Admissible G vars (DefaultPatternMatchCB.variableMatch G restrictions) sol.varSoln

/-- Atoms that ground the clauses together, as far as comparing each with its clause tells. -/
structure Candidates (G : AtomGraph) (restrictions : DefaultPatternMatchCB.VariableTypeMap)
    (vars clauses : List Handle) (V : SolnMap) (grounds : Handle → Handle) : Prop where
  admissible : Admissible G vars (DefaultPatternMatchCB.variableMatch G restrictions) V
  matched : ∀ r ∈ clauses, grounds r ≠ r ∧ Matches G vars V r (grounds r)

/-- In no such atoms does a link that holds a grounded variable stand for itself. -/
def NoneStale (G : AtomGraph) (restrictions : DefaultPatternMatchCB.VariableTypeMap)
    (vars clauses : List Handle) : Prop :=
  ∀ V grounds, Candidates G restrictions vars clauses V grounds →
    ∀ r ∈ clauses, ¬ Stale G vars V r (grounds r)

/-- In no such atoms does a link that holds a bound variable stand for itself. -/
def NoneFrozen (G : AtomGraph) (restrictions : DefaultPatternMatchCB.VariableTypeMap)
    (vars clauses : List Handle) : Prop :=
  ∀ V grounds, Candidates G restrictions vars clauses V grounds →
    ∀ r ∈ clauses, ¬ Frozen G vars r (grounds r)

section Results
variable {solution : List Solution → Solution → Bool} {inv : Handle}
  {vars clauses negations : List Handle} {sol : Solution}

/-- A solution of connected clauses matches them. -/
theorem solution_candidates (hconn : Connected G clauses) (hdisj : ∀ r ∈ clauses, r ∉ negations)
    (hsol : sol ∈ ((Engine.new inv).runMatch G
      (DefaultPatternMatchCB.callback G restrictions solution) vars clauses negations).1.solutions) :
    ∃ grounds, Candidates G restrictions vars clauses sol.varSoln grounds ∧
      ∀ r ∈ clauses, sol.predSoln r = some (grounds r) := by
  have hd := DefaultPatternMatchCB.defaultMatching G restrictions solution
  cases clauses with
  | nil =>
    rw [solutions_nil] at hsol
    cases hsol
  | cons first rest =>
    have hgood := runMatch_good hd sol hsol
    have hall := hgood.all_grounded hconn hdisj
    refine ⟨fun r => (sol.predSoln r).getD inv, ⟨?_, fun r hr => ?_⟩, fun r hr => ?_⟩
    · simpa [Engine.pattern, Engine.new, DefaultPatternMatchCB.callback] using hgood.admissible
    · obtain ⟨g, hg, hne, hm⟩ := hall r hr
      rw [hg]
      exact ⟨hne, hm⟩
    · obtain ⟨g, hg, -⟩ := hall r hr
      simp only [hg, Option.getD_some]

/-- Soundness: where no link with a grounded variable can stand for itself, every solution grounds
the clauses by their instances. -/
theorem solutions_sound (G : AtomGraph) (restrictions : DefaultPatternMatchCB.VariableTypeMap)
    (solution : List Solution → Solution → Bool) (inv : Handle)
    {vars clauses negations : List Handle} (hconn : Connected G clauses)
    (hdisj : ∀ r ∈ clauses, r ∉ negations) (hnone : NoneStale G restrictions vars clauses) :
    ∀ sol ∈ ((Engine.new inv).runMatch G (DefaultPatternMatchCB.callback G restrictions solution)
      vars clauses negations).1.solutions, Grounds G restrictions vars clauses sol := by
  intro sol hsol
  obtain ⟨grounds, hc, hpred⟩ := solution_candidates hconn hdisj hsol
  refine ⟨fun r hr => ?_, hc.admissible⟩
  obtain ⟨hne, hm⟩ := hc.matched r hr
  exact ⟨grounds r, hpred r hr, hm.stored hc.admissible, hne,
    (hm.instance_iff hc.admissible).mpr (hnone _ grounds hc r hr)⟩

/-- A solution leaves no bound variable of the required clauses open. -/
structure Total (G : AtomGraph) (vars clauses : List Handle) (sol : Solution) : Prop where
  grounded : ∀ r ∈ clauses, ∀ x ∈ vars, G.InTree r x → ∃ g, sol.varSoln x = some g
  free : ∀ r ∈ clauses, ∀ g, sol.predSoln r = some g → ∀ x ∈ vars, ¬ G.InTree g x

theorem solutions_total (G : AtomGraph) (restrictions : DefaultPatternMatchCB.VariableTypeMap)
    (solution : List Solution → Solution → Bool) (inv : Handle)
    {vars clauses negations : List Handle} (hconn : Connected G clauses)
    (hdisj : ∀ r ∈ clauses, r ∉ negations) (hnodes : ∀ x ∈ vars, G.isLink x = false)
    (hnone : NoneFrozen G restrictions vars clauses) :
    ∀ sol ∈ ((Engine.new inv).runMatch G (DefaultPatternMatchCB.callback G restrictions solution)
      vars clauses negations).1.solutions, Total G vars clauses sol := by
  intro sol hsol
  obtain ⟨grounds, hc, hpred⟩ := solution_candidates hconn hdisj hsol
  refine ⟨fun r hr => ?_, fun r hr g hg => ?_⟩
  · obtain ⟨-, hm⟩ := hc.matched r hr
    exact hm.grounded hc.admissible (hnone _ grounds hc r hr)
  · obtain ⟨-, hm⟩ := hc.matched r hr
    obtain rfl := Option.some.inj (hg.symm.trans (hpred r hr))
    exact hm.free hnodes hc.admissible (hnone _ grounds hc r hr)

end Results

end Run

/-! ## A link met by itself -/

/-- A link met by itself stands inside the clause, not at its top. -/
theorem not_frozen_of_flat {vars : List Handle} {r g : Handle} (hne : g ≠ r)
    (hflat : ∀ x ∈ G.outgoing r, G.isLink x = false) : ¬ Frozen G vars r g := by
  intro hf
  cases hf with
  | same _ _ _ => exact hne rfl
  | inside hatom _ hxy hf =>
    have hx := hflat _ (by rw [AtomGraph.outgoing_of_atom hatom]; exact (List.of_mem_zip hxy).1)
    cases hf with
    | same _ hlink _ =>
      rw [hx] at hlink
      cases hlink
    | inside hatom' _ _ _ =>
      rw [AtomGraph.isLink_of_atom hatom'] at hx
      cases hx

theorem connected_singleton (r : Handle) : Connected G [r] := by
  intro first rest e r' hr'
  obtain ⟨rfl, -⟩ := List.cons_eq_cons.mp e
  rw [List.mem_singleton.mp hr']

/-- The solutions for `$x` in a list with `a`. -/
def listSolutions : List Solution :=
  ((Engine.new 8).runMatch oneList keepLooking [1] [5] []).1.solutions

theorem oneList_flat : ∀ r ∈ [5], ∀ x ∈ oneList.outgoing r, oneList.isLink x = false := by
  decide

theorem oneList_sound :
    listSolutions.length = 1 ∧
      ∀ sol ∈ listSolutions, Grounds oneList (fun _ => none) [1] [5] sol :=
  ⟨by decide +kernel, solutions_sound oneList (fun _ => none) (fun _ _ => false) 8
    (connected_singleton 5) (by decide) fun _ _ hc r hr hs =>
      not_frozen_of_flat (hc.matched r hr).1 (oneList_flat r hr) hs.frozen⟩

theorem oneList_total :
    listSolutions.length = 1 ∧ ∀ sol ∈ listSolutions, Total oneList [1] [5] sol :=
  ⟨by decide +kernel, solutions_total oneList (fun _ => none) (fun _ _ => false) 8
    (connected_singleton 5) (by decide) (by decide) fun _ _ hc r hr =>
      not_frozen_of_flat (hc.matched r hr).1 (oneList_flat r hr)⟩

/-- The list of `$x`, atom 4, is a member of the lists 5, 6 and 7; the other member is `$x`, `c`
and `$y`. -/
def sharedList : AtomGraph :=
  AtomGraph.ofList
    [(VARIABLE_NODE, .node "$x"), (VARIABLE_NODE, .node "$y"), (CONCEPT_NODE, .node "c"),
      (LIST_LINK, .link [1]), (LIST_LINK, .link [1, 4]), (LIST_LINK, .link [3, 4]),
      (LIST_LINK, .link [2, 4])]
    (by decide) (by decide)

def solutionsFor (vars clauses : List Handle) : List Solution :=
  ((Engine.new 8).runMatch sharedList
    (DefaultPatternMatchCB.callback sharedList (fun _ => none) fun _ _ => false)
    vars clauses []).1.solutions

/-- The list of `$x` with its list is grounded by the list of `c` with the list of `$x`, though
`$x` is grounded by `c`. -/
theorem shared_link_not_replaced :
    ¬ ∀ (G : AtomGraph) (restrictions : DefaultPatternMatchCB.VariableTypeMap)
      (solution : List Solution → Solution → Bool) (inv : Handle) (vars clauses : List Handle),
      ∀ sol ∈ ((Engine.new inv).runMatch G
        (DefaultPatternMatchCB.callback G restrictions solution) vars clauses []).1.solutions,
        Grounds G restrictions vars clauses sol := by
  intro hall
  have hrun : (solutionsFor [1] [5]).map (fun sol => (sol.predSoln 5, sol.varSoln 1)) =
      [(some 6, some 3)] := by decide +kernel
  obtain ⟨sol, hsols, hsol⟩ := List.map_eq_singleton_iff.mp hrun
  obtain ⟨hpred, hvar⟩ := Prod.mk.inj hsol
  have hg := hall sharedList (fun _ => none) (fun _ _ => false) 8 [1] [5] sol
    (by change sol ∈ solutionsFor [1] [5]; rw [hsols]; exact List.mem_singleton.mpr rfl)
  obtain ⟨g, hg, -, -, hinst⟩ := hg.clauses 5 (List.mem_singleton.mpr rfl)
  obtain rfl := Option.some.inj (hpred.symm.trans hg)
  have hself : ¬ Instance sharedList [1] sol.varSoln 1 1 := by
    rintro (⟨-, h⟩ | ⟨-, h⟩ | ⟨-, h, -⟩)
    · rw [hvar] at h
      cases h
    · rw [h (by decide)] at hvar
      cases hvar
    · cases h
  have hinner : ¬ Instance sharedList [1] sol.varSoln 4 4 := by
    rintro (⟨h, -⟩ | ⟨h, -⟩ | ⟨-, hop, hog, -, hall⟩)
    · exact absurd h (by decide)
    · cases h
    · cases hop
      cases hog
      exact hself (hall 1 1 (by decide))
  rcases hinst with ⟨h, -⟩ | ⟨-, -⟩ | ⟨-, hop, hog, -, hall⟩
  · exact absurd h (by decide)
  · cases hop
    cases hog
    exact hinner (hall 4 4 (by decide))

/-- The list of `$y` with the list of `$x` is grounded by the list of `c` with the list of `$x`,
and `$x` is left open. -/
theorem shared_link_left_open :
    ¬ ∀ (G : AtomGraph) (restrictions : DefaultPatternMatchCB.VariableTypeMap)
      (solution : List Solution → Solution → Bool) (inv : Handle) (vars clauses : List Handle),
      ∀ sol ∈ ((Engine.new inv).runMatch G
        (DefaultPatternMatchCB.callback G restrictions solution) vars clauses []).1.solutions,
        Total G vars clauses sol := by
  intro hall
  have hrun : (solutionsFor [1, 2] [7]).map (fun sol => (sol.predSoln 7, sol.varSoln 1)) =
      [(some 6, none)] := by decide +kernel
  obtain ⟨sol, hsols, hsol⟩ := List.map_eq_singleton_iff.mp hrun
  obtain ⟨-, hvar⟩ := Prod.mk.inj hsol
  have htotal := hall sharedList (fun _ => none) (fun _ _ => false) 8 [1, 2] [7] sol
    (by change sol ∈ solutionsFor [1, 2] [7]; rw [hsols]; exact List.mem_singleton.mpr rfl)
  have hin : sharedList.InTree 7 1 := .member (by decide : 4 ∈ sharedList.outgoing 7)
    (.member (by decide : 1 ∈ sharedList.outgoing 4) (.self 1))
  obtain ⟨g, hg⟩ := htotal.grounded 7 (List.mem_singleton.mpr rfl) 1 (by decide) hin
  rw [hvar] at hg
  cases hg

end PatternMatchEngine

end OpenCog
