import OpenCog.Comboreduct.ActionReduction
import OpenCog.Procedure.Performance
import OpenCog.Procedure.Rounds

/-! What a procedure that runs does to the world is what its tree says. -/
namespace OpenCog.Procedure

open Util Outcomes Comboreduct
open RunningComboProcedure (isBuiltinAtomicAction isBuiltinCompoundAction)

variable {A P X W E : Type} {M : World A P X W E} {compound : A → Bool} {loops : Bool}

/-! ## Nodes -/

/-- The procedure does what the node says, from wherever the node is in a tree. The atomic actions
of a sequence are sent together. -/
def Correct (M : World A P X W E) (compound : A → Bool) (loops : Bool) (t : Node A P X) : Prop :=
  ∀ fs c, (∀ f ∈ fs, Passable f) →
    (isBuiltinAtomicAction compound t = true →
      ∀ f ∈ fs.head?, f.parent.root ≠ .other .sequentialAnd) →
    At loops (some ⟨t, fs⟩) false c →
    (interpreter M compound).Passes 0 c (performs M t) (Exit loops fs)

section Builtins
variable {c : Config A P X W} {p p' : Position A P X} {fs : List (Frame A P X)}
  {plan : List (Node A P X)} {a : A} {b : Bool}

theorem exists_of_isBuiltinAtomicAction {t : Node A P X}
    (h : isBuiltinAtomicAction compound t = true) :
    ∃ a, t.root = .other (.builtinAction a) ∧ compound a = false := by
  unfold isBuiltinAtomicAction at h
  split at h
  · exact ⟨_, by assumption, by simpa using h⟩
  · cases h

theorem isBuiltinCompoundAction_eq {t : Node A P X} (h : t.root = .other (.builtinAction a)) :
    isBuiltinCompoundAction compound t = compound a := by
  simp only [isBuiltinCompoundAction, h]

theorem isBuiltinCompoundAction_of_ne {t : Node A P X}
    (h : ∀ a, t.root ≠ .other (.builtinAction a)) :
    ¬ isBuiltinCompoundAction compound t = true := by
  unfold isBuiltinCompoundAction
  split
  · exact absurd (by assumption) (h _)
  · decide

theorem isBuiltinAtomicAction_eq {t : Node A P X} (h : t.root = .other (.builtinAction a)) :
    isBuiltinAtomicAction compound t = !compound a := by
  simp only [isBuiltinAtomicAction, h]

variable (M compound) in
theorem round_visits (hroot : p.node.root ≠ .other .actionWhile)
    (hc : At loops (some p) b c)
    (hin : b = true → ∀ f ∈ p.frames.head?, f.parent.root ≠ .other .sequentialAnd) :
    c.round M compound =
      RunningComboProcedure.visit c.planFailed c.procedure compound M c.world p := by
  have hfailing : c.procedure.isFailed c.planFailed = b := hc.failing
  exact hc.round.trans (round_visit hroot (fun h => hin (hfailing.symm.trans h)) c.world)

theorem map_performs (h : ∀ t ∈ plan, isBuiltinAtomicAction compound t = true) :
    plan.map (performs M) = plan.map (Subtree.action M) := by
  apply List.map_congr_left
  intro t ht
  obtain ⟨a, hroot, -⟩ := exists_of_isBuiltinAtomicAction (h t ht)
  exact performs_builtin hroot

theorem round_builtin (hroot : p.node.root = .other (.builtinAction a))
    (hc : At loops (some p) b c)
    (hin : b = true → ∀ f ∈ p.frames.head?, f.parent.root ≠ .other .sequentialAnd) :
    c.round M compound = RunningComboProcedure.act c.procedure compound p := by
  rw [round_visits M compound (by rw [hroot]; simp) hc hin, RunningComboProcedure.visit, hroot]

theorem passes_plan (hfs : ∀ f ∈ fs, Passable f) (hc : At loops (some p) b c)
    (h : c.round M compound =
      some (.sends plan { c.procedure with it := after fs, hasBegun := true, failed := none })) :
    (interpreter M compound).Passes 1 c (andSeq (plan.map (Subtree.action M))) (Exit loops fs) := by
  refine passes_after hfs (passes_sends ?_ h fun q w => ⟨rfl, hc.compound, rfl, fun _ => rfl⟩)
  rw [hc.it]
  exact Option.some_ne_none p

/-- A compound action is left in the cycle after it has ended. -/
theorem passes_compound (hfs : ∀ f ∈ p.frames, Passable f)
    (hp : isBuiltinCompoundAction compound p.node = true) (hloops : loops = false)
    (hc : At loops (some p') b c)
    (hround : c.round M compound = RunningComboProcedure.act c.procedure compound p) :
    (interpreter M compound).Passes 1 c (p.node.action M) (Exit loops p.frames) := by
  have hsends : c.round M compound = some (.sends [p.node]
      { c.procedure with it := some p, hasBegun := true, inCompound := true }) := by
    rw [hround, RunningComboProcedure.act, if_pos hp]
  have hplan : (interpreter M compound).Passes 1 c (andSeq ([p.node].map (Subtree.action M)))
      fun q d => d.procedure =
        { c.procedure with it := some p, hasBegun := true, inCompound := true } ∧
        d.planFailed = !q := by
    refine passes_sends ?_ hsends fun q w => ⟨rfl, rfl⟩
    rw [hc.it]
    exact Option.some_ne_none p'
  rw [List.map_singleton, andSeq_cons, andSeq_nil, branch_self] at hplan
  apply passes_after hfs
  rw [← branch_self (p.node.action M)]
  refine hplan.branch fun q d hd => ?_
  have hleave : d.round M compound =
      some (.goesOn { d.procedure with inCompound := false, it := after p.frames }) := by
    rw [Config.round, hd.1, Option.bind_some, if_pos rfl, moveOn_eq hfs]
    rfl
  have hnone : d.procedure.failed = none := by rw [hd.1]; exact hc.plain hloops
  have hbegun : d.procedure.hasBegun = true := by rw [hd.1]
  have hat : At loops (after p.frames) (!q)
      { d with procedure := { d.procedure with inCompound := false, it := after p.frames } } := by
    refine ⟨rfl, rfl, ?_, fun _ => hnone⟩
    change d.procedure.failed.getD (d.procedure.hasBegun && d.planFailed) = !q
    rw [hnone, hbegun, hd.2]
    rfl
  have hhere : (interpreter M compound).Passes 0 _ (done q) fun q =>
      At loops (after p.frames) (!q) := .here (q := q) hat
  have hdone := (passes_move (.inl hleave) hhere).le (Nat.zero_le 1)
  cases q with
  | true => exact hdone
  | false => exact hdone

theorem act_atomic (ha : compound a = false) {f : Forest (ActionVertex A P X)}
    (hin : ∀ f ∈ fs.head?, f.parent.root ≠ .other .sequentialAnd)
    (s : RunningComboProcedure A P X) :
    RunningComboProcedure.act s compound ⟨⟨.other (.builtinAction a), f⟩, fs⟩ =
      (RunningComboProcedure.moveOn false { s with hasBegun := true, failed := none } fs).map
        (.sends [⟨.other (.builtinAction a), f⟩]) := by
  rw [RunningComboProcedure.act, if_neg (by simp [isBuiltinCompoundAction, ha])]
  split
  · rename_i hframes
    obtain rfl : fs = _ := hframes
    exact absurd rfl (hin _ rfl)
  · rfl

theorem passes_builtin {failing : Bool} (hfs : ∀ f ∈ fs, Passable f)
    (h : compound a = true → loops = false)
    (hin : failing = true ∨ compound a = false →
      ∀ f ∈ fs.head?, f.parent.root ≠ .other .sequentialAnd)
    {f : Forest (ActionVertex A P X)}
    (hc : At loops (some ⟨⟨.other (.builtinAction a), f⟩, fs⟩) failing c) :
    (interpreter M compound).Passes 1 c (Subtree.action M ⟨.other (.builtinAction a), f⟩)
      (Exit loops fs) := by
  have hround : c.round M compound = RunningComboProcedure.act c.procedure compound
      ⟨⟨.other (.builtinAction a), f⟩, fs⟩ := round_builtin rfl hc fun h => hin (.inl h)
  cases ha : compound a with
  | true =>
    exact @passes_compound _ _ _ _ _ M compound loops c ⟨⟨.other (.builtinAction a), f⟩, fs⟩ _ _
      hfs ha (h ha) hc hround
  | false =>
    have hsends : c.round M compound = some (.sends [⟨.other (.builtinAction a), f⟩]
        { c.procedure with it := after fs, hasBegun := true, failed := none }) := by
      rw [hround, act_atomic ha (hin (.inr ha)), moveOn_eq hfs]
      rfl
    have hplan := passes_plan hfs hc hsends
    rwa [List.map_singleton, andSeq_cons, andSeq_nil, branch_self] at hplan

theorem correct_builtin (a : A) (f : Forest (ActionVertex A P X))
    (h : compound a = true → loops = false) :
    Correct M compound loops ⟨.other (.builtinAction a), f⟩ := by
  intro fs c hfs hin hc
  rw [performs_builtin rfl]
  refine (passes_builtin hfs h (fun hor => hin ?_) hc).le (Nat.zero_le 1)
  rw [isBuiltinAtomicAction_eq rfl, hor.resolve_left (by decide)]
  rfl

end Builtins

section Sequences
variable {c : Config A P X W} {d : Forest (ActionVertex A P X)} {fs : List (Frame A P X)}
  {t : Node A P X} {i : Nat}

/-- The plan that a sequence sends, and where the iterator is left. -/
theorem act_sequence (hfs : ∀ f ∈ fs, Passable f)
    (htail : ∀ t ∈ (siblings d).tail, t.root ≠ .other .actionWhile)
    (hi : (siblings d)[i]? = some t) (ht : isBuiltinAtomicAction compound t = true)
    (s : RunningComboProcedure A P X) :
    ∃ j, i ≤ j ∧
      (∀ x ∈ ((siblings d).take (j + 1)).drop i, isBuiltinAtomicAction compound x = true) ∧
      RunningComboProcedure.act s compound ⟨t, ⟨⟨.other .sequentialAnd, d⟩, i⟩ :: fs⟩ =
        some (.sends (((siblings d).take (j + 1)).drop i) { s with
          it := after (⟨⟨.other .sequentialAnd, d⟩, j⟩ :: fs)
          hasBegun := true
          failed := none }) := by
  let plan := ((siblings d).drop i).takeWhile (isBuiltinAtomicAction compound)
  have hprefix : plan = ((siblings d).drop i).take plan.length :=
    List.prefix_iff_eq_take.mp (List.takeWhile_prefix _)
  have hcons : (siblings d).drop i = t :: (siblings d).drop (i + 1) := by
    rw [List.drop_eq_getElem?_toList_append, hi]
    rfl
  have hlen : 0 < plan.length := by
    simp only [plan, hcons, List.takeWhile_cons, ht, if_true, List.length_cons]
    omega
  have htake : ((siblings d).take (i + plan.length - 1 + 1)).drop i = plan := by
    rw [List.drop_take, show i + plan.length - 1 + 1 - i = plan.length by omega]
    exact hprefix.symm
  refine ⟨i + plan.length - 1, by omega, ?_, ?_⟩
  · rw [htake]
    exact fun x hx => (List.all_eq_true.mp (List.all_takeWhile)) x hx
  · have hplan : plan ≠ [] := List.ne_nil_of_length_pos hlen
    have hmove := @moveOn_eq _ _ _ (⟨⟨.other .sequentialAnd, d⟩, i + plan.length - 1⟩ :: fs)
      { s with hasBegun := true, failed := none } false
      (List.forall_mem_cons.mpr ⟨.sequence htail, hfs⟩)
    obtain ⟨a, hroot, ha⟩ := exists_of_isBuiltinAtomicAction ht
    rw [htake, RunningComboProcedure.act, isBuiltinCompoundAction_eq hroot, ha, if_neg (by decide)]
    change (if plan = [] then _ else _) = _
    rw [if_neg hplan, hmove]
    rfl

theorem drop_split {α : Type} {xs : List α} {i j : Nat} (hi : i ≤ xs.length) (hij : i ≤ j) :
    xs.drop i = (xs.take (j + 1)).drop i ++ xs.drop (j + 1) := by
  conv_lhs => rw [← List.take_append_drop (j + 1) xs]
  rw [List.drop_append, List.length_take, show i - min (j + 1) xs.length = 0 by omega,
    List.drop_zero]

/-- A child that is not sent together with others. -/
theorem passes_single {p : Position A P X} (hfs : ∀ f ∈ fs, Passable f)
    (ht : Supported M compound loops t) (hatomic : isBuiltinAtomicAction compound t = false)
    (hc : At loops (some p) false c)
    (hbuiltin : ∀ a, t.root = .other (.builtinAction a) →
      c.round M compound = RunningComboProcedure.act c.procedure compound ⟨t, fs⟩)
    (hother : (∀ a, t.root ≠ .other (.builtinAction a)) →
      (interpreter M compound).Passes 0 c (performs M t) (Exit loops fs)) :
    (interpreter M compound).Passes 0 c (performs M t) (Exit loops fs) := by
  by_cases hb : ∃ a, t.root = .other (.builtinAction a)
  · obtain ⟨a, hroot⟩ := hb
    have ha : compound a = true := by
      rw [isBuiltinAtomicAction_eq hroot] at hatomic
      simpa using hatomic
    have hloops : loops = false := by
      cases ht with
      | builtin b f h =>
        cases hroot
        exact h ha
      | _ => cases hroot
    rw [performs_builtin hroot]
    exact (passes_compound hfs ((isBuiltinCompoundAction_eq hroot).trans ha) hloops hc
      (hbuiltin a hroot)).le (Nat.zero_le 1)
  · exact hother fun a ha => hb ⟨a, ha⟩

/-- From a child on: where the child is a builtin action, the sequence goes on from the plan that it
is sent in, and otherwise from what it has done. The induction is on how many children are left. -/
theorem passes_rest (hfs : ∀ f ∈ fs, Passable f)
    (htail : ∀ t ∈ (siblings d).tail, t.root ≠ .other .actionWhile)
    (hcorrect : ∀ t ∈ siblings d, Supported M compound loops t ∧ Correct M compound loops t)
    {n : Nat} {p : Position A P X} (hn : (siblings d).length ≤ i + n)
    (hi : (siblings d)[i]? = some t)
    (hc : At loops (some p) false c)
    (hbuiltin : ∀ a, t.root = .other (.builtinAction a) → c.round M compound =
      RunningComboProcedure.act c.procedure compound ⟨t, ⟨⟨.other .sequentialAnd, d⟩, i⟩ :: fs⟩)
    (hother : (∀ a, t.root ≠ .other (.builtinAction a)) → (interpreter M compound).Passes 0 c
      (performs M t) (Exit loops (⟨⟨.other .sequentialAnd, d⟩, i⟩ :: fs))) :
    (interpreter M compound).Passes 0 c (andSeq (((siblings d).drop i).map (performs M)))
      (Exit loops fs) := by
  induction n generalizing i t c p with
  | zero =>
    obtain ⟨hlt, -⟩ := List.getElem?_eq_some_iff.mp hi
    omega
  | succ n ih =>
    have hpass : ∀ j, ∀ f ∈ (⟨⟨.other .sequentialAnd, d⟩, j⟩ : Frame A P X) :: fs, Passable f :=
      fun j => List.forall_mem_cons.mpr ⟨.sequence htail, hfs⟩
    -- a failure leaves the sequence, and after a success the next child is looked at
    have hgo : ∀ j q e, i ≤ j → Exit loops (⟨⟨.other .sequentialAnd, d⟩, j⟩ :: fs) q e →
        (interpreter M compound).Passes 0 e
          (if q = true then andSeq (((siblings d).drop (j + 1)).map (performs M)) else done false)
          (Exit loops fs) := by
      intro j q e hj he
      cases q with
      | false => exact .here (q := false) he
      | true =>
        cases hnext : (siblings d)[j + 1]? with
        | none =>
          rw [if_pos rfl, List.drop_eq_nil_of_le (List.getElem?_eq_none_iff.mp hnext)]
          apply Machine.Passes.here (q := true)
          simpa [Exit, after, childAt, hnext] using he
        | some u =>
          rw [if_pos rfl]
          have hat : At loops (some ⟨u, ⟨⟨.other .sequentialAnd, d⟩, j + 1⟩ :: fs⟩) false e := by
            simpa [Exit, after, childAt, hnext] using he
          refine ih (by omega) hnext hat (fun a ha => round_builtin ha hat (by simp)) fun ha => ?_
          refine (hcorrect u (List.mem_of_getElem? hnext)).2 _ e (hpass _) (fun h => ?_) hat
          obtain ⟨a, hroot, -⟩ := exists_of_isBuiltinAtomicAction h
          exact absurd hroot (ha a)
    obtain ⟨hlt, hget⟩ := List.getElem?_eq_some_iff.mp hi
    cases hatomic : isBuiltinAtomicAction compound t with
    | true =>
      obtain ⟨a, hroot, -⟩ := exists_of_isBuiltinAtomicAction hatomic
      obtain ⟨j, hij, hplan, hact⟩ := act_sequence hfs htail hi hatomic c.procedure
      rw [drop_split hlt.le hij, List.map_append, andSeq_append, map_performs hplan]
      refine Machine.Passes.branch ?_ fun q e he => hgo j q e hij he
      exact (passes_plan (hpass j) hc ((hbuiltin a hroot).trans hact)).le (Nat.zero_le 1)
    | false =>
      have hfirst := passes_single (hpass i) (hcorrect t (List.mem_of_getElem? hi)).1 hatomic hc
        hbuiltin hother
      rw [List.drop_eq_getElem_cons hlt, hget, List.map_cons, andSeq_cons]
      exact hfirst.branch fun q e he => hgo i q e (Nat.le_refl i) he

theorem correct_sequence (h : ∀ t ∈ siblings d, Supported M compound loops t)
    (htail : ∀ t ∈ (siblings d).tail, t.root ≠ .other .actionWhile)
    (ih : ∀ t ∈ siblings d, Correct M compound loops t) :
    Correct M compound loops ⟨.other .sequentialAnd, d⟩ := by
  intro fs c hfs _ hc
  have hround := round_visits M compound (by simp) hc (by simp)
  rw [performs_sequence]
  cases hfirst : (siblings d)[0]? with
  | none =>
    have hnil : siblings d = [] := List.length_eq_zero_iff.mp (by simpa using hfirst)
    have hmove : c.round M compound = some (.returns { c.procedure with it := after fs }) := by
      rw [hround]
      simp only [RunningComboProcedure.visit, childAt, hfirst, moveOn_eq hfs, Option.map_some]
    rw [hnil]
    exact (passes_move (.inr hmove) (.here (q := true)
      ⟨rfl, hc.compound, hc.failing, hc.plain⟩)).le (Nat.zero_le 1)
  | some t =>
    have hact : c.round M compound = RunningComboProcedure.act c.procedure compound
        ⟨t, ⟨⟨.other .sequentialAnd, d⟩, 0⟩ :: fs⟩ := by
      rw [hround]
      simp only [RunningComboProcedure.visit, childAt, hfirst]
    refine passes_rest (i := 0) (n := (siblings d).length) hfs htail (fun t ht => ⟨h t ht, ih t ht⟩)
      (by omega) hfirst hc (fun a _ => hact) fun ha => ?_
    have hatomic : isBuiltinAtomicAction compound t = false := by
      rw [Bool.eq_false_iff]
      intro h
      obtain ⟨a, hroot, -⟩ := exists_of_isBuiltinAtomicAction h
      exact ha a hroot
    have hmove : c.round M compound = some (.goesOn { c.procedure with
        it := some ⟨t, ⟨⟨.other .sequentialAnd, d⟩, 0⟩ :: fs⟩ }) := by
      obtain ⟨rest, hrest⟩ : ∃ rest, siblings d = t :: rest := by
        cases hd : siblings d with
        | nil => simp [hd] at hfirst
        | cons u rest =>
          simp only [hd, List.getElem?_cons_zero, Option.some.injEq] at hfirst
          exact ⟨rest, by rw [hfirst]⟩
      rw [hact, RunningComboProcedure.act, if_neg (isBuiltinCompoundAction_of_ne ha)]
      simp only [hrest, List.drop_zero, List.takeWhile_cons, hatomic, Bool.false_eq_true, if_false,
        if_true]
    refine (passes_move (.inl hmove) (ih t (List.mem_of_getElem? hfirst) _ _
      (List.forall_mem_cons.mpr ⟨.sequence htail, hfs⟩) (fun h => ?_)
      ⟨rfl, hc.compound, hc.failing, hc.plain⟩)).le (Nat.zero_le 1)
    exact absurd (h.symm.trans hatomic) (by decide)

end Sequences

section Branches
variable {c : Config A P X W} {cond a b : Node A P X} {h : W → Bool} {fs : List (Frame A P X)}

theorem condition_eq {ts : List (Node A P X)} (v : ActionVertex A P X)
    (hcond : (actionLanguage M).meaning cond.root cond.children = .condition h) (w : W) :
    RunningComboProcedure.condition M w ⟨v, ofSiblings (cond :: ts)⟩ = some (h w) := by
  simp only [RunningComboProcedure.condition, childAt, siblings_ofSiblings, List.getElem?_cons_zero,
    Option.map_some, hcond]

theorem correct_booleanIf
    (hcond : (actionLanguage M).meaning cond.root cond.children = .condition h)
    (ha : Correct M compound loops a) (hb : Correct M compound loops b) :
    Correct M compound loops ⟨.other .actionBooleanIf, ofSiblings [cond, a, b]⟩ := by
  intro fs c hfs _ hc
  have hround := round_visits M compound (by simp) hc (by simp)
  have harm : ∀ i t, i ≠ 0 → Correct M compound loops t → c.round M compound =
      some (.goesOn { c.procedure with
        it := some ⟨t, ⟨⟨.other .actionBooleanIf, ofSiblings [cond, a, b]⟩, i⟩ :: fs⟩ }) →
      (interpreter M compound).Passes 0 c (performs M t) (Exit loops fs) := by
    intro i t hi ht hmove
    refine (passes_move (.inl hmove) (ht _ _ (List.forall_mem_cons.mpr ⟨.booleanIf hi, hfs⟩) ?_
      ⟨rfl, hc.compound, hc.failing, hc.plain⟩)).le (Nat.zero_le 1)
    simp
  rw [performs_booleanIf hcond]
  cases hw : h c.world with
  | true =>
    refine (harm 1 a (by decide) ha ?_).congr ?_
    · rw [hround]
      simp [RunningComboProcedure.visit, condition_eq _ hcond, hw, RunningComboProcedure.goto,
        childAt]
    · funext q w
      change test h _ _ c.world q w = performs M a c.world q w
      simp [test, hw]
  | false =>
    refine (harm 2 b (by decide) hb ?_).congr ?_
    · rw [hround]
      simp [RunningComboProcedure.visit, condition_eq _ hcond, hw, RunningComboProcedure.goto,
        childAt, arity]
    · funext q w
      change test h _ _ c.world q w = performs M b c.world q w
      simp [test, hw]

/-- A loop that is left because its body has failed. -/
theorem passes_leaves {ps : List (Node A P X)} (hfs : ∀ f ∈ fs, Passable f)
    (hc : At loops (some ⟨⟨.other .booleanWhile, ofSiblings ps⟩, fs⟩) true c) :
    (interpreter M compound).Passes 0 c (done false) (Exit loops fs) := by
  have hfailing : c.procedure.isFailed c.planFailed = true := hc.failing
  by_cases hin : ∃ d i gs, fs = ⟨⟨.other .sequentialAnd, d⟩, i⟩ :: gs
  · obtain ⟨d, i, gs, rfl⟩ := hin
    have hgs : ∀ f ∈ gs, Passable f := fun f hf => hfs f (List.mem_cons_of_mem _ hf)
    cases hfs _ List.mem_cons_self with
    | sequence htail =>
      have hround := @round_leaves _ _ _ _ _ M compound c.procedure
        ⟨⟨.other .booleanWhile, ofSiblings ps⟩, ⟨⟨_, d⟩, i⟩ :: gs⟩ c.planFailed gs d i (by simp)
        hfailing rfl hgs htail c.world
      exact (passes_move (.inl (hc.round.trans hround)) (passes_abort hgs (fun _ h => h)
        ⟨rfl, hc.compound, hc.failing, hc.plain⟩)).le (Nat.zero_le 1)
  · have hmove : c.round M compound = some (.goesOn { c.procedure with it := after fs }) := by
      rw [hc.round, round_visit (by simp) fun _ f hf hroot => ?_]
      · simp only [RunningComboProcedure.visit, hfailing, if_true, moveOn_eq hfs, Option.map_some]
      · rcases fs with _ | ⟨⟨⟨v, d⟩, i⟩, gs⟩
        · cases hf
        · cases hf
          obtain rfl : v = .other .sequentialAnd := hroot
          exact hin ⟨d, i, gs, rfl⟩
    exact (passes_move (.inl hmove) (passes_abort hfs (fun _ h => h)
      ⟨rfl, hc.compound, hc.failing, hc.plain⟩)).le (Nat.zero_le 1)

theorem correct_booleanWhile
    (hcond : (actionLanguage M).meaning cond.root cond.children = .condition h)
    (ha : Correct M compound loops a) :
    Correct M compound loops ⟨.other .booleanWhile, ofSiblings [cond, a]⟩ := by
  intro fs c hfs _ hc
  let head := At (W := W) loops (some ⟨⟨.other .booleanWhile, ofSiblings [cond, a]⟩, fs⟩)
  let exit (q : Bool) (c : Config A P X W) := if q = true then Exit loops fs true c else head true c
  have hloop : (interpreter M compound).Passes 0 c (WhileLoop h (performs M a)) exit := by
    refine @Machine.Passes.whileLoop _ _ _ _ _ exit (head false) h (fun c hc hw => ?_)
      (fun c hc hw => ?_) hc
    · have hmove : c.round M compound = some (.returns { c.procedure with it := after fs }) := by
        have hw : h c.world = false := hw
        have hfailing : c.procedure.isFailed c.planFailed = false := hc.failing
        rw [round_visits M compound (by simp) hc (by simp)]
        simp only [RunningComboProcedure.visit, condition_eq _ hcond, hw, hfailing, moveOn_eq hfs,
          Bool.false_eq_true, if_false, Option.map_some]
      exact (passes_move (.inr hmove) (.here (q := true)
        ⟨rfl, hc.compound, hc.failing, hc.plain⟩)).le (Nat.zero_le 1)
    · have hmove : c.round M compound = some (.goesOn { c.procedure with
          it := some ⟨a, ⟨⟨.other .booleanWhile, ofSiblings [cond, a]⟩, 1⟩ :: fs⟩ }) := by
        have hw : h c.world = true := hw
        have hfailing : c.procedure.isFailed c.planFailed = false := hc.failing
        rw [round_visits M compound (by simp) hc (by simp)]
        simp [RunningComboProcedure.visit, condition_eq _ hcond, hw, hfailing,
          RunningComboProcedure.goto, childAt]
      have hbody := ha _ { c with procedure := { c.procedure with
        it := some ⟨a, ⟨⟨.other .booleanWhile, ofSiblings [cond, a]⟩, 1⟩ :: fs⟩ } }
        (List.forall_mem_cons.mpr ⟨.booleanWhile (by rw [siblings_ofSiblings]; rfl), hfs⟩)
        (by simp) ⟨rfl, hc.compound, hc.failing, hc.plain⟩
      refine (passes_move (.inl hmove) hbody).exit_congr fun q d hd => ?_
      cases q with
      | true => exact hd
      | false => exact hd
  rw [performs_booleanWhile hcond, ← branch_self (WhileLoop h (performs M a))]
  refine hloop.branch fun q d hd => ?_
  cases q with
  | true => exact .here (q := true) hd
  | false => exact passes_leaves hfs hd

theorem correct_actionWhile (hloops : loops = true) (ha : Correct M compound loops a) :
    Correct M compound loops ⟨.other .actionWhile, ofSiblings [a]⟩ := by
  intro fs c hfs _ hc
  have harity : arity (⟨.other .actionWhile, ofSiblings [a]⟩ : Node A P X) = 1 := by
    simp [arity]
  let head := At (W := W) loops (some ⟨⟨.other .actionWhile, ofSiblings [a]⟩, fs⟩)
  let exit (q : Bool) (c : Config A P X W) := q = false ∧ head true c
  have hloop : (interpreter M compound).Passes 0 c (Loop (performs M a)) exit := by
    refine @Machine.Passes.loop _ _ _ _ _ exit (head false) (fun c hc => ?_) hc
    have hmove : c.round M compound = some (.goesOn { c.procedure with
        it := some ⟨a, ⟨⟨.other .actionWhile, ofSiblings [a]⟩, 0⟩ :: fs⟩ }) := by
      have hfailing : c.procedure.isFailed c.planFailed = false := hc.failing
      rw [hc.round]
      simp [RunningComboProcedure.round, harity, hfailing, RunningComboProcedure.goto, childAt]
    have hbody := ha _ { c with procedure := { c.procedure with
      it := some ⟨a, ⟨⟨.other .actionWhile, ofSiblings [a]⟩, 0⟩ :: fs⟩ } }
      (List.forall_mem_cons.mpr ⟨.actionWhile, hfs⟩) (by simp)
      ⟨rfl, hc.compound, hc.failing, hc.plain⟩
    refine (passes_move (.inl hmove) hbody).exit_congr fun q d hd => ?_
    cases q with
    | true => exact hd
    | false => exact ⟨rfl, hd⟩
  rw [performs_actionWhile]
  refine hloop.branch fun q d hd => ?_
  obtain ⟨rfl, hd⟩ := hd
  have hmove : d.round M compound =
      some (.goesOn { d.procedure with failed := some false, it := after fs }) := by
    have hfailing : d.procedure.isFailed d.planFailed = true := hd.failing
    rw [hd.round]
    simp only [RunningComboProcedure.round, harity, hfailing, if_true, moveOn_eq hfs,
      Option.map_some]
  exact (passes_move (.inl hmove) (.here (q := true)
    ⟨rfl, hd.compound, rfl, fun h => absurd (hloops.symm.trans h) (by decide)⟩)).le (Nat.zero_le 1)

end Branches

theorem Supported.correct {t : Node A P X} (h : Supported M compound loops t) :
    Correct M compound loops t := by
  induction h with
  | builtin a c h => exact correct_builtin a c h
  | sequence h htail ih => exact correct_sequence h htail ih
  | booleanIf hc _ _ iha ihb => exact correct_booleanIf hc iha ihb
  | booleanWhile hc _ ih => exact correct_booleanWhile hc ih
  | actionWhile hl _ ih => exact correct_actionWhile hl ih

theorem At.start (loops : Bool) (t : Node A P X) (w : W) :
    At loops (some ⟨t, []⟩) false (Config.start t w) := ⟨rfl, rfl, rfl, fun _ => rfl⟩

theorem Supported.passes {t : Node A P X} (h : Supported M compound loops t) (w : W) :
    (interpreter M compound).Passes 0 (Config.start t w) (performs M t) (Exit loops []) :=
  h.correct [] _ (by simp) (by simp) (.start loops t w)

/-! ## Whole runs -/

/-- What a procedure has done when it has finished, and whether it has succeeded then. -/
def outcome (M : World A P X W E) (compound : A → Bool) (t : Node A P X) : Program W :=
  fun w q w' => ∃ n c, (interpreter M compound).Run n (Config.start t w) c ∧
    (c.procedure.it = none ∧ c.isFailed = !q) ∧ c.world = w'

/-- `boolean_while(something remove)` -/
def drained : Node Bool Unit Empty := ⟨.other .booleanWhile, ofSiblings
  [⟨.other (.perception ()), .nil⟩, ⟨.other (.builtinAction false), .nil⟩]⟩

section Reduction
variable [DecidableEq A] [DecidableEq P] [DecidableEq X] {rules : List (Rule (ActionVertex A P X))}

end Reduction

/-- `action_boolean_if(not(something) add remove)` -/
def filled : Node Bool Unit Empty := ⟨.other .actionBooleanIf, ofSiblings
  [⟨.other .logicalNot, perceived⟩, ⟨.other (.builtinAction true), .nil⟩,
    ⟨.other (.builtinAction false), .nil⟩]⟩

section Sent
variable {a b : A} {f g : Forest (ActionVertex A P X)} {parent t : Node A P X} {w : W}

/-- At the first child, before anything has been sent. -/
def entered (parent t : Node A P X) (w : W) : Config A P X W :=
  ⟨⟨some ⟨t, [⟨parent, 0⟩]⟩, false, none, false⟩, w, false⟩

theorem At.entered (loops : Bool) :
    At loops (some ⟨t, [⟨parent, 0⟩]⟩) false (entered parent t w) := ⟨rfl, rfl, rfl, fun _ => rfl⟩

end Sent

end OpenCog.Procedure
