import OpenCog.Comboreduct.SequenceSoundness

/-! The rules for loops over actions: what a loop begins with goes where it stands before the loop
too, and a body that repeats a shorter one is replaced by it. -/
namespace OpenCog.Comboreduct

open Util Outcomes

variable {A P X W E : Type} {M : World A P X W E}

/-- What the subtree does. -/
def Subtree.action (M : World A P X W E) (t : Subtree (ActionOp A P X)) : Program W :=
  ((actionLanguage M).meaning t.root t.children).runs

theorem map_runs (f : Forest (ActionVertex A P X)) :
    ((actionLanguage M).meanings f).map Meaning.runs = (siblings f).map (Subtree.action M) := by
  rw [meanings_eq_map, List.map_map]
  rfl

theorem meaning_sequentialAnd (f : Forest (ActionVertex A P X)) :
    (actionLanguage M).meaning (.other .sequentialAnd) f =
      .action (andSeq ((siblings f).map (Subtree.action M))) := by
  rw [← map_runs]
  rfl

/-! ## Before a loop -/

/-- What the loop begins with may be left out before it. -/
theorem andSeq_before_loop {t : Subtree (ActionOp A P X)} {bs : List (Subtree (ActionOp A P X))}
    (ht : t.action M = Loop (andSeq (bs.map (Subtree.action M))))
    (pre rest : List (Subtree (ActionOp A P X))) :
    andSeq ((pre ++ bs ++ t :: rest).map (Subtree.action M)) =
      andSeq ((pre ++ t :: rest).map (Subtree.action M)) := by
  simp only [List.map_append, List.map_cons, andSeq_append, andSeq_cons, branch_branch,
    branch_done_false, ht, branch_loop]

variable [DecidableEq A] [DecidableEq P] [DecidableEq X]

/-- What is dropped does what the body does. -/
theorem dropRepeated_append (body : Subtree (ActionOp A P X))
    (before : List (Subtree (ActionOp A P X))) :
    ∃ bs, before.reverse = (dropRepeated body before).reverse ++ bs ∧
      (bs = [] ∨ andSeq (bs.map (Subtree.action M)) = body.action M) := by
  fun_cases dropRepeated body before with
  | case1 before h => exact ⟨[], by simp, .inl rfl⟩
  | case2 before _ hand inner hinner =>
    obtain ⟨rest, hrest⟩ := hinner
    refine ⟨siblings body.children, ?_, .inr ?_⟩
    · rw [← hrest, List.drop_left, List.reverse_append, List.reverse_reverse]
    · rw [Subtree.action, hand, meaning_sequentialAnd]
      rfl
  | case3 before => exact ⟨[], by simp, .inl rfl⟩
  | case4 _ _ rest => exact ⟨[body], by simp, .inr (by simp)⟩
  | case5 => exact ⟨[], by simp, .inl rfl⟩
  | case6 => exact ⟨[], rfl, .inl rfl⟩

theorem repeatOut_keeps (before rest : List (Subtree (ActionOp A P X)))
    (htyped : ∀ t ∈ rest, t.root.Takes ((actionLanguage M).meanings t.children)) :
    ∃ ts, repeatOut before rest = some ts ∧ ts.Sublist (before.reverse ++ rest) ∧
      andSeq (ts.map (Subtree.action M)) =
        andSeq ((before.reverse ++ rest).map (Subtree.action M)) := by
  induction rest generalizing before with
  | nil => exact ⟨before.reverse, rfl, by simp, by simp⟩
  | cons t rest ih =>
    have hrest := fun u hu => htyped u (List.mem_cons_of_mem t hu)
    rw [repeatOut]
    split_ifs with hloop
    · have htakes := htyped t List.mem_cons_self
      rw [hloop] at htakes
      obtain ⟨a, hms⟩ := htakes
      obtain ⟨v, c, hchildren, hv⟩ := meanings_eq_one hms
      have hone : siblings t.children = [⟨v, c⟩] := by
        rw [hchildren]
        rfl
      simp only [hone]
      have ht : t.action M = Loop (Subtree.action M ⟨v, c⟩) := by
        rw [Subtree.action, hloop, meaning_of hms, Subtree.action, hv]
        rfl
      obtain ⟨bs, hbefore, hbs⟩ := dropRepeated_append (M := M) ⟨v, c⟩ before
      obtain ⟨ts, hts, hsub, hsame⟩ := ih (t :: dropRepeated ⟨v, c⟩ before) hrest
      rw [List.reverse_cons, List.append_assoc, List.singleton_append] at hsub hsame
      refine ⟨ts, hts, hsub.trans ?_, hsame.trans ?_⟩
      · rw [hbefore]
        exact (List.sublist_append_left _ bs).append_right _
      · rw [hbefore]
        rcases hbs with rfl | hbs
        · rw [List.append_nil]
        · rw [← hbs] at ht
          exact (andSeq_before_loop ht _ rest).symm
    · obtain ⟨ts, hts, hsub, hsame⟩ := ih (t :: before) hrest
      rw [List.reverse_cons, List.append_assoc, List.singleton_append] at hsub hsame
      exact ⟨ts, hts, hsub, hsame⟩

theorem sound_reduceRepeatOutActionWhile :
    (actionLanguage M).Sound actionWeight
      (reduceRepeatOutActionWhile (A := A) (P := P) (X := X)) := by
  intro v c ht hc
  fun_cases reduceRepeatOutActionWhile v c with
  | case1 v c => exact ⟨_, _, rfl, .refl ht hc⟩
  | case2 c _ =>
    obtain ⟨ts, hts, hsub, hsame⟩ := repeatOut_keeps (M := M) [] (siblings c)
      fun t h => (typed_iff.mp hc t h).1
    refine ⟨_, ofSiblings ts, by rw [hts]; rfl, keeps_sublist (fun _ => .rfl) ht hc ?_ ?_⟩
    · rw [siblings_ofSiblings]
      exact hsub
    · rw [meaning_sequentialAnd, meaning_sequentialAnd, siblings_ofSiblings, hsame]
      rfl
  | case3 v c => exact ⟨_, _, rfl, .refl ht hc⟩

/-! ## In a loop -/

theorem findDivisor_dvd (n fuel i : Nat) : findDivisor n fuel i ∣ n := by
  induction fuel generalizing i with
  | zero => exact dvd_refl n
  | succ fuel ih =>
    rw [findDivisor]
    split_ifs with hi hmod
    · exact Nat.dvd_of_mod_eq_zero hmod
    · exact ih (i + 1)
    · exact dvd_refl n

theorem smallestDivisor_dvd (n : Nat) : smallestDivisor n ∣ n := by
  rw [smallestDivisor]
  split_ifs with h
  · exact dvd_refl n
  · exact findDivisor_dvd n n 2

omit [DecidableEq A] [DecidableEq P] [DecidableEq X] in
theorem prefix_of_all_zip {α : Type} [DecidableEq α] {l m : List α} (hlen : m.length ≤ l.length)
    (h : ((l.zip m).all fun p => decide (p.1 = p.2)) = true) : m <+: l := by
  induction m generalizing l with
  | nil => exact List.nil_prefix
  | cons x m ih =>
    cases l with
    | nil => simp at hlen
    | cons y l =>
      simp only [List.zip_cons_cons, List.all_cons, Bool.and_eq_true, decide_eq_true_eq] at h
      obtain ⟨rfl, h⟩ := h
      exact List.prefix_cons_inj y |>.mpr (ih (by simpa using hlen) h)

omit [DecidableEq A] [DecidableEq P] [DecidableEq X] in
/-- A list with a period that divides its length. -/
theorem eq_flatten_replicate {α : Type} {l : List α} {d k : Nat} (hlen : l.length = d * (k + 1))
    (h : l.drop d <+: l) : l = (List.replicate (k + 1) (l.take d)).flatten := by
  induction k generalizing l with
  | zero => simp [List.take_of_length_le (show l.length ≤ d by omega)]
  | succ k ih =>
    have hrest : (l.drop d).length = d * (k + 1) := by
      rw [List.length_drop, hlen, Nat.mul_succ d (k + 1), Nat.add_sub_cancel]
    have hfirst : (l.drop d).take d = l.take d := by
      obtain ⟨t, ht⟩ := h
      have hle : d ≤ (l.drop d).length := by
        rw [hrest]
        exact Nat.le_mul_of_pos_right d (Nat.succ_pos k)
      calc (l.drop d).take d = (l.drop d ++ t).take d := (List.take_append_of_le_length hle).symm
        _ = l.take d := by rw [ht]
    calc l = l.take d ++ l.drop d := (List.take_append_drop d l).symm
      _ = l.take d ++ (List.replicate (k + 1) (l.take d)).flatten := by
        rw [ih hrest (h.drop d), hfirst]
      _ = (List.replicate (k + 2) (l.take d)).flatten := by
        rw [List.replicate_succ (n := k + 1), List.flatten_cons]

theorem loop_repeats {ts : List (Subtree (ActionOp A P X))} (hlen : 1 < ts.length)
    (h : repeats (smallestDivisor ts.length) ts = true) :
    Loop (andSeq ((ts.take (smallestDivisor ts.length)).map (Subtree.action M))) =
      Loop (andSeq (ts.map (Subtree.action M))) := by
  obtain ⟨k, hk⟩ := smallestDivisor_dvd ts.length
  generalize smallestDivisor ts.length = d at h hk ⊢
  cases k with
  | zero => omega
  | succ k =>
    have hperiod := eq_flatten_replicate hk (prefix_of_all_zip (by simp) h)
    have hmap : ts.map (Subtree.action M) =
        (List.replicate (k + 1) ((ts.take d).map (Subtree.action M))).flatten := by
      rw [← List.map_replicate, ← List.map_flatten, ← hperiod]
    rw [hmap, andSeq_flatten_replicate, loop_replicate]

theorem sound_reduceRepeatInActionWhile :
    (actionLanguage M).Sound actionWeight
      (reduceRepeatInActionWhile (A := A) (P := P) (X := X)) := by
  intro v c ht hc
  by_cases hv : v = .other .actionWhile
  · subst hv
    obtain ⟨a, hms⟩ := id ht
    obtain ⟨v, d, rfl, hvd⟩ := meanings_eq_one hms
    by_cases hseq : v = .other .sequentialAnd
    · subst hseq
      rw [reduceRepeatInActionWhile]
      split_ifs with hrep
      · obtain ⟨hd, hdt, -⟩ := id hc
        have hsub : (siblings (ofSiblings ((siblings d).take (smallestDivisor
            (siblings d).length)))).Sublist (siblings d) := by
          rw [siblings_ofSiblings]
          exact List.take_sublist _ _
        have hlow := (lowers_sublist actionWeight_pos hsub).below (v := .other .sequentialAnd)
          (n := .nil) actionWeight_pos
        refine ⟨_, _, rfl, hlow.below actionWeight_pos, ?_, ⟨_, rfl⟩, ?_⟩
        · refine congrArg Meaning.action ?_
          have hloop := loop_repeats (M := M) hrep.1 hrep.2
          rw [← siblings_ofSiblings ((siblings d).take _), ← map_runs, ← map_runs] at hloop
          exact hloop
        · obtain ⟨htakes, htyped⟩ := typed_sublist hd hdt hsub
          exact ⟨htakes, htyped, trivial⟩
      · exact ⟨_, _, rfl, .refl ht hc⟩
    · refine ⟨.other .actionWhile, .cons v d .nil, ?_, .refl ht hc⟩
      unfold reduceRepeatInActionWhile
      split <;> simp_all
  · refine ⟨v, c, ?_, .refl ht hc⟩
    unfold reduceRepeatInActionWhile
    split <;> simp_all

end OpenCog.Comboreduct
