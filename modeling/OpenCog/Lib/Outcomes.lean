import Mathlib

/-! Programs that end with success or failure, as relations between the states before and after.
Whatever is put together from them depends on the outcome of what came before. -/
namespace Outcomes

variable {W : Type}

/-- From the first state the program may end in the second one, with this outcome. -/
abbrev Program (W : Type) := W → Bool → W → Prop

/-- Nothing is done. -/
def done (r : Bool) : Program W := fun w r' w' => r' = r ∧ w' = w

/-- No run ends. -/
def never : Program W := fun _ _ _ => False

/-- What follows success, and what follows failure. -/
def branch (c a b : Program W) : Program W := fun w r w' =>
  ∃ q m, c w q m ∧ (if q = true then a else b) m r w'

def test (h : W → Bool) (a b : Program W) : Program W := fun w r w' =>
  (if h w = true then a else b) w r w'

/-- Every outcome of the program is this one. -/
def Always (r : Bool) (a : Program W) : Prop := ∀ w r' w', a w r' w' → r' = r

/-! ## Laws -/

@[simp] theorem branch_done_true (a b : Program W) : branch (done true) a b = a := by
  funext w r w'
  refine propext ⟨?_, fun h => ⟨true, w, ⟨rfl, rfl⟩, h⟩⟩
  rintro ⟨q, m, ⟨rfl, rfl⟩, h⟩
  exact h

@[simp] theorem branch_done_false (a b : Program W) : branch (done false) a b = b := by
  funext w r w'
  refine propext ⟨?_, fun h => ⟨false, w, ⟨rfl, rfl⟩, h⟩⟩
  rintro ⟨q, m, ⟨rfl, rfl⟩, h⟩
  exact h

/-- The outcome is passed on. -/
@[simp] theorem branch_self (c : Program W) : branch c (done true) (done false) = c := by
  funext w r w'
  refine propext ⟨?_, fun h => ?_⟩
  · rintro ⟨q, m, h, hr⟩
    cases q with
    | true =>
      obtain ⟨rfl, rfl⟩ := hr
      exact h
    | false =>
      obtain ⟨rfl, rfl⟩ := hr
      exact h
  · cases r with
    | true => exact ⟨true, w', h, rfl, rfl⟩
    | false => exact ⟨false, w', h, rfl, rfl⟩

theorem branch_branch (c a b x y : Program W) :
    branch (branch c a b) x y = branch c (branch a x y) (branch b x y) := by
  funext w r w'
  refine propext ⟨?_, ?_⟩
  · rintro ⟨q, m, ⟨p, k, hc, h⟩, hr⟩
    refine ⟨p, k, hc, ?_⟩
    cases p with
    | true => exact ⟨q, m, h, hr⟩
    | false => exact ⟨q, m, h, hr⟩
  · rintro ⟨p, k, hc, h⟩
    cases p with
    | true =>
      obtain ⟨q, m, h, hr⟩ := h
      exact ⟨q, m, ⟨true, k, hc, h⟩, hr⟩
    | false =>
      obtain ⟨q, m, h, hr⟩ := h
      exact ⟨q, m, ⟨false, k, hc, h⟩, hr⟩

theorem Always.branch_congr {c a b a' b' : Program W} {r : Bool} (hc : Always r c)
    (h : (if r = true then a else b) = if r = true then a' else b') :
    branch c a b = branch c a' b' := by
  have step : ∀ {a b a' b' : Program W}, ((if r = true then a else b) = if r = true then a' else b') →
      ∀ w q w', branch c a b w q w' → branch c a' b' w q w' := by
    rintro a b a' b' h w q w' ⟨p, m, hcm, hr⟩
    obtain rfl := hc w p m hcm
    rw [h] at hr
    exact ⟨p, m, hcm, hr⟩
  funext w q w'
  exact propext ⟨step h w q w', step h.symm w q w'⟩

theorem Always.done (r : Bool) : Always r (done r : Program W) := fun _ _ _ h => h.1

theorem Always.branch {c a b : Program W} {r : Bool} (ha : Always r a) (hb : Always r b) :
    Always r (branch c a b) := by
  rintro w r' w' ⟨q, m, -, h⟩
  cases q with
  | true => exact ha m r' w' h
  | false => exact hb m r' w' h

theorem Always.branch_of {c a b : Program W} {r q : Bool} (hc : Always q c)
    (h : Always r (if q = true then a else b)) : Always r (Outcomes.branch c a b) := by
  rintro w r' w' ⟨p, m, hcm, hr⟩
  obtain rfl := hc w p m hcm
  exact h m r' w' hr

theorem branch_eq_left {c : Program W} (hc : Always false c) (a : Program W) :
    branch c a (done false) = c := by
  calc branch c a (done false) = branch c (done true) (done false) := hc.branch_congr rfl
    _ = c := branch_self c

@[simp] theorem test_self (h : W → Bool) (a : Program W) : test h a a = a := by
  funext w r w'
  simp only [test, ite_self]

theorem test_not (h : W → Bool) (a b : Program W) : test (fun w => !h w) a b = test h b a := by
  funext w r w'
  cases hw : h w <;> simp [test, hw]

/-! ## Sequences -/

/-- One after the other until one fails. -/
def andSeq (as : List (Program W)) : Program W :=
  as.foldr (fun a b => branch a b (done false)) (done true)

/-- One after the other until one succeeds. -/
def orSeq (as : List (Program W)) : Program W :=
  as.foldr (fun a b => branch a (done true) b) (done false)

/-- One after the other, whatever their outcome. -/
def execSeq (as : List (Program W)) : Program W := as.foldr (fun a b => branch a b b) (done true)

@[simp] theorem andSeq_nil : andSeq ([] : List (Program W)) = done true := rfl

@[simp] theorem andSeq_cons (a : Program W) (as : List (Program W)) :
    andSeq (a :: as) = branch a (andSeq as) (done false) := rfl

@[simp] theorem orSeq_nil : orSeq ([] : List (Program W)) = done false := rfl

@[simp] theorem orSeq_cons (a : Program W) (as : List (Program W)) :
    orSeq (a :: as) = branch a (done true) (orSeq as) := rfl

@[simp] theorem execSeq_nil : execSeq ([] : List (Program W)) = done true := rfl

@[simp] theorem execSeq_cons (a : Program W) (as : List (Program W)) :
    execSeq (a :: as) = branch a (execSeq as) (execSeq as) := rfl

theorem andSeq_append (as bs : List (Program W)) :
    andSeq (as ++ bs) = branch (andSeq as) (andSeq bs) (done false) := by
  induction as with
  | nil => simp
  | cons a as ih => simp only [List.cons_append, andSeq_cons, ih, branch_branch, branch_done_false]

theorem orSeq_append (as bs : List (Program W)) :
    orSeq (as ++ bs) = branch (orSeq as) (done true) (orSeq bs) := by
  induction as with
  | nil => simp
  | cons a as ih => simp only [List.cons_append, orSeq_cons, ih, branch_branch, branch_done_true]

theorem execSeq_append (as bs : List (Program W)) :
    execSeq (as ++ bs) = branch (execSeq as) (execSeq bs) (execSeq bs) := by
  induction as with
  | nil => simp
  | cons a as ih => simp only [List.cons_append, execSeq_cons, ih, branch_branch]

theorem always_execSeq (as : List (Program W)) : Always true (execSeq as) := by
  induction as with
  | nil => exact .done true
  | cons a as ih => exact .branch ih ih

/-! ## Loops -/

/-- Again and again until it fails, which is the outcome. -/
inductive Loop (a : Program W) : W → Bool → W → Prop
  | stop {w w' : W} (h : a w false w') : Loop a w false w'
  | again {w m w' : W} {r : Bool} (h : a w true m) (rest : Loop a m r w') : Loop a w r w'

/-- As long as the test holds; the program may fail, and then so does the loop. -/
inductive WhileLoop (h : W → Bool) (a : Program W) : W → Bool → W → Prop
  | exit {w : W} (hw : h w = false) : WhileLoop h a w true w
  | stop {w w' : W} (hw : h w = true) (ha : a w false w') : WhileLoop h a w false w'
  | again {w m w' : W} {r : Bool} (hw : h w = true) (ha : a w true m)
      (rest : WhileLoop h a m r w') : WhileLoop h a w r w'

theorem always_loop (a : Program W) : Always false (Loop a) := by
  intro w r w' h
  induction h with
  | stop _ => rfl
  | again _ _ ih => exact ih

theorem loop_eq (a : Program W) : Loop a = branch a (Loop a) (done false) := by
  funext w r w'
  refine propext ⟨fun h => ?_, ?_⟩
  · cases h with
    | stop h => exact ⟨false, w', h, rfl, rfl⟩
    | again h rest => exact ⟨true, _, h, rest⟩
  · rintro ⟨q, m, h, hr⟩
    cases q with
    | true => exact .again h hr
    | false =>
      obtain ⟨rfl, rfl⟩ := hr
      exact .stop h

theorem loop_of_always {a : Program W} (ha : Always false a) : Loop a = a := by
  rw [loop_eq, branch_eq_left ha]

theorem whileLoop_eq (h : W → Bool) (a : Program W) :
    WhileLoop h a = test h (branch a (WhileLoop h a) (done false)) (done true) := by
  funext w r w'
  rw [test]
  refine propext ⟨fun hl => ?_, fun hl => ?_⟩
  · cases hl with
    | exit hw =>
      rw [hw]
      exact ⟨rfl, rfl⟩
    | stop hw ha =>
      rw [hw]
      exact ⟨false, w', ha, rfl, rfl⟩
    | again hw ha rest =>
      rw [hw]
      exact ⟨true, _, ha, rest⟩
  · cases hw : h w with
    | false =>
      rw [hw] at hl
      obtain ⟨rfl, rfl⟩ := hl
      exact .exit hw
    | true =>
      rw [hw] at hl
      obtain ⟨q, m, ha, hr⟩ := hl
      cases q with
      | true => exact .again hw ha hr
      | false =>
        obtain ⟨rfl, rfl⟩ := hr
        exact .stop hw ha

theorem whileLoop_false {h : W → Bool} (hw : ∀ w, h w = false) (a : Program W) :
    WhileLoop h a = done true := by
  rw [whileLoop_eq]
  funext w r w'
  rw [test, hw]
  rfl

theorem whileLoop_true (a : Program W) : WhileLoop (fun _ => true) a = Loop a := by
  funext w r w'
  refine propext ⟨fun h => ?_, fun h => ?_⟩
  · induction h with
    | exit hw => cases hw
    | stop _ ha => exact .stop ha
    | again _ ha _ ih => exact .again ha ih
  · induction h with
    | stop ha => exact .stop rfl ha
    | again ha _ ih => exact .again rfl ha ih

/-- Only a program that always fails is its own loop. -/
theorem loop_eq_self_iff (a : Program W) : Loop a = a ↔ Always false a := by
  refine ⟨fun h => ?_, loop_of_always⟩
  rw [← h]
  exact always_loop a

/-- A run that has failed is not made longer. -/
theorem andSeq_fails {as : List (Program W)} (bs : List (Program W)) {w w' : W}
    (h : andSeq as w false w') : andSeq (as ++ bs) w false w' := by
  rw [andSeq_append]
  exact ⟨false, w', h, rfl, rfl⟩

theorem andSeq_replicate_succ (a : Program W) (k : Nat) {w m w' : W} {r : Bool}
    (h : andSeq (List.replicate k a) w true m) (ha : a m r w') :
    andSeq (List.replicate (k + 1) a) w r w' := by
  rw [List.replicate_succ', andSeq_append]
  refine ⟨true, m, h, ?_⟩
  simpa using ha

theorem Loop.of_fails {a : Program W} {k : Nat} {w w' : W}
    (h : andSeq (List.replicate k a) w false w') : Loop a w false w' := by
  induction k generalizing w with
  | zero => cases h.1
  | succ k ih =>
    obtain ⟨q, m, ha, hr⟩ := h
    cases q with
    | true => exact .again ha (ih hr)
    | false =>
      obtain ⟨-, rfl⟩ := hr
      exact .stop ha

theorem Loop.of_succeeds {a : Program W} {k : Nat} {w m w' : W} {r : Bool}
    (h : andSeq (List.replicate k a) w true m) (hl : Loop a m r w') : Loop a w r w' := by
  induction k generalizing w with
  | zero =>
    obtain ⟨-, rfl⟩ := h
    exact hl
  | succ k ih =>
    obtain ⟨q, x, ha, hr⟩ := h
    cases q with
    | true => exact .again ha (ih hr)
    | false => cases hr.1

/-- Repeating a repetition is repeating. -/
theorem loop_replicate (a : Program W) (n : Nat) :
    Loop (andSeq (List.replicate (n + 1) a)) = Loop a := by
  have back : ∀ {w r w'}, Loop a w r w' → ∀ k ≤ n, ∀ w₀,
      andSeq (List.replicate k a) w₀ true w →
        Loop (andSeq (List.replicate (n + 1) a)) w₀ r w' := by
    intro w r w' h
    induction h with
    | stop ha =>
      intro k hk w₀ hpre
      have hfail := andSeq_fails (List.replicate (n - k) a) (andSeq_replicate_succ a k hpre ha)
      rw [List.replicate_append_replicate, show k + 1 + (n - k) = n + 1 by omega] at hfail
      exact .stop hfail
    | again ha _ ih =>
      intro k hk w₀ hpre
      have hnext := andSeq_replicate_succ a k hpre ha
      rcases Nat.lt_or_ge k n with hlt | hge
      · exact ih (k + 1) hlt w₀ hnext
      · obtain rfl : k = n := Nat.le_antisymm hk hge
        exact .again hnext (ih 0 (Nat.zero_le _) _ ⟨rfl, rfl⟩)
  funext w r w'
  refine propext ⟨fun h => ?_, fun h => back h 0 (Nat.zero_le n) w ⟨rfl, rfl⟩⟩
  induction h with
  | stop ha => exact .of_fails ha
  | again ha _ ih => exact .of_succeeds ha ih

theorem andSeq_flatten_replicate (as : List (Program W)) (n : Nat) :
    andSeq (List.replicate n as).flatten = andSeq (List.replicate n (andSeq as)) := by
  induction n with
  | zero => rfl
  | succ n ih => rw [List.replicate_succ, List.flatten_cons, andSeq_append, ih, List.replicate_succ,
      andSeq_cons]

/-- What the loop does first need not come before it. -/
theorem branch_loop (b rest : Program W) :
    branch b (branch (Loop b) rest (done false)) (done false) =
      branch (Loop b) rest (done false) := by
  calc branch b (branch (Loop b) rest (done false)) (done false)
      = branch (branch b (Loop b) (done false)) rest (done false) := by
        rw [branch_branch, branch_done_false]
    _ = branch (Loop b) rest (done false) := by rw [← loop_eq]

/-! ## At one state -/

theorem test_congr {h : W → Bool} {a b a' b' : Program W} (ha : ∀ w, h w = true → a w = a' w)
    (hb : ∀ w, h w = false → b w = b' w) : test h a b = test h a' b' := by
  funext w
  cases hw : h w with
  | true =>
    funext r w'
    simp only [test, hw, if_true, ha w hw]
  | false =>
    funext r w'
    simp only [test, hw, Bool.false_eq_true, if_false, hb w hw]

theorem whileLoop_congr {h : W → Bool} {a a' : Program W} (ha : ∀ w, h w = true → a w = a' w) :
    WhileLoop h a = WhileLoop h a' := by
  have step : ∀ {a a' : Program W}, (∀ w, h w = true → a w = a' w) →
      ∀ {w r w'}, WhileLoop h a w r w' → WhileLoop h a' w r w' := by
    intro a a' ha w r w' hl
    induction hl with
    | exit hw => exact .exit hw
    | stop hw hstop => exact .stop hw (by rw [← ha _ hw]; exact hstop)
    | again hw hgo _ ih => exact .again hw (by rw [← ha _ hw]; exact hgo) ih
  funext w r w'
  exact propext ⟨step ha, step fun w hw => (ha w hw).symm⟩

theorem branch_congr_at {c c' : Program W} {w : W} (h : c w = c' w) (a b : Program W) :
    branch c a b w = branch c' a b w := by
  funext r w'
  simp only [branch, h]

end Outcomes
