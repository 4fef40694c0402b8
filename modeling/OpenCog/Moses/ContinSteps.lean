import OpenCog.Moses.Representation

/-! The values of a continuous variable as turns in a tree of steps, which grow until the first
change of direction and halve from there on: what is reached after a turn stays on its side. -/
namespace OpenCog.Moses

inductive Turn where
  | left
  | right
  deriving DecidableEq

namespace Turn

def opposite : Turn → Turn
  | left => right
  | right => left

/-- How far `x` lies from `y` in this direction. -/
def offset (t : Turn) (x y : ℚ) : ℚ :=
  match t with
  | left => y - x
  | right => x - y

theorem eq_or_opposite (t t' : Turn) : t' = t ∨ t' = t.opposite := by
  cases t <;> cases t' <;> decide

@[simp] theorem opposite_opposite (t : Turn) : t.opposite.opposite = t := by
  cases t <;> rfl

@[simp] theorem offset_self (t : Turn) (x : ℚ) : t.offset x x = 0 := by
  cases t <;> simp [offset]

theorem offset_add (t : Turn) (x y z : ℚ) : t.offset x z = t.offset x y + t.offset y z := by
  cases t <;> simp [offset]

theorem offset_opposite (t : Turn) (x y : ℚ) : t.opposite.offset x y = -t.offset x y := by
  cases t <;> simp [offset, opposite]

theorem offset_le_abs (t : Turn) (x y : ℚ) : t.offset x y ≤ |y - x| := by
  cases t with
  | left => exact le_abs_self _
  | right => exact (le_abs_self _).trans_eq (abs_sub_comm _ _)

end Turn

namespace ContinStepper

section Steps
variable {C : Type} [Add C] [Sub C] [Mul C] [Div C] [OfNat C 2]

def turn (s : ContinStepper C) (expansion : C) : Turn → ContinStepper C
  | .left => s.left expansion
  | .right => s.right expansion

def turns (s : ContinStepper C) (expansion : C) (ts : List Turn) : ContinStepper C :=
  ts.foldl (fun s t => s.turn expansion t) s

/-- All turns so far were in this direction. -/
def all (s : ContinStepper C) : Turn → Bool
  | .left => s.allLeft
  | .right => s.allRight

/-- The length of the next step in this direction. -/
def reach (s : ContinStepper C) (expansion : C) (t : Turn) : C :=
  if s.all t then s.stepSize
  else if s.all t.opposite then s.stepSize / (expansion * 2)
  else s.stepSize

@[simp] theorem turns_nil (s : ContinStepper C) (e : C) : s.turns e [] = s := rfl

@[simp] theorem turns_cons (s : ContinStepper C) (e : C) (t : Turn) (ts : List Turn) :
    s.turns e (t :: ts) = (s.turn e t).turns e ts := rfl

end Steps

section Order
variable {s : ContinStepper ℚ} {e r : ℚ} {t t' : Turn} {ts ts' : List Turn} {n m : Nat}

/-! ## One turn -/

theorem offset_turn (s : ContinStepper ℚ) (e : ℚ) (t : Turn) :
    t.offset (s.turn e t).value s.value = s.reach e t := by
  cases t with
  | left =>
    cases hl : s.allLeft <;> cases hr : s.allRight <;>
      simp [turn, left, reach, all, Turn.offset, Turn.opposite, hl, hr]
  | right =>
    cases hl : s.allLeft <;> cases hr : s.allRight <;>
      simp [turn, right, reach, all, Turn.offset, Turn.opposite, hl, hr]

theorem all_turn_opposite (s : ContinStepper ℚ) (e : ℚ) (t : Turn) :
    (s.turn e t).all t.opposite = false := by
  cases t with
  | left => cases hl : s.allLeft <;> simp [turn, left, all, Turn.opposite, hl]
  | right => cases hr : s.allRight <;> simp [turn, right, all, Turn.opposite, hr]

theorem all_turn_self (s : ContinStepper ℚ) (e : ℚ) (t : Turn) :
    (s.turn e t).all t = s.all t := by
  cases t with
  | left => cases hl : s.allLeft <;> simp [turn, left, all, hl]
  | right => cases hr : s.allRight <;> simp [turn, right, all, hr]

theorem stepSize_turn (s : ContinStepper ℚ) (e : ℚ) (t : Turn) :
    (s.turn e t).stepSize = if s.all t then s.stepSize * e else s.reach e t / 2 := by
  cases t with
  | left =>
    cases hl : s.allLeft <;> cases hr : s.allRight <;>
      simp [turn, left, reach, all, Turn.opposite, hl, hr]
  | right =>
    cases hl : s.allLeft <;> cases hr : s.allRight <;>
      simp [turn, right, reach, all, Turn.opposite, hl, hr]

/-- The way back after a step is half of it. -/
theorem reach_turn_opposite (he : e ≠ 0) :
    (s.turn e t).reach e t.opposite = s.reach e t / 2 := by
  rw [reach, all_turn_opposite, Turn.opposite_opposite, all_turn_self, stepSize_turn, reach]
  cases s.all t with
  | false => simp
  | true =>
    simp only [Bool.false_eq_true, if_false, if_true]
    rw [mul_comm e 2, mul_div_mul_right _ _ he]

theorem reach_turn_self : (s.turn e t).reach e t =
    if s.all t then s.reach e t * e else s.reach e t / 2 := by
  rw [reach, all_turn_self, all_turn_opposite, stepSize_turn]
  cases h : s.all t with
  | false => simp
  | true => simp [reach, h]

/-! ## What is in reach -/

/-- The next of so many steps is long enough to be halved that often. -/
def Fine (r e : ℚ) (n : Nat) (s : ContinStepper ℚ) : Prop := ∀ t, r * 2 ^ n ≤ s.reach e t

theorem Fine.turn (h : Fine r e (n + 1) s) (hr : 0 ≤ r) (he : 1 ≤ e) (t : Turn) :
    Fine r e n (s.turn e t) := by
  have hpos : 0 ≤ r * 2 ^ n := by positivity
  have hstep : r * 2 ^ n ≤ s.reach e t / 2 := by
    have := h t
    rw [pow_succ] at this
    linarith
  intro t'
  rcases t.eq_or_opposite t' with rfl | rfl
  · rw [reach_turn_self]
    split
    · have hle : s.reach e t' * 1 ≤ s.reach e t' * e :=
        mul_le_mul_of_nonneg_left he (by linarith)
      linarith
    · exact hstep
  · rw [reach_turn_opposite (by linarith)]
    exact hstep

theorem Fine.mono (h : Fine r e m s) (hr : 0 ≤ r) (hn : n ≤ m) : Fine r e n s :=
  fun t => (mul_le_mul_of_nonneg_left (pow_le_pow_right₀ one_le_two hn) hr).trans (h t)

/-- Not on the way out in a direction, one gets less than twice the next step in it. -/
theorem offset_turns_le (hr : 0 ≤ r) (he : 1 ≤ e) (hf : Fine r e ts.length s)
    (ht : s.all t = false) :
    t.offset (s.turns e ts).value s.value ≤ 2 * s.reach e t - 2 * r := by
  have he0 : e ≠ 0 := by linarith
  induction ts generalizing s with
  | nil =>
    have := hf t
    rw [List.length_nil, pow_zero, mul_one] at this
    rw [turns_nil, Turn.offset_self]
    linarith
  | cons t' ts ih =>
    have hf' := hf.turn hr he t'
    rw [turns_cons, Turn.offset_add t _ (s.turn e t').value]
    rcases t.eq_or_opposite t' with rfl | rfl
    · have hrest := ih hf' ((all_turn_self s e t').trans ht)
      rw [reach_turn_self, ht, if_neg Bool.false_ne_true] at hrest
      rw [offset_turn]
      linarith
    · have hback : t.offset (s.turn e t.opposite).value s.value = -s.reach e t.opposite := by
        rw [← offset_turn, Turn.offset_opposite, neg_neg]
      have hall := all_turn_opposite s e t.opposite
      have hway := reach_turn_opposite (s := s) (t := t.opposite) he0
      rw [Turn.opposite_opposite] at hall hway
      have hrest := ih hf' hall
      rw [hway] at hrest
      have hpos : r * 2 ^ (t.opposite :: ts).length ≤ s.reach e t := hf t
      have : 0 ≤ r * 2 ^ (t.opposite :: ts).length := by positivity
      linarith

/-- What is reached after a turn stays on its side. -/
theorem offset_turns_cons (hr : 0 ≤ r) (he : 1 ≤ e) (hf : Fine r e (ts.length + 1) s) :
    2 * r ≤ t.offset (s.turns e (t :: ts)).value s.value := by
  have hback := offset_turns_le hr he (hf.turn hr he t) (all_turn_opposite s e t)
  rw [reach_turn_opposite (by linarith), Turn.offset_opposite] at hback
  rw [turns_cons, Turn.offset_add t _ (s.turn e t).value, offset_turn]
  linarith

/-- Different turns have different values. -/
theorem turns_inj (hr : 0 < r) (he : 1 ≤ e) (hf : Fine r e n s) (hn : ts.length ≤ n)
    (hn' : ts'.length ≤ n) (heq : (s.turns e ts).value = (s.turns e ts').value) : ts = ts' := by
  induction ts generalizing s ts' n with
  | nil =>
    cases ts' with
    | nil => rfl
    | cons t' ts' =>
      have hfar := offset_turns_cons (t := t') hr.le he (hf.mono hr.le hn')
      rw [← heq, turns_nil, Turn.offset_self] at hfar
      linarith
  | cons t ts ih =>
    have hfar := offset_turns_cons (t := t) hr.le he (hf.mono hr.le hn)
    cases ts' with
    | nil =>
      rw [heq, turns_nil, Turn.offset_self] at hfar
      linarith
    | cons t' ts' =>
      have hfar' := offset_turns_cons (t := t') hr.le he (hf.mono hr.le hn')
      rcases t.eq_or_opposite t' with rfl | rfl
      · cases n with
        | zero => cases hn
        | succ n =>
          rw [ih (hf.turn hr.le he t') (Nat.le_of_succ_le_succ hn) (Nat.le_of_succ_le_succ hn') heq]
      · rw [Turn.offset_opposite, ← heq] at hfar'
        linarith

end Order

/-- At the start, with a whole number of halvings. -/
theorem fine_start (mean stepSize e : ℚ) (n : Nat) :
    Fine (stepSize / 2 ^ n) e n ⟨mean, true, true, stepSize⟩ := by
  intro t
  have hreach : reach ⟨mean, true, true, stepSize⟩ e t = stepSize := by cases t <;> rfl
  rw [hreach, div_mul_cancel₀ _ (by positivity)]

end ContinStepper

end OpenCog.Moses
