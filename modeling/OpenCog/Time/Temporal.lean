import Mathlib

/-! Temporals: instants, intervals and normal distributions over 64-bit unsigned
numbers, and the order the temporal table sorts by. -/
namespace OpenCog

def UINT_MAX : Nat := 4294967295
def ULONG_SIZE : Nat := 18446744073709551616

/-- What `Temporal::init` lets through. The sum it checks is taken in an unsigned
long long, which is no wider than the operands. `UNDEFINED_TEMPORAL` fails the
check and is the absent value of the optional arguments below. -/
structure Temporal where
  a : Nat
  b : Nat
  normal : Bool
  a_lt : a < ULONG_SIZE
  b_lt : b < ULONG_SIZE
  sane : if normal then b ≤ a ∧ (a + b) % ULONG_SIZE ≤ UINT_MAX else a ≤ b
  deriving DecidableEq

namespace Temporal

/-- The constructor; it throws where the checks fail. -/
def init (a b : Nat) (normal : Bool) : Option Temporal :=
  if h : a < ULONG_SIZE ∧ b < ULONG_SIZE ∧
      if normal then b ≤ a ∧ (a + b) % ULONG_SIZE ≤ UINT_MAX else a ≤ b
  then some ⟨a, b, normal, h.1, h.2.1, h.2.2⟩ else none

def getLowerBound (t : Temporal) : Nat := if t.normal then t.a - t.b else t.a
def getUpperBound (t : Temporal) : Nat := if t.normal then (t.a + t.b) % ULONG_SIZE else t.b

def compareTo (t other : Temporal) : Int :=
  if t.getLowerBound < other.getLowerBound then -1
  else if other.getLowerBound < t.getLowerBound then 1
  else if t.getUpperBound < other.getUpperBound then -1
  else if other.getUpperBound < t.getUpperBound then 1
  else if t.normal then (if other.normal then 0 else -1)
  else if other.normal then 1 else 0

/-- The lexicographic key behind `compareTo`: lower bound, upper bound, and
normal distributions before intervals. -/
def rank (t : Temporal) : ℕ ×ₗ ℕ ×ₗ ℕ :=
  toLex (t.getLowerBound, toLex (t.getUpperBound, if t.normal then 0 else 1))

theorem compareTo_range (t u : Temporal) :
    t.compareTo u = -1 ∨ t.compareTo u = 0 ∨ t.compareTo u = 1 := by
  unfold compareTo
  grind

theorem compareTo_eq_zero (t u : Temporal) : t.compareTo u = 0 ↔ t.rank = u.rank := by
  unfold compareTo rank
  rw [toLex_inj, Prod.mk.injEq, toLex_inj, Prod.mk.injEq]
  cases t.normal <;> cases u.normal <;> grind

theorem compareTo_neg (t u : Temporal) : t.compareTo u < 0 ↔ t.rank < u.rank := by
  unfold compareTo rank
  rw [Prod.Lex.toLex_lt_toLex, Prod.Lex.toLex_lt_toLex]
  cases t.normal <;> cases u.normal <;> grind

theorem compareTo_pos (t u : Temporal) : 0 < t.compareTo u ↔ u.rank < t.rank := by
  unfold compareTo rank
  rw [Prod.Lex.toLex_lt_toLex, Prod.Lex.toLex_lt_toLex]
  cases t.normal <;> cases u.normal <;> grind

end Temporal

/-- The relations a lookup or a removal may ask for. -/
inductive TemporalRelationship where
  | EXACT | STARTS_BEFORE | STARTS_WITHIN | STARTS_AFTER | ENDS_BEFORE | ENDS_WITHIN | ENDS_AFTER
  | OVERLAPS | INCLUDES | NEXT_AFTER_START_OF | NEXT_AFTER_END_OF | PREVIOUS_BEFORE_START_OF
  | PREVIOUS_BEFORE_END_OF
  deriving DecidableEq

/-- The two criteria that keep only the last match. -/
def TemporalRelationship.isPrevious (criterion : TemporalRelationship) : Bool :=
  criterion = .PREVIOUS_BEFORE_START_OF || criterion = .PREVIOUS_BEFORE_END_OF

/-- Whether `time` matches, and whether the search along the sorted list may stop. -/
def matchesTimeCriterion (time t : Temporal) : TemporalRelationship → Bool × Bool
  | .EXACT => let m := decide (t = time); (m, m)
  | .OVERLAPS =>
    let m := decide (t.getLowerBound ≤ time.getUpperBound ∧ time.getLowerBound ≤ t.getUpperBound)
    (m, !m && decide (t.getUpperBound < time.getLowerBound))
  | .INCLUDES =>
    let m := decide (time.getLowerBound ≤ t.getLowerBound ∧ t.getUpperBound ≤ time.getUpperBound)
    (m, !m && decide (t.getLowerBound < time.getLowerBound))
  | .STARTS_BEFORE =>
    let m := decide (time.getLowerBound < t.getLowerBound)
    (m, !m && decide (t.getLowerBound ≤ time.getLowerBound))
  | .STARTS_WITHIN =>
    let m := decide (t.getLowerBound ≤ time.getLowerBound ∧ time.getLowerBound ≤ t.getUpperBound)
    (m, !m && decide (t.getUpperBound < time.getLowerBound))
  | .STARTS_AFTER => (decide (t.getUpperBound < time.getLowerBound), false)
  | .ENDS_BEFORE =>
    let m := decide (time.getUpperBound < t.getLowerBound)
    (m, !m && decide (t.getLowerBound ≤ time.getLowerBound))
  | .ENDS_WITHIN =>
    let m := decide (t.getLowerBound ≤ time.getUpperBound ∧ time.getUpperBound ≤ t.getUpperBound)
    (m, !m && decide (t.getUpperBound < time.getLowerBound))
  | .ENDS_AFTER => (decide (t.getUpperBound < time.getUpperBound), false)
  | .NEXT_AFTER_START_OF => let m := decide (t.getLowerBound < time.getLowerBound); (m, m)
  | .NEXT_AFTER_END_OF => let m := decide (t.getUpperBound < time.getLowerBound); (m, m)
  | .PREVIOUS_BEFORE_START_OF => let m := decide (time.getLowerBound < t.getLowerBound); (m, !m)
  | .PREVIOUS_BEFORE_END_OF => let m := decide (time.getLowerBound < t.getUpperBound); (m, !m)

end OpenCog
