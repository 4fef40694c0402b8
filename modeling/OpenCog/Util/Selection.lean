import Mathlib.Algebra.Order.BigOperators.Group.List
import Mathlib.Algebra.Order.Floor.Ring
import Mathlib.Data.Rat.Floor
import Mathlib.Tactic.Linarith

/-! `roulette_select`: a position is drawn by its weight, given the sum of the weights. -/
namespace OpenCog.Util

/-- The loop, which runs past the end where the weights do not exceed the sum. -/
def rouletteFrom : List Int → Int → Option Nat
  | [], _ => none
  | p :: ps, sum =>
    let sum := sum - p
    if 0 ≤ sum then (rouletteFrom ps sum).map (· + 1) else some 0

/-- `draw` is what `randdouble` returns. -/
def rouletteSelect (probs : List Int) (sum : Int) (draw : Rat) : Option Nat :=
  rouletteFrom probs ⌊(sum : Rat) * draw⌋

theorem rouletteFrom_spec {ps : List Int} (hps : ∀ p ∈ ps, 0 ≤ p) {sum : Int} (h0 : 0 ≤ sum)
    (hsum : sum < ps.sum) : ∃ i p, rouletteFrom ps sum = some i ∧ ps[i]? = some p ∧ 0 < p := by
  induction ps generalizing sum with
  | nil => simp only [List.sum_nil] at hsum; omega
  | cons p ps ih =>
    rw [List.sum_cons] at hsum
    rw [rouletteFrom]
    by_cases h : 0 ≤ sum - p
    · obtain ⟨i, q, hi, hq, hpos⟩ :=
        ih (fun q hq => hps q (List.mem_cons_of_mem p hq)) h (by omega)
      exact ⟨i + 1, q, by simp only [if_pos h, hi, Option.map_some], hq, hpos⟩
    · exact ⟨0, p, by simp only [if_neg h], rfl, by omega⟩

theorem rouletteFrom_append {ps : List Int} {sum : Int} {i : Nat} (h : rouletteFrom ps sum = some i)
    (qs : List Int) : rouletteFrom (ps ++ qs) sum = some i := by
  induction ps generalizing sum i with
  | nil => cases h
  | cons p ps ih =>
    rw [List.cons_append, rouletteFrom]
    rw [rouletteFrom] at h
    by_cases hle : 0 ≤ sum - p
    · simp only [if_pos hle] at h ⊢
      obtain ⟨j, hj, rfl⟩ := Option.map_eq_some_iff.mp h
      rw [ih hj, Option.map_some]
    · simpa only [if_neg hle] using h

/-- The loop goes on behind weights that do not exceed the sum. -/
theorem rouletteFrom_past {ps : List Int} (hps : ∀ p ∈ ps, 0 ≤ p) {sum : Int} (h : ps.sum ≤ sum)
    (qs : List Int) :
    rouletteFrom (ps ++ qs) sum = (rouletteFrom qs (sum - ps.sum)).map (· + ps.length) := by
  induction ps generalizing sum with
  | nil => simp
  | cons p ps ih =>
    rw [List.sum_cons] at h
    have hsum : 0 ≤ ps.sum := List.sum_nonneg fun q hq => hps q (List.mem_cons_of_mem p hq)
    rw [List.cons_append, rouletteFrom]
    simp only [if_pos (show 0 ≤ sum - p by omega)]
    rw [ih (fun q hq => hps q (List.mem_cons_of_mem p hq)) (by omega), List.sum_cons,
      Option.map_map, show sum - p - ps.sum = sum - (p + ps.sum) by omega]
    rfl

/-- With the right sum a position of positive weight is drawn. -/
theorem rouletteSelect_spec {ps : List Int} (hps : ∀ p ∈ ps, 0 ≤ p) (hsum : 0 < ps.sum)
    {draw : Rat} (h0 : 0 ≤ draw) (h1 : draw < 1) :
    ∃ i p, rouletteSelect ps ps.sum draw = some i ∧ ps[i]? = some p ∧ 0 < p := by
  have hpos : (0 : Rat) < ps.sum := by exact_mod_cast hsum
  apply rouletteFrom_spec hps
  · exact Int.floor_nonneg.mpr (mul_nonneg hpos.le h0)
  · rw [Int.floor_lt]
    calc (ps.sum : Rat) * draw < ps.sum * 1 := mul_lt_mul_of_pos_left h1 hpos
      _ = ps.sum := mul_one _

/-- Distinct powers of two below the `n`-th come to less than it. -/
theorem sum_two_pow_lt {l : List Nat} (hl : l.Pairwise (· > ·)) {n : Nat}
    (hn : ∀ a ∈ l, a < n) : (l.map (2 ^ ·)).sum < 2 ^ n := by
  induction l generalizing n with
  | nil => simp
  | cons a l ih =>
    obtain ⟨ha, hl⟩ := List.pairwise_cons.mp hl
    have hrest := ih hl ha
    have han := hn a List.mem_cons_self
    calc ((a :: l).map (2 ^ ·)).sum < 2 ^ a + 2 ^ a := by
          rw [List.map_cons, List.sum_cons]
          omega
      _ = 2 ^ (a + 1) := by ring
      _ ≤ 2 ^ n := Nat.pow_le_pow_right (by decide) han

end OpenCog.Util
