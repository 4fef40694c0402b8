import Mathlib

/-! The closed-interval binary search, as a bottom-tested loop over signed bounds
whose reads may fail. -/
namespace BinarySearch

/-- `compare pos` is the sign of the element at `pos` against the key, and fails
where there is no element to read. -/
def loop (compare : Int → Option Int) : Nat → Int → Int → Option Int
  | 0, _, _ => none
  | fuel + 1, low, up => do
    let pos := (up + low).tdiv 2
    let c ← compare pos
    if 0 < c then
      if low ≤ pos - 1 then loop compare fuel low (pos - 1) else some (pos - 1)
    else if c < 0 then
      if pos + 1 ≤ up then loop compare fuel (pos + 1) up else some up
    else some pos

/-- Where a search in `[0, n)` ends: at an equal element, or at the last element
below the key. -/
structure Found (sign : Int → Int) (n pos : Int) : Prop where
  low : -1 ≤ pos
  up : pos < n
  here : 0 ≤ pos → sign pos ≤ 0
  after : sign pos ≠ 0 ∨ pos = -1 → ∀ j, pos < j → j < n → 0 < sign j

section
variable {compare : Int → Option Int} {sign : Int → Int} {n : Int}
  (reads : ∀ i, 0 ≤ i → i < n → compare i = some (sign i))
  (mono : ∀ i j, 0 ≤ i → i ≤ j → j < n → sign i ≤ sign j)
include reads mono

/-- The loop keeps everything below `low` under the key and everything above `up`
over it, so it reads inside the interval only and ends where it should. -/
theorem loop_spec (fuel : Nat) (low up : Int) (hlow : 0 ≤ low) (hle : low ≤ up) (hup : up < n)
    (below : ∀ j, 0 ≤ j → j < low → sign j < 0) (above : ∀ j, up < j → j < n → 0 < sign j)
    (hfuel : up - low < fuel) : ∃ pos, loop compare fuel low up = some pos ∧ Found sign n pos := by
  induction fuel generalizing low up with
  | zero => omega
  | succ fuel ih =>
    have hmid : low ≤ (up + low).tdiv 2 ∧ (up + low).tdiv 2 ≤ up := by
      rw [Int.tdiv_eq_ediv_of_nonneg (by omega)]
      omega
    generalize hpos : (up + low).tdiv 2 = pos at hmid
    have hread := reads pos (by omega) (by omega)
    simp only [loop, hpos, hread, Option.bind_eq_bind, Option.bind_some]
    by_cases hgt : 0 < sign pos
    · have habove : ∀ j, pos - 1 < j → j < n → 0 < sign j := by
        intro j hj hjn
        have := mono pos j (by omega) (by omega) hjn
        omega
      rw [if_pos hgt]
      by_cases hmore : low ≤ pos - 1
      · rw [if_pos hmore]
        exact ih low (pos - 1) hlow hmore (by omega) below habove (by omega)
      · rw [if_neg hmore]
        refine ⟨pos - 1, rfl, by omega, by omega, ?_, fun _ => habove⟩
        intro h0
        have := below (pos - 1) h0 (by omega)
        omega
    · rw [if_neg hgt]
      by_cases hlt : sign pos < 0
      · have hbelow : ∀ j, 0 ≤ j → j < pos + 1 → sign j < 0 := by
          intro j hj hjp
          have := mono j pos hj (by omega) (by omega)
          omega
        rw [if_pos hlt]
        by_cases hmore : pos + 1 ≤ up
        · rw [if_pos hmore]
          exact ih (pos + 1) up (by omega) hmore hup hbelow above (by omega)
        · rw [if_neg hmore]
          refine ⟨up, rfl, by omega, hup, ?_, fun _ => above⟩
          intro h0
          have := hbelow up h0 (by omega)
          omega
      · rw [if_neg hlt]
        refine ⟨pos, rfl, by omega, by omega, fun _ => by omega, ?_⟩
        rintro (h | h)
        · omega
        · omega

end

end BinarySearch
