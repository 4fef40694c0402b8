import Mathlib

/-! Fields of bits in 32-bit words: reading, writing by exclusive or under a mask,
and filling of empty bits. -/
namespace BitField

abbrev Word := BitVec 32

/-- The low `w` bits. -/
def mask (w : Nat) : Word := (1#32 <<< w) - 1#32

def get (x : Word) (lo w : Nat) : Word := (x >>> lo) &&& mask w

def set (x : Word) (lo w v : Nat) : Word :=
  x ^^^ ((x ^^^ (BitVec.ofNat 32 v <<< lo)) &&& (mask w <<< lo))

theorem mask_eq {w : Nat} (hw : w < 32) : mask w = BitVec.ofNat 32 (2 ^ w - 1) := by
  have hlt : 2 ^ w < 2 ^ 32 := Nat.pow_lt_pow_right (by decide) hw
  have hpos : 0 < 2 ^ w := Nat.two_pow_pos w
  apply BitVec.eq_of_toNat_eq
  simp only [mask, BitVec.toNat_sub, BitVec.toNat_shiftLeft, BitVec.toNat_ofNat, Nat.shiftLeft_eq]
  omega

theorem getLsbD_mask {w : Nat} (hw : w < 32) (k : Nat) : (mask w).getLsbD k = decide (k < w) := by
  rw [mask_eq hw, BitVec.getLsbD_ofNat, Nat.testBit_two_pow_sub_one]
  by_cases h : k < w
  · simp [h]
    omega
  · simp [h]

theorem getLsbD_get {x : Word} {lo w : Nat} (hw : w < 32) (k : Nat) :
    (get x lo w).getLsbD k = (decide (k < w) && x.getLsbD (lo + k)) := by
  rw [get, BitVec.getLsbD_and, BitVec.getLsbD_ushiftRight, getLsbD_mask hw, Bool.and_comm]

/-- A write changes the bits of its field, and no others. -/
theorem getLsbD_set {x : Word} {lo w v : Nat} (hw : w < 32) {k : Nat} (hk : k < 32) :
    (set x lo w v).getLsbD k =
      if lo ≤ k ∧ k < lo + w then v.testBit (k - lo) else x.getLsbD k := by
  simp only [set, BitVec.getLsbD_xor, BitVec.getLsbD_and, BitVec.getLsbD_shiftLeft,
    getLsbD_mask hw, BitVec.getLsbD_ofNat, hk, decide_true, Bool.true_and]
  by_cases h : lo ≤ k ∧ k < lo + w
  · have h₁ : ¬ k < lo := by omega
    have h₂ : k - lo < w := by omega
    have h₃ : k - lo < 32 := by omega
    rw [if_pos h]
    simp [h₁, h₂, h₃]
  · rw [if_neg h]
    by_cases h₁ : k < lo
    · simp [h₁]
    · have h₂ : ¬ k - lo < w := by omega
      simp [h₁, h₂]

theorem toNat_get_one (x : Word) (lo : Nat) :
    (get x lo 1).toNat = if x.getLsbD lo then 1 else 0 := by
  apply Nat.eq_of_testBit_eq
  intro k
  rw [BitVec.testBit_toNat, getLsbD_get (by decide)]
  cases k with
  | zero => by_cases h : x.getLsbD lo = true <;> simp [h]
  | succ k => by_cases h : x.getLsbD lo = true <;> simp [h, Nat.testBit_succ]

/-- Of a field that goes over the end of the word, the part in the word holds a value. -/
theorem toNat_get_set_self {x : Word} {lo w v : Nat} (hw : w < 32) :
    (get (set x lo w v) lo w).toNat = v % 2 ^ min w (32 - lo) := by
  apply Nat.eq_of_testBit_eq
  intro k
  rw [BitVec.testBit_toNat, getLsbD_get hw, Nat.testBit_mod_two_pow]
  by_cases hk : k < w
  · by_cases hword : lo + k < 32
    · rw [getLsbD_set hw hword, if_pos (by omega), decide_eq_true hk,
        decide_eq_true (p := k < min w (32 - lo)) (by omega), Nat.add_sub_cancel_left]
    · rw [BitVec.getLsbD_of_ge _ _ (Nat.not_lt.mp hword),
        decide_eq_false (p := k < min w (32 - lo)) (by omega), Bool.and_false, Bool.false_and]
  · rw [decide_eq_false hk, decide_eq_false (p := k < min w (32 - lo)) (by omega), Bool.false_and,
      Bool.false_and]

theorem get_set_other {x : Word} {lo w v lo' w' : Nat} (hw : w < 32) (hw' : w' < 32)
    (hd : lo + w ≤ lo' ∨ lo' + w' ≤ lo) : get (set x lo w v) lo' w' = get x lo' w' := by
  apply BitVec.eq_of_getLsbD_eq
  intro k _
  rw [getLsbD_get hw', getLsbD_get hw']
  by_cases hk : k < w' ∧ lo' + k < 32
  · rw [getLsbD_set hw hk.2, if_neg (by omega)]
  · by_cases hk' : k < w'
    · have hword : 32 ≤ lo' + k := by omega
      rw [BitVec.getLsbD_of_ge _ _ hword, BitVec.getLsbD_of_ge _ _ hword]
    · simp [hk']

theorem getLsbD_one_shiftLeft (lo : Nat) {k : Nat} (hk : k < 32) :
    (1#32 <<< lo).getLsbD k = decide (k = lo) := by
  rw [← BitVec.twoPow_eq, BitVec.getLsbD_twoPow]
  by_cases e : k = lo
  · simp [← e, hk]
  · simp [e, Ne.symm e]

/-- To set one bit, to clear it, and to flip it. -/
theorem set_one_bit (x : Word) (lo : Nat) :
    set x lo 1 1 = x ||| (1#32 <<< lo) ∧ set x lo 1 0 = x &&& ~~~(1#32 <<< lo) ∧
      set x lo 1 (if x.getLsbD lo then 0 else 1) = x ^^^ (1#32 <<< lo) := by
  refine ⟨BitVec.eq_of_getLsbD_eq fun k hk => ?_, BitVec.eq_of_getLsbD_eq fun k hk => ?_,
    BitVec.eq_of_getLsbD_eq fun k hk => ?_⟩
  · rw [getLsbD_set (by decide) hk, BitVec.getLsbD_or, getLsbD_one_shiftLeft lo hk]
    by_cases e : k = lo
    · subst e
      simp
    · rw [if_neg (by omega)]
      simp [e]
  · rw [getLsbD_set (by decide) hk, BitVec.getLsbD_and, BitVec.getLsbD_not,
      getLsbD_one_shiftLeft lo hk]
    by_cases e : k = lo
    · subst e
      simp
    · rw [if_neg (by omega)]
      simp [e, hk]
  · rw [getLsbD_set (by decide) hk, BitVec.getLsbD_xor, getLsbD_one_shiftLeft lo hk]
    by_cases e : k = lo
    · subst e
      by_cases hbit : x.getLsbD k = true
      · simp [hbit]
      · simp [hbit]
    · rw [if_neg (by omega)]
      simp [e]

end BitField
