import OpenCog.Moses.PlainFields

/-! The bit tricks in the machine words they are computed in: `size_t` of 64 bits and
`unsigned int` of 32. The numbers of the field sets are what the words hold. -/
namespace OpenCog.Moses.MachineWords

def nextPowerOfTwo (x : BitVec 64) : BitVec 64 :=
  let x := x - 1#64
  let x := x ||| (x >>> 1)
  let x := x ||| (x >>> 2)
  let x := x ||| (x >>> 4)
  let x := x ||| (x >>> 8)
  let x := x ||| (x >>> 16)
  x + 1#64

def smear (v : BitVec 64) : BitVec 64 :=
  let v := v ||| (v >>> 1)
  let v := v ||| (v >>> 2)
  let v := v ||| (v >>> 4)
  let v := v ||| (v >>> 8)
  v ||| (v >>> 16)

/-- The product is cut to 32 bits before its highest five select from the table. -/
def integerLog2 (v : BitVec 64) : BitVec 32 :=
  let v := (smear v >>> 1) + 1#64
  BitVec.ofNat 32
    (multiplyDeBruijnBitPosition.getD ((v * 0x077CB531#64).setWidth 32 >>> 27).toNat 0)

/-- Nothing for an assertion that fails. The logarithm is widened to `size_t`, and the
power narrowed to `unsigned int`. -/
def nbitsToPack (arity : BitVec 64) : Option (BitVec 32) :=
  if 0#64 < arity then
    some ((nextPowerOfTwo ((integerLog2 (arity - 1#64) + 1#32).setWidth 64)).setWidth 32)
  else none

/-! ## What the words hold -/

theorem toNat_smear (v : BitVec 64) : (smear v).toNat = Moses.smear v.toNat := by
  simp only [smear, Moses.smear, BitVec.toNat_or, BitVec.toNat_ushiftRight]

theorem toNat_nextPowerOfTwo (x : BitVec 64) :
    (nextPowerOfTwo x).toNat = Moses.nextPowerOfTwo x.toNat := by
  have hpred : (x - 1#64).toNat = (x.toNat + 2 ^ 64 - 1) % 2 ^ 64 := by
    rw [BitVec.toNat_sub]
    have hx := x.isLt
    simp only [BitVec.toNat_ofNat]
    omega
  simp only [nextPowerOfTwo, Moses.nextPowerOfTwo, BitVec.toNat_add, BitVec.toNat_or,
    BitVec.toNat_ushiftRight, hpred, BitVec.toNat_ofNat, Nat.reducePow, Nat.reduceMod]

/-- The highest product bits, which are cut off, do not reach the index. -/
theorem toNat_index (v : BitVec 64) :
    ((((smear v >>> 1) + 1#64) * 0x077CB531#64).setWidth 32 >>> 27).toNat =
      ((((Moses.smear v.toNat >>> 1) + 1) * 0x077CB531) % 2 ^ 32) >>> 27 := by
  have hproduct : ((((smear v >>> 1) + 1#64) * 0x077CB531#64).setWidth 32).toNat =
      ((Moses.smear v.toNat >>> 1) + 1) * 0x077CB531 % 2 ^ 32 := by
    rw [BitVec.toNat_setWidth, BitVec.toNat_mul, BitVec.toNat_add, BitVec.toNat_ushiftRight,
      toNat_smear]
    simp only [BitVec.toNat_ofNat]
    omega
  rw [BitVec.toNat_ushiftRight, hproduct]

theorem toNat_integerLog2 (v : BitVec 64) :
    (integerLog2 v).toNat = Moses.integerLog2 v.toNat := by
  have hlog : integerLog2 v = BitVec.ofNat 32 (Moses.integerLog2 v.toNat) := by
    simp only [integerLog2, toNat_index, Moses.integerLog2]
  rw [hlog, BitVec.toNat_ofNat]
  exact Nat.mod_eq_of_lt (Nat.lt_of_le_of_lt (integerLog2_le _) (by decide))

/-- Widening and narrowing lose nothing. -/
theorem toNat_nbitsToPack {a : BitVec 64} {p : BitVec 32} (h : nbitsToPack a = some p) :
    p.toNat = Moses.nbitsToPack a.toNat := by
  unfold nbitsToPack at h
  split at h
  · rename_i hpos
    have hpred : (a - 1#64).toNat = a.toNat - 1 := by
      have ha := a.isLt
      rw [BitVec.lt_def, BitVec.toNat_ofNat] at hpos
      rw [BitVec.toNat_sub, BitVec.toNat_ofNat]
      omega
    have hlog : ((integerLog2 (a - 1#64) + 1#32).setWidth 64).toNat =
        Moses.integerLog2 (a.toNat - 1) + 1 := by
      have hle := integerLog2_le (a.toNat - 1)
      rw [BitVec.toNat_setWidth, BitVec.toNat_add, toNat_integerLog2, hpred, BitVec.toNat_ofNat]
      omega
    have hmem := nbitsToPack_mem a.toNat
    have hle : Moses.nbitsToPack a.toNat ≤ 32 := by
      simp only [List.mem_cons, List.not_mem_nil, or_false] at hmem
      omega
    rw [← Option.some.inj h, BitVec.toNat_setWidth, toNat_nextPowerOfTwo, hlog]
    exact Nat.mod_eq_of_lt (Nat.lt_of_le_of_lt hle (by decide))
  · cases h

/-! ## The least width -/

/-- The power of two found over the logarithm is the least one that is not below. -/
theorem nextPowerOfTwo_isLeast {m : Nat} (h : 0 < m) (h' : m ≤ 32) :
    IsLeast {q | (∃ k, q = 2 ^ k) ∧ m ≤ q} (Moses.nextPowerOfTwo m) := by
  have hall : ∀ n < 32, (∃ k < 6, Moses.nextPowerOfTwo (n + 1) = 2 ^ k) ∧
      n + 1 ≤ Moses.nextPowerOfTwo (n + 1) ∧
      ∀ k < 6, n + 1 ≤ 2 ^ k → Moses.nextPowerOfTwo (n + 1) ≤ 2 ^ k := by decide
  obtain ⟨⟨k, hk, hpow⟩, hle, hleast⟩ := hall (m - 1) (by omega)
  rw [Nat.sub_add_cancel h] at hpow hle hleast
  refine ⟨⟨⟨k, hpow⟩, hle⟩, ?_⟩
  rintro q ⟨⟨j, rfl⟩, hq⟩
  by_cases hj : j < 6
  · exact hleast j hj hq
  · have hk5 : 2 ^ k ≤ 2 ^ 5 := Nat.pow_le_pow_right (by decide) (by omega)
    have hj5 : 2 ^ 5 ≤ 2 ^ j := Nat.pow_le_pow_right (by decide) (by omega)
    omega

/-- So many bits hold the values iff they are more than the logarithm of the greatest. -/
theorem le_two_pow_iff {a q : Nat} (ha : 1 ≤ a) (hq : 0 < q) :
    a ≤ 2 ^ q ↔ (a - 1).log2 + 1 ≤ q := by
  by_cases h : a - 1 = 0
  · rw [h]
    exact iff_of_true (by have := Nat.two_pow_pos q; omega) hq
  · rw [Nat.add_one_le_iff, Nat.log2_lt h]
    omega

/-- The width of a field for at least one value and fewer than `2 ^ 32`: the least power of two
bits that tell so many values apart. -/
theorem nbitsToPack_isLeast (a : BitVec 64) (h : 1 ≤ a.toNat) (h' : a.toNat < 2 ^ 32) :
    ∃ p, nbitsToPack a = some p ∧
      IsLeast {q : Nat | (∃ k, q = 2 ^ k) ∧ a.toNat ≤ 2 ^ q} p.toNat := by
  have hpos : 0#64 < a := by
    rw [BitVec.lt_def, BitVec.toNat_ofNat]
    exact h
  obtain ⟨p, hp⟩ : ∃ p, nbitsToPack a = some p := ⟨_, if_pos hpos⟩
  refine ⟨p, hp, ?_⟩
  have hbits : {q : Nat | (∃ k, q = 2 ^ k) ∧ a.toNat ≤ 2 ^ q} =
      {q | (∃ k, q = 2 ^ k) ∧ (a.toNat - 1).log2 + 1 ≤ q} := by
    ext q
    refine and_congr_right ?_
    rintro ⟨k, rfl⟩
    exact le_two_pow_iff h (Nat.two_pow_pos k)
  rw [hbits, toNat_nbitsToPack hp, Moses.nbitsToPack, integerLog2_eq (by omega)]
  refine nextPowerOfTwo_isLeast (Nat.succ_pos _) ?_
  by_cases hv : a.toNat - 1 = 0
  · rw [hv]
    decide
  · exact (Nat.log2_lt hv).mpr (by omega)

/-- The value of the comment. -/
theorem nbitsToPack_fifty : 1 ≤ (50#64).toNat ∧ (50#64).toNat < 2 ^ 32 ∧
    nbitsToPack 50#64 = some 8#32 ∧
    ∃ p, nbitsToPack 50#64 = some p ∧
      IsLeast {q : Nat | (∃ k, q = 2 ^ k) ∧ (50#64).toNat ≤ 2 ^ q} p.toNat :=
  ⟨by decide, by decide, by decide, nbitsToPack_isLeast 50#64 (by decide) (by decide)⟩

end OpenCog.Moses.MachineWords
