import Mathlib
import OpenCog.Moses.Representation

/-! The positions of a knob by their indices: the default first, and the disallowed ones
left out. -/
namespace OpenCog.Moses

/-- `knob_with_arity<MaxArity>`, with the position the knob is turned to. -/
structure KnobWithArity (maxArity : Nat) where
  disallowed : BitVec maxArity
  default : Nat
  current : Nat

namespace KnobWithArity

variable {n : Nat}

/-- `bitset::count` -/
def count (b : BitVec n) : Nat := (List.range n).countP b.getLsbD

def disallow (k : KnobWithArity n) (idx : Nat) : KnobWithArity n :=
  { k with disallowed := k.disallowed ||| BitVec.twoPow n idx }

def arity (k : KnobWithArity n) : Nat := n - count k.disallowed

def mapIdx (k : KnobWithArity n) (idx : Nat) : Nat :=
  let idx := if idx = k.default then 0 else if idx = 0 then k.default else idx
  idx + count (k.disallowed <<< (n - idx))

/-- What the knobs of all kinds do with an index; `none` where the assertion fails. -/
def turn (k : KnobWithArity n) (idx : Nat) : Option (KnobWithArity n) :=
  if k.mapIdx idx < n then some { k with current := k.mapIdx idx } else none

def allowed (k : KnobWithArity n) : Set Nat := {p | p < n ∧ k.disallowed.getLsbD p = false}

/-- The indices below the arity stand for the allowed positions, 0 for the default. -/
structure IndexesPositions (k : KnobWithArity n) : Prop where
  bijOn : Set.BijOn k.mapIdx (Set.Iio k.arity) k.allowed
  mapIdx_zero : k.mapIdx 0 = k.default
  turns : ∀ i < k.arity, ∃ p ∈ k.allowed, k.turn i = some { k with current := p }
  reached : ∀ p ∈ k.allowed, ∃! i, i < k.arity ∧ k.turn i = some { k with current := p }

theorem count_eq_card (b : BitVec n) :
    count b = ((Finset.range n).filter fun p => b.getLsbD p = true).card := by
  have hdec : (List.range n).filter b.getLsbD =
      (List.range n).filter fun p => decide (b.getLsbD p = true) :=
    List.filter_congr fun p _ => Bool.decide_eq_true.symm
  rw [count, List.countP_eq_length_filter, hdec]
  rfl

/-- The shift keeps the bits below the index. -/
theorem count_shiftLeft (b : BitVec n) {i : Nat} (hi : i ≤ n) :
    count (b <<< (n - i)) = ((Finset.range i).filter fun p => b.getLsbD p = true).card := by
  rw [count_eq_card]
  refine Finset.card_nbij' (· - (n - i)) (· + (n - i)) ?_ ?_ ?_ ?_
  · intro p hp
    simp only [Finset.coe_filter, Finset.mem_range, BitVec.getLsbD_shiftLeft, Set.mem_ofPred_eq,
      Bool.and_eq_true, Bool.not_eq_true', decide_eq_true_eq, decide_eq_false_iff_not] at hp ⊢
    exact ⟨by omega, hp.2.2⟩
  · intro p hp
    simp only [Finset.coe_filter, Finset.mem_range, BitVec.getLsbD_shiftLeft, Set.mem_ofPred_eq,
      Bool.and_eq_true, Bool.not_eq_true', decide_eq_true_eq, decide_eq_false_iff_not] at hp ⊢
    refine ⟨by omega, ⟨by omega, by omega⟩, ?_⟩
    rw [Nat.add_sub_cancel]
    exact hp.2
  · intro p hp
    simp only [Finset.coe_filter, Finset.mem_range, BitVec.getLsbD_shiftLeft, Set.mem_ofPred_eq,
      Bool.and_eq_true, Bool.not_eq_true', decide_eq_true_eq, decide_eq_false_iff_not] at hp
    change p - (n - i) + (n - i) = p
    omega
  · intro p _
    exact Nat.add_sub_cancel p (n - i)

/-- The disallowed positions below one. -/
def below (k : KnobWithArity n) (i : Nat) : Finset Nat :=
  (Finset.range i).filter fun p => k.disallowed.getLsbD p = true

theorem mem_below {k : KnobWithArity n} {i p : Nat} :
    p ∈ k.below i ↔ p < i ∧ k.disallowed.getLsbD p = true := by
  rw [below, Finset.mem_filter, Finset.mem_range]

theorem arity_add_count (k : KnobWithArity n) : k.arity + (k.below n).card = n := by
  have hle : (k.below n).card ≤ n := by
    have := Finset.card_filter_le (Finset.range n) fun p => k.disallowed.getLsbD p = true
    rwa [Finset.card_range] at this
  have hcount : count k.disallowed = (k.below n).card := count_eq_card k.disallowed
  unfold arity
  omega

theorem mapIdx_zero_eq {k : KnobWithArity n} (hd : k.default < n) :
    k.mapIdx 0 = k.default + (k.below k.default).card := by
  have hidx : (if 0 = k.default then 0 else if 0 = 0 then k.default else 0) = k.default := by
    split <;> simp_all
  unfold mapIdx
  rw [hidx]
  simp only [count_shiftLeft _ hd.le, below]

theorem mapIdx_of_ne {k : KnobWithArity n} {i : Nat} (hi : i ≤ n) (h0 : i ≠ 0)
    (hd : i ≠ k.default) : k.mapIdx i = i + (k.below i).card := by
  unfold mapIdx
  rw [if_neg hd, if_neg h0]
  simp only [count_shiftLeft _ hi, below]

/-- Where nothing below the arity is disallowed, the allowed positions are those below it. -/
theorem mem_allowed_iff {k : KnobWithArity n}
    (hk : ∀ p < k.arity, k.disallowed.getLsbD p = false) {p : Nat} :
    p ∈ k.allowed ↔ p < k.arity := by
  have hsum := k.arity_add_count
  constructor
  · rintro ⟨hp, hfree⟩
    by_contra hge
    -- the disallowed positions lie above the arity, and `p` is not one of them
    have hsub : k.below n ⊆ (Finset.Ico k.arity n).erase p := by
      intro q hq
      obtain ⟨hlt, hq⟩ := mem_below.mp hq
      rw [Finset.mem_erase, Finset.mem_Ico]
      refine ⟨fun e => ?_, ?_, hlt⟩
      · rw [e, hfree] at hq
        cases hq
      · by_contra hlow
        rw [hk q (not_le.mp hlow)] at hq
        cases hq
    have hcard := Finset.card_le_card hsub
    rw [Finset.card_erase_of_mem (Finset.mem_Ico.mpr ⟨not_lt.mp hge, hp⟩), Nat.card_Ico] at hcard
    omega
  · intro hp
    exact ⟨by omega, hk p hp⟩

theorem below_eq_empty {k : KnobWithArity n}
    (hk : ∀ p < k.arity, k.disallowed.getLsbD p = false) {i : Nat} (hi : i ≤ k.arity) :
    k.below i = ∅ := by
  refine Finset.eq_empty_of_forall_notMem fun p hp => ?_
  obtain ⟨hlt, hp⟩ := mem_below.mp hp
  rw [hk p (by omega)] at hp
  cases hp

/-- There the map only swaps the default with 0. -/
theorem mapIdx_eq_swap {k : KnobWithArity n}
    (hk : ∀ p < k.arity, k.disallowed.getLsbD p = false) (hd : k.default < k.arity) {i : Nat}
    (hi : i < k.arity) : k.mapIdx i = Equiv.swap k.default 0 i := by
  have hsum := k.arity_add_count
  by_cases hdef : i = k.default
  · rw [hdef, Equiv.swap_apply_left]
    unfold mapIdx
    rw [if_pos rfl]
    simp only [count_shiftLeft _ (Nat.zero_le n), Finset.range_zero, Finset.filter_empty,
      Finset.card_empty]
  · by_cases h0 : i = 0
    · rw [h0, Equiv.swap_apply_right, mapIdx_zero_eq (by omega), below_eq_empty hk hd.le]
      rfl
    · rw [Equiv.swap_apply_of_ne_of_ne hdef h0, mapIdx_of_ne (by omega) h0 hdef,
        below_eq_empty hk hi.le]
      rfl

theorem turn_eq_some {k : KnobWithArity n} {i p : Nat} (hp : p < n) :
    k.turn i = some { k with current := p } ↔ k.mapIdx i = p := by
  unfold turn
  constructor
  · intro h
    split at h
    · exact congrArg current (Option.some.inj h)
    · cases h
  · rintro rfl
    rw [if_pos hp]

theorem indexesPositions_of_bijOn {k : KnobWithArity n}
    (hbij : Set.BijOn k.mapIdx (Set.Iio k.arity) k.allowed) (hzero : k.mapIdx 0 = k.default) :
    k.IndexesPositions := by
  refine ⟨hbij, hzero, fun i hi => ?_, fun p hp => ?_⟩
  · have hmem := hbij.mapsTo hi
    exact ⟨k.mapIdx i, hmem, (turn_eq_some hmem.1).mpr rfl⟩
  · obtain ⟨i, hi, he⟩ := hbij.surjOn hp
    refine ⟨i, ⟨hi, (turn_eq_some hp.1).mpr he⟩, fun j hj => ?_⟩
    exact hbij.injOn hj.1 hi (((turn_eq_some hp.1).mp hj.2).trans he.symm)

/-- The indices stand for the allowed positions exactly where the disallowed ones are the
last ones. -/
theorem indexesPositions_iff {k : KnobWithArity n} (hd : k.default ∈ k.allowed) :
    k.IndexesPositions ↔ ∀ p < k.arity, k.disallowed.getLsbD p = false := by
  constructor
  · intro h
    have hzero := h.mapIdx_zero
    rw [mapIdx_zero_eq hd.1] at hzero
    have hnone : k.below k.default = ∅ := Finset.card_eq_zero.mp (by omega)
    intro p hp
    -- the least disallowed position would be reached
    induction p using Nat.strong_induction_on with
    | _ p ih =>
      by_contra hbad
      rw [Bool.not_eq_false] at hbad
      have hbelow : k.below p = ∅ := by
        refine Finset.eq_empty_of_forall_notMem fun q hq => ?_
        obtain ⟨hlt, hq⟩ := mem_below.mp hq
        rw [ih q hlt (by omega)] at hq
        cases hq
      have hne : p ≠ k.default := fun e => by
        rw [e, hd.2] at hbad
        cases hbad
      have hlt : k.default < p := by
        by_contra hge
        have : p ∈ k.below k.default := mem_below.mpr ⟨by omega, hbad⟩
        rw [hnone] at this
        cases this
      have hle : p ≤ n := by have := k.arity_add_count; omega
      have hmap := mapIdx_of_ne hle (by omega) hne
      have hmem := h.bijOn.mapsTo hp
      rw [hmap, hbelow, Finset.card_empty, Nat.add_zero] at hmem
      rw [hmem.2] at hbad
      cases hbad
  · intro hk
    have hdef := (mem_allowed_iff hk).mp hd
    have hswap : Set.EqOn k.mapIdx (Equiv.swap k.default 0) (Set.Iio k.arity) :=
      fun i hi => mapIdx_eq_swap hk hdef hi
    have hstay : ∀ i < k.arity, Equiv.swap k.default 0 i < k.arity := by
      intro i hi
      rw [Equiv.swap_apply_def]
      split
      · omega
      · split
        · exact hdef
        · exact hi
    refine indexesPositions_of_bijOn ⟨?_, ?_, ?_⟩ ?_
    · intro i hi
      rw [hswap hi]
      exact (mem_allowed_iff hk).mpr (hstay i hi)
    · exact (hswap.injOn_iff).mpr (Equiv.swap k.default 0).injective.injOn
    · intro p hp
      have hp := (mem_allowed_iff hk).mp hp
      refine ⟨Equiv.swap k.default 0 p, hstay p hp, ?_⟩
      rw [hswap (hstay p hp), Equiv.swap_apply_self]
    · rw [hswap (Nat.zero_lt_of_lt hdef), Equiv.swap_apply_right]

/-- A knob of five positions, of which the last two are disallowed. -/
theorem indexesPositions_last_disallowed :
    (({ disallowed := 0, default := 2, current := 2 } : KnobWithArity 5).disallow 3 |>.disallow 4)
      |>.IndexesPositions :=
  (indexesPositions_iff (by exact ⟨by decide, by decide⟩)).mpr (by decide)

/-- With position 1 disallowed, index 1 still stands for it. -/
theorem not_indexesPositions :
    ({ disallowed := 2, default := 0, current := 0 } : KnobWithArity 3).default ∈
        ({ disallowed := 2, default := 0, current := 0 } : KnobWithArity 3).allowed ∧
      ¬ ({ disallowed := 2, default := 0, current := 0 } : KnobWithArity 3).IndexesPositions := by
  refine ⟨⟨by decide, by decide⟩, fun h => ?_⟩
  have hmem := h.bijOn.mapsTo (show (1 : Nat) ∈ Set.Iio _ by decide)
  have hbad : ¬ ((BitVec.getLsbD (2 : BitVec 3)) 1 = false) := by decide
  exact hbad hmem.2

end KnobWithArity

/-! ## The knob on a subtree -/

namespace LogicalSubtreeKnob

variable {C O : Type}

def position : Setting → Nat
  | .absent => 0
  | .present => 1
  | .negated => 2

def base (k : LogicalSubtreeKnob) : KnobWithArity 3 :=
  { disallowed := k.disallowed, default := k.default, current := position k.current }

theorem ofNat?_eq_some {i : Nat} {s : Setting} (h : Setting.ofNat? i = some s) :
    i = position s ∧ i < 3 := by
  unfold Setting.ofNat? at h
  split at h
  all_goals cases h
  all_goals exact ⟨rfl, by decide⟩

/-- A turn keeps the positions of the knob and leaves it at the one of its index. -/
theorem turn_spec {k k' : LogicalSubtreeKnob} {t t' : ComboTree C O} {idx : Nat}
    (h : k.turn t idx = some (k', t')) : ∃ s, Setting.ofNat? (k.mapIdx idx) = some s ∧
      k'.current = s ∧ k'.default = k.default ∧ k'.disallowed = k.disallowed := by
  unfold turn at h
  split at h
  · cases h
  · next s hs =>
    refine ⟨s, hs, ?_⟩
    split at h
    · next hcur =>
      obtain ⟨rfl, -⟩ := Prod.mk.inj (Option.some.inj h)
      exact ⟨hcur.symm, rfl, rfl⟩
    · cases s with
      | absent =>
        simp only at h
        split at h
        · obtain ⟨rfl, -⟩ := Prod.mk.inj (Option.some.inj h)
          exact ⟨rfl, rfl, rfl⟩
        · obtain ⟨rfl, -⟩ := Prod.mk.inj (Option.some.inj h)
          exact ⟨rfl, rfl, rfl⟩
      | present =>
        simp only at h
        obtain ⟨_, _, h⟩ := Option.map_eq_some_iff.mp h
        obtain ⟨rfl, -⟩ := Prod.mk.inj h
        exact ⟨rfl, rfl, rfl⟩
      | negated =>
        simp only at h
        split at h
        · obtain ⟨rfl, -⟩ := Prod.mk.inj (Option.some.inj h)
          exact ⟨rfl, rfl, rfl⟩
        · obtain ⟨rfl, -⟩ := Prod.mk.inj (Option.some.inj h)
          exact ⟨rfl, rfl, rfl⟩

/-- Turning the knob turns its base, whatever happens to the tree. -/
theorem turn_base {k k' : LogicalSubtreeKnob} {t t' : ComboTree C O} {idx : Nat}
    (h : k.turn t idx = some (k', t')) : k.base.turn idx = some k'.base := by
  obtain ⟨s, hs, hcur, hdef, hdis⟩ := turn_spec h
  obtain ⟨he, hlt⟩ := ofNat?_eq_some hs
  have hmap : k.base.mapIdx idx = k.mapIdx idx := rfl
  have hbase : k'.base = { k.base with current := position s } := by
    simp only [base, hcur, hdef, hdis]
  rw [hbase, KnobWithArity.turn_eq_some (he ▸ hlt), hmap, he]

end LogicalSubtreeKnob

end OpenCog.Moses
