import OpenCog.Moses.ContinNeighbor

/-! Field sets without ontological variables: continuous variables at even bits, then discrete
ones, those of one bit last and next to each other. -/
namespace OpenCog.Moses

open Util ContinSpec

/-! ## The width of a discrete variable -/

theorem smear_step {v x k : Nat}
    (h : ∀ i, x.testBit i = true ↔ ∃ j < k, v.testBit (i + j) = true) (i : Nat) :
    (x ||| x >>> k).testBit i = true ↔ ∃ j < k + k, v.testBit (i + j) = true := by
  rw [Nat.testBit_or, Bool.or_eq_true, Nat.testBit_shiftRight, h, h]
  constructor
  · rintro (⟨j, hj, hb⟩ | ⟨j, hj, hb⟩)
    · exact ⟨j, by omega, hb⟩
    · exact ⟨k + j, by omega, by rwa [← Nat.add_assoc, Nat.add_comm i k]⟩
  · rintro ⟨j, hj, hb⟩
    by_cases hlt : j < k
    · exact .inl ⟨j, hlt, hb⟩
    · refine .inr ⟨j - k, by omega, ?_⟩
      rwa [show k + i + (j - k) = i + j by omega]

theorem testBit_smear (v i : Nat) :
    (smear v).testBit i = true ↔ ∃ j < 32, v.testBit (i + j) = true := by
  have hone : ∀ i, v.testBit i = true ↔ ∃ j < 1, v.testBit (i + j) = true := fun i =>
    ⟨fun h => ⟨0, Nat.one_pos, h⟩, fun ⟨j, hj, h⟩ => by rwa [Nat.lt_one_iff.mp hj] at h⟩
  exact smear_step (smear_step (smear_step (smear_step (smear_step hone)))) i

theorem smear_eq {v : Nat} (hv : v ≠ 0) (h : v < 2 ^ 32) : smear v = 2 ^ (v.log2 + 1) - 1 := by
  apply Nat.eq_of_testBit_eq
  intro i
  rw [Nat.testBit_two_pow_sub_one, Bool.eq_iff_iff, testBit_smear, decide_eq_true_eq]
  have hlog : v.log2 < 32 := (Nat.log2_lt hv).mpr h
  constructor
  · rintro ⟨j, -, hb⟩
    have hlt : i + j ≤ v.log2 := by
      rw [Nat.le_log2 hv]
      exact Nat.ge_two_pow_of_testBit hb
    omega
  · intro hi
    refine ⟨v.log2 - i, by omega, ?_⟩
    rw [show i + (v.log2 - i) = v.log2 by omega]
    exact Nat.testBit_log2 hv

/-- The position found by multiplication. -/
theorem integerLog2_eq {v : Nat} (h : v < 2 ^ 32) : integerLog2 v = v.log2 := by
  have hall : ∀ k < 32, multiplyDeBruijnBitPosition.getD
      (((((2 ^ (k + 1) - 1) >>> 1) + 1) * 0x077CB531 % 2 ^ 32) >>> 27) 0 = k := by decide
  by_cases hv : v = 0
  · subst hv
    decide
  · rw [integerLog2, smear_eq hv h, hall _ ((Nat.log2_lt hv).mpr h)]

theorem nbitsToPack_eq_one_iff {arity : Nat} (h : arity < 2 ^ 32) :
    nbitsToPack arity = 1 ↔ arity ≤ 2 := by
  have hall : ∀ k < 32, nextPowerOfTwo (k + 1) = 1 ↔ k = 0 := by decide
  rw [nbitsToPack, hall _ (Nat.lt_succ_of_le (integerLog2_le _)), integerLog2_eq (by omega)]
  by_cases hv : arity - 1 = 0
  · rw [hv]
    exact iff_of_true (by decide) (by omega)
  · rw [← Nat.lt_one_iff, Nat.log2_lt hv]
    omega

/-! ## Which raw field is which -/

theorem getElem?_place (b : Nat) (ws : List Nat) (i : Nat) :
    (place b ws)[i]? = ws[i]?.map fun w => .at w (b + (ws.take i).sum) := by
  induction ws generalizing b i with
  | nil => rfl
  | cons w ws ih =>
    cases i with
    | zero => rfl
    | succ i =>
      rw [place, List.getElem?_cons_succ, List.getElem?_cons_succ, ih, List.take_succ_cons,
        List.sum_cons, Nat.add_assoc]

/-- Of a list where what comes after something with a property has it as well. -/
theorem holds_iff_countP_le {α : Type} {p : α → Bool} {l : List α}
    (h : l.Pairwise fun a b => p a = true → p b = true) {j : Nat} {a : α} (ha : l[j]? = some a) :
    p a = true ↔ l.length - l.countP p ≤ j := by
  induction l generalizing j with
  | nil => cases ha
  | cons b l ih =>
    obtain ⟨hb, hl⟩ := List.pairwise_cons.mp h
    have hle : l.countP p ≤ l.length := List.countP_le_length
    by_cases hp : p b = true
    · have hall : l.countP p = l.length := List.countP_eq_length.mpr fun a ha => hb a ha hp
      have hpa : p a = true := by
        rcases List.mem_cons.mp (List.mem_of_getElem? ha) with rfl | hmem
        · exact hp
        · exact hb a hmem hp
      rw [List.countP_cons_of_pos hp, List.length_cons, hall]
      exact iff_of_true hpa (by omega)
    · rw [List.countP_cons_of_neg hp, List.length_cons]
      cases j with
      | zero =>
        obtain rfl := Option.some.inj ha
        exact iff_of_false hp (by omega)
      | succ j =>
        rw [ih hl ha]
        omega

namespace FieldSet

variable {C : Type} {fs : FieldSet C}

/-- Continuous variables, discrete ones of more than one bit, then bits. -/
structure Plain (fs : FieldSet C) : Prop where
  successive : fs.Successive
  ontoZero : fs.nOnto = 0
  noOnto : fs.onto = []
  size : fs.rawSize = fs.discStart + fs.discAndBits.length
  contin : ∀ i < fs.discStart, ∃ f, fs.fields[i]? = some f ∧ f.width = 2 ∧ f.InWord
  disc : ∀ j s, fs.discAndBits[j]? = some s →
    ∃ f, fs.fields[fs.discStart + j]? = some f ∧ f.width = s.width ∧ (s.width = 1 ↔ fs.nDisc ≤ j)
  bits : ∃ b, ∀ k < fs.nbool, fs.fields[fs.discStart + fs.nDisc + k]? = some (.at 1 (b + k))
  values : ∀ s ∈ fs.discAndBits, 0 < s.values ∧ (s.width = 1 ↔ s.values ≤ 2)

variable [LinearOrder C] {specs : List (Spec C)}

omit [LinearOrder C] in
theorem discAndBits_disc {s : Spec C} (hs : s ∈ fs.discAndBits) : ∃ a, s = .disc a := by
  obtain ⟨g, hg, rfl⟩ := mem_expand hs
  have hwhich : g.1.which = 2 := decide_eq_true_eq.mp (List.mem_filter.mp hg).2
  cases e : g.1 with
  | onto => rw [e] at hwhich; cases hwhich
  | contin => rw [e] at hwhich; cases hwhich
  | disc a => exact ⟨a, rfl⟩

theorem discAndBits_sorted (h : ofSpecs specs = some fs) (hno : ∀ s ∈ specs, s.which ≠ 0) :
    fs.discAndBits.Pairwise fun s t => t.values ≤ s.values := by
  have hs : fs.specs = specCounts specs := build_specs h
  obtain ⟨-, hstrict, -⟩ := specCounts_expand hno
  have hsub : fs.discAndBits.Sublist (expand (specCounts specs)) := by
    rw [discAndBits, ofKind, hs, ← expand, expand_filter fun s => decide (s.which = 2)]
    exact List.filter_sublist
  refine ((expand_sorted hstrict).sublist hsub).imp_of_mem fun hs' ht hl => ?_
  obtain ⟨a, rfl⟩ := discAndBits_disc hs'
  obtain ⟨b, rfl⟩ := discAndBits_disc ht
  exact Nat.not_lt.mp (of_decide_eq_false hl)

theorem plain_of_ofSpecs (h : ofSpecs specs = some fs) (hno : ∀ s ∈ specs, s.which ≠ 0) :
    fs.Plain := by
  have hs : fs.specs = specCounts specs := build_specs h
  obtain ⟨-, -, hwhich⟩ := specCounts_expand hno
  have hzero : fs.ofKind 0 = [] := by
    rw [ofKind, hs]
    exact ofKind_zero hwhich
  have hexp : expand (specCounts specs) = fs.contin ++ fs.discAndBits := by
    have hkinds := kinds_eq (specCounts_sorted specs)
    rw [← hs] at hkinds
    rw [← hs, ← hkinds, ← ofKind, ← ofKind, ← ofKind, hzero, List.nil_append, expand,
      List.flatMap_append]
    rfl
  have hvalues : ∀ s ∈ fs.discAndBits, 0 < s.values ∧ (s.width = 1 ↔ s.values ≤ 2) := by
    intro s hsd
    obtain ⟨g, hg, hgs⟩ := mem_expand hsd
    have hb := build_buildable h g (hs ▸ (List.mem_filter.mp hg).1)
    obtain ⟨a, rfl⟩ := discAndBits_disc hsd
    rw [hgs] at hb
    exact ⟨of_decide_eq_true hb, nbitsToPack_eq_one_iff a.isLt⟩
  have hwidths : rawWidths fs.discAndBits = fs.discAndBits.map Spec.width := by
    rw [rawWidths, List.map_eq_flatMap]
    refine List.flatMap_congr fun s hsd => ?_
    obtain ⟨a, rfl⟩ := discAndBits_disc hsd
    rfl
  have honto : fs.nOnto = 0 := by rw [nOnto, hzero]; rfl
  have hstart : fs.discStart = (fs.contin.map Spec.depth).sum := by
    rw [discStart, honto, Nat.zero_add]
  have hfields : fs.fields =
      place 0 (List.replicate fs.discStart 2 ++ fs.discAndBits.map Spec.width) := by
    rw [ofSpecs_fields h, layout_eq_place hwhich, hexp, rawWidths, List.flatMap_append, ← rawWidths,
      ← rawWidths, rawWidths_contin, hwidths, hstart]
  have hlength : ∀ b ws, (place b ws).length = ws.length := by
    intro b ws
    induction ws generalizing b with
    | nil => rfl
    | cons w ws ih => exact congrArg Nat.succ (ih _)
  have hsize : fs.rawSize = fs.discStart + fs.discAndBits.length := by
    rw [rawSize, hfields, hlength, List.length_append, List.length_replicate, List.length_map]
  have hndisc : fs.nDisc = fs.discAndBits.length - fs.nbool := by
    unfold nDisc
    omega
  have hat : ∀ j s, fs.discAndBits[j]? = some s → fs.fields[fs.discStart + j]? =
      some (.at s.width (fs.discStart * 2 + ((fs.discAndBits.map Spec.width).take j).sum)) := by
    intro j s hj
    rw [hfields, getElem?_place, List.getElem?_append_right (by simp), List.length_replicate,
      Nat.add_sub_cancel_left, List.getElem?_map, hj, Option.map_some, Option.map_some,
      List.take_append, List.length_replicate, Nat.add_sub_cancel_left, List.sum_append,
      List.take_of_length_le (by simp), List.sum_replicate, smul_eq_mul, Nat.zero_add]
  have hsplit : ∀ j s, fs.discAndBits[j]? = some s → (s.width = 1 ↔ fs.nDisc ≤ j) := by
    intro j s hj
    have hsorted : fs.discAndBits.Pairwise fun s t =>
        decide (s.width = 1) = true → decide (t.width = 1) = true := by
      refine (discAndBits_sorted h hno).imp_of_mem fun hs' ht hle hone => ?_
      rw [decide_eq_true_eq, (hvalues _ hs').2] at hone
      rw [decide_eq_true_eq, (hvalues _ ht).2]
      omega
    rw [hndisc, nbool, ← holds_iff_countP_le hsorted hj, decide_eq_true_eq]
  refine ⟨successive_of_ofSpecs h, honto, by rw [onto, hzero]; rfl, hsize, fun i hi => ?_,
    fun j s hj => ⟨_, hat j s hj, rfl, hsplit j s hj⟩,
    ⟨fs.discStart * 2 + ((fs.discAndBits.map Spec.width).take fs.nDisc).sum, fun k hk => ?_⟩,
    hvalues⟩
  · refine ⟨.at 2 (0 + (((List.replicate fs.discStart 2) ++
      fs.discAndBits.map Spec.width).take i).sum), ?_, rfl, ?_⟩
    · rw [hfields, getElem?_place, List.getElem?_append_left (by simpa using hi),
        List.getElem?_replicate, if_pos hi, Option.map_some]
    · rw [List.take_append_of_le_length (by simpa using Nat.le_of_lt hi), List.take_replicate,
        List.sum_replicate, smul_eq_mul]
      simp only [Field.InWord, Field.at]
      omega
  · have hle : fs.nbool ≤ fs.discAndBits.length := List.countP_le_length
    obtain ⟨s, hj⟩ : ∃ s, fs.discAndBits[fs.nDisc + k]? = some s :=
      ⟨_, List.getElem?_eq_getElem (by omega)⟩
    have hone : s.width = 1 := (hsplit _ _ hj).mpr (Nat.le_add_right ..)
    have hones : ((fs.discAndBits.map Spec.width).drop fs.nDisc).take k = List.replicate k 1 := by
      refine List.eq_replicate_iff.mpr ⟨?_, fun w hw => ?_⟩
      · rw [List.length_take, List.length_drop, List.length_map]
        omega
      · obtain ⟨i, hi⟩ := List.mem_iff_getElem?.mp (List.mem_of_mem_take hw)
        rw [List.getElem?_drop, List.getElem?_map] at hi
        obtain ⟨t, ht, rfl⟩ := Option.map_eq_some_iff.mp hi
        exact (hsplit _ _ ht).mpr (Nat.le_add_right ..)
    rw [Nat.add_assoc, hat _ _ hj, hone, List.take_add, List.sum_append, hones, List.sum_replicate,
      smul_eq_mul, Nat.mul_one, Nat.add_assoc]

end FieldSet

end OpenCog.Moses
