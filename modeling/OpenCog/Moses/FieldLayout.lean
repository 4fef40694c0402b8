import OpenCog.Moses.FieldSet

/-! The layout of a field set: fields follow one another, so that no two share a bit,
and whether one of them runs over the end of a word is decided by where its spec
starts. -/
namespace OpenCog.Moses

open BitField (Word)

/-! ## Widths -/

theorem integerLog2_le (v : Nat) : integerLog2 v ≤ 31 := by
  have hall : ∀ x ∈ multiplyDeBruijnBitPosition, x ≤ 31 := by decide
  unfold integerLog2
  rw [List.getD_eq_getElem?_getD]
  cases h : multiplyDeBruijnBitPosition[(((smear v >>> 1) + 1) * 0x077CB531 % 2 ^ 32) >>> 27]? with
  | none => exact Nat.zero_le _
  | some x => exact hall x (List.mem_of_getElem? h)

theorem nextPowerOfTwo_small : ∀ k < 32, nextPowerOfTwo (k + 1) ∈ [1, 2, 4, 8, 16, 32] := by
  decide

theorem nbitsToPack_mem (arity : Nat) : nbitsToPack arity ∈ [1, 2, 4, 8, 16, 32] :=
  nextPowerOfTwo_small _ (Nat.lt_succ_of_le (integerLog2_le _))

namespace Spec

variable {C : Type} (s : Spec C)

theorem width_mem : s.width ∈ [1, 2, 4, 8, 16, 32] := by
  cases s with
  | onto d b => exact nbitsToPack_mem _
  | contin => simp [width]
  | disc a => exact nbitsToPack_mem _

theorem width_cases : s.width = 1 ∨ s.width = 2 ∨ s.width = 4 ∨ s.width = 8 ∨ s.width = 16 ∨
    s.width = 32 := by
  have := s.width_mem
  simpa using this

theorem width_pos : 0 < s.width := by
  rcases s.width_cases with h | h | h | h | h | h <;> omega

/-- The runs of adjacent fields that `n` variables are laid out in, and their
length. -/
def runs (n : Nat) : Spec C → Nat
  | onto .. => n
  | _ => 1

def runLength (n : Nat) : Spec C → Nat
  | onto depth _ => depth
  | contin _ _ _ depth => n * depth
  | disc _ => n

theorem fields_eq (base n : Nat) : s.fields base n =
    (List.range (s.runs n)).flatMap fun k =>
      fieldRun s.width (base + k * s.totalWidth) (s.runLength n) := by
  cases s <;> simp [fields, runs, runLength, width]

/-- The bit after the last field. -/
def endAt (base n : Nat) : Nat :=
  if s.runs n = 0 ∨ s.runLength n = 0 then base
  else base + (s.runs n - 1) * s.totalWidth + s.runLength n * s.width

theorem totalWidth_dvd : 32 ∣ s.totalWidth := by
  unfold totalWidth
  split
  · exact Nat.dvd_zero 32
  · exact Nat.dvd_mul_left 32 _

/-- A second run starts after the first one. -/
theorem runLength_le {n : Nat} (h : 1 < s.runs n) : s.runLength n * s.width ≤ s.totalWidth := by
  cases s with
  | onto d b =>
    have hb : (onto d b : Spec C).bits = (onto d b : Spec C).width * d := rfl
    simp only [runLength, totalWidth]
    split
    · rw [Nat.mul_comm, ← hb]
      omega
    · rw [Nat.mul_comm, ← hb]
      omega
  | contin => simp [runs] at h
  | disc => simp [runs] at h

/-- The spec starts at a multiple of its width, or ends within the word it starts
in; and its fields are narrower than a word. -/
def FitsAt (base n : Nat) : Prop :=
  s.runs n = 0 ∨ s.runLength n = 0 ∨
    (s.width < 32 ∧ (s.width ∣ base ∨ base % 32 + s.runLength n * s.width ≤ 32))

end Spec

/-! ## Runs of fields -/

@[simp] theorem Field.at_offset (w b : Nat) : (Field.at w b).offset = b := by
  simp only [Field.at, Field.offset]
  omega

@[simp] theorem Field.at_width (w b : Nat) : (Field.at w b).width = w := rfl

theorem mem_fieldRun {w b c : Nat} {f : Field} :
    f ∈ fieldRun w b c ↔ ∃ i < c, f = .at w (b + i * w) := by
  simp [fieldRun, eq_comm]

/-- The first field ends before the second one begins. -/
def Field.Before (f g : Field) : Prop := f.offset + f.width ≤ g.offset

def Field.InWord (f : Field) : Prop := f.minorOffset + f.width ≤ 32

/-- How many values there is room for in the word of a field. -/
def Field.capacity (f : Field) : Nat := 2 ^ min f.width (32 - f.minorOffset)

theorem Field.capacity_of_inWord {f : Field} (h : f.InWord) : f.capacity = 2 ^ f.width := by
  unfold Field.InWord at h
  rw [Field.capacity, Nat.min_eq_left (by omega)]

theorem fieldRun_before (w b c : Nat) : (fieldRun w b c).Pairwise Field.Before := by
  unfold fieldRun
  rw [List.pairwise_map]
  refine List.pairwise_lt_range.imp fun {i j} hij => ?_
  have := Nat.mul_le_mul_right w hij
  simp only [Field.Before, Field.at_offset, Field.at_width, Nat.succ_mul] at *
  omega

/-- A run keeps to the words iff it is aligned or short. -/
theorem fieldRun_inWord {C : Type} (s : Spec C) (b c : Nat) :
    (∀ f ∈ fieldRun s.width b c, f.InWord) ↔
      c = 0 ∨ s.width ∣ b ∨ b % 32 + c * s.width ≤ 32 := by
  have hmem : (∀ f ∈ fieldRun s.width b c, f.InWord) ↔
      ∀ i < c, (b + i * s.width) % 32 + s.width ≤ 32 := by
    constructor
    · exact fun h i hi => h _ (mem_fieldRun.mpr ⟨i, hi, rfl⟩)
    · rintro h f hf
      obtain ⟨i, hi, rfl⟩ := mem_fieldRun.mp hf
      exact h i hi
  rw [hmem]
  constructor
  · intro h
    by_contra hn
    simp only [not_or] at hn
    obtain ⟨hc, hd, hlong⟩ := hn
    -- the field that holds the end of the first word
    have hlast := h ((32 - b % 32) / s.width)
    rcases s.width_cases with e | e | e | e | e | e <;> rw [e] at hlast hd hlong <;> omega
  · intro h i hi
    rcases h with h | h | h
    · omega
    · rcases s.width_cases with e | e | e | e | e | e <;> rw [e] at h ⊢ <;> omega
    · have := Nat.mul_le_mul_right s.width hi
      rw [Nat.succ_mul] at this
      have hmod : (b + i * s.width) % 32 = b % 32 + i * s.width := by
        rw [Nat.add_mod, Nat.mod_eq_of_lt (a := i * s.width) (by have := s.width_pos; omega),
          Nat.mod_eq_of_lt (by have := s.width_pos; omega)]
      omega

/-! ## The fields of a spec -/

section Groups
variable {C : Type} (s : Spec C) (base n : Nat)

theorem mem_fields {f : Field} : f ∈ s.fields base n ↔
    ∃ k < s.runs n, ∃ i < s.runLength n,
      f = .at s.width (base + k * s.totalWidth + i * s.width) := by
  simp only [s.fields_eq, List.mem_flatMap, List.mem_range, mem_fieldRun]

theorem fields_inWord : (∀ f ∈ s.fields base n, f.InWord) ↔
    s.runs n = 0 ∨ s.runLength n = 0 ∨ s.width ∣ base ∨
      base % 32 + s.runLength n * s.width ≤ 32 := by
  have hstart : ∀ k, (s.width ∣ base + k * s.totalWidth ↔ s.width ∣ base) ∧
      (base + k * s.totalWidth) % 32 = base % 32 := by
    intro k
    obtain ⟨t, ht⟩ := s.totalWidth_dvd
    have hk : k * s.totalWidth = 32 * (k * t) := by rw [ht]; ring
    have hw : s.width ∣ 32 := by
      rcases s.width_cases with e | e | e | e | e | e <;> rw [e] <;> decide
    refine ⟨(Nat.dvd_add_iff_left (hk ▸ Dvd.dvd.mul_right hw _)).symm, ?_⟩
    rw [hk, Nat.add_mul_mod_self_left]
  have hsplit : (∀ f ∈ s.fields base n, f.InWord) ↔ ∀ k < s.runs n,
      ∀ f ∈ fieldRun s.width (base + k * s.totalWidth) (s.runLength n), f.InWord := by
    simp only [s.fields_eq, List.mem_flatMap, List.mem_range]
    exact ⟨fun h k hk f hf => h f ⟨k, hk, hf⟩, fun h f ⟨k, hk, hf⟩ => h k hk f hf⟩
  rw [hsplit]
  simp only [fieldRun_inWord, hstart]
  constructor
  · intro h
    rcases Nat.eq_zero_or_pos (s.runs n) with h0 | h0
    · exact .inl h0
    · exact .inr (h 0 h0)
  · intro h k hk
    exact h.resolve_left (by omega)

theorem fields_before : (s.fields base n).Pairwise Field.Before := by
  rw [s.fields_eq, List.pairwise_flatMap]
  refine ⟨fun k _ => fieldRun_before _ _ _, ?_⟩
  refine List.pairwise_lt_range.imp_of_mem fun {k l} hk hl hkl f hf g hg => ?_
  obtain ⟨i, hi, rfl⟩ := mem_fieldRun.mp hf
  obtain ⟨j, -, rfl⟩ := mem_fieldRun.mp hg
  have hlen := s.runLength_le (n := n) (by have := List.mem_range.mp hl; omega)
  have hi' := Nat.mul_le_mul_right s.width hi
  have hkl' := Nat.mul_le_mul_right s.totalWidth hkl
  simp only [Field.Before, Field.at_offset, Field.at_width, Nat.succ_mul] at *
  omega

theorem fields_after {f : Field} (hf : f ∈ s.fields base n) : base ≤ f.offset := by
  obtain ⟨k, -, i, -, rfl⟩ := (mem_fields s base n).mp hf
  rw [Field.at_offset]
  omega

theorem base_le_endAt : base ≤ s.endAt base n := by
  unfold Spec.endAt
  split
  · exact Nat.le_refl _
  · omega

theorem fields_within {f : Field} (hf : f ∈ s.fields base n) :
    f.offset + f.width ≤ s.endAt base n := by
  obtain ⟨k, hk, i, hi, rfl⟩ := (mem_fields s base n).mp hf
  have hi' := Nat.mul_le_mul_right s.width hi
  have hk' := Nat.mul_le_mul_right s.totalWidth (Nat.le_sub_one_of_lt hk)
  rw [Spec.endAt, if_neg (by omega)]
  simp only [Field.at_offset, Field.at_width, Nat.succ_mul] at *
  omega

theorem fields_eq_nil : s.fields base n = [] ↔ s.runs n = 0 ∨ s.runLength n = 0 := by
  constructor
  · intro h
    by_contra hn
    have : Field.at s.width (base + 0 * s.totalWidth + 0 * s.width) ∈ s.fields base n :=
      (mem_fields s base n).mpr ⟨0, by omega, 0, by omega, rfl⟩
    rw [h] at this
    cases this
  · intro h
    rw [List.eq_nil_iff_forall_not_mem]
    intro f hf
    obtain ⟨k, hk, i, hi, -⟩ := (mem_fields s base n).mp hf
    omega

end Groups

@[simp] theorem backOffset_concat (fields : List Field) (f : Field) :
    backOffset (fields ++ [f]) = f.offset + f.width := by
  simp [backOffset, Field.offset]

theorem backOffset_fields {C : Type} (s : Spec C) (fields : List Field) (n : Nat) :
    backOffset (fields ++ s.fields (backOffset fields) n) = s.endAt (backOffset fields) n := by
  by_cases h : s.runs n = 0 ∨ s.runLength n = 0
  · rw [(fields_eq_nil s _ n).mpr h, List.append_nil, Spec.endAt, if_pos h]
  · obtain ⟨r, hr⟩ := Nat.exists_eq_succ_of_ne_zero (fun e => h (.inl e))
    obtain ⟨c, hc⟩ := Nat.exists_eq_succ_of_ne_zero (fun e => h (.inr e))
    rw [Spec.endAt, if_neg h, s.fields_eq, hr, hc, List.range_succ, List.flatMap_append,
      List.flatMap_singleton, fieldRun, List.range_succ, List.map_append, List.map_singleton,
      ← List.append_assoc, ← List.append_assoc, backOffset_concat, Field.at_offset,
      Field.at_width, Nat.succ_mul, Nat.succ_sub_one, Nat.add_assoc]

/-! ## The whole layout -/

section Layout
variable {C : Type}

/-- The fields of all specs, from a bit on. -/
def layout : Nat → List (Spec C × Nat) → List Field
  | _, [] => []
  | base, (s, n) :: gs => s.fields base n ++ layout (s.endAt base n) gs

/-- Every spec fits where it starts. -/
def Aligned : Nat → List (Spec C × Nat) → Prop
  | _, [] => True
  | base, (s, n) :: gs => s.FitsAt base n ∧ Aligned (s.endAt base n) gs

theorem build_fields {gs : List (Spec C × Nat)} {fs fs' : FieldSet C}
    (h : gs.foldlM FieldSet.buildSpec fs = some fs') :
    fs'.fields = fs.fields ++ layout (backOffset fs.fields) gs := by
  induction gs generalizing fs with
  | nil =>
    obtain rfl := Option.some.inj h
    exact (List.append_nil _).symm
  | cons g gs ih =>
    rw [List.foldlM_cons] at h
    obtain ⟨fs₁, h₁, hrest⟩ := Option.bind_eq_some_iff.mp h
    unfold FieldSet.buildSpec at h₁
    split at h₁
    · obtain rfl := Option.some.inj h₁
      rw [ih hrest, backOffset_fields, layout, List.append_assoc]
    · cases h₁

theorem ofSpecs_fields [LT C] [DecidableLT C] [DecidableEq C] {specs : List (Spec C)}
    {fs : FieldSet C} (h : FieldSet.ofSpecs specs = some fs) :
    fs.fields = layout 0 (specCounts specs) := by
  rw [build_fields h]
  rfl

theorem layout_after {gs : List (Spec C × Nat)} {base : Nat} {f : Field} (hf : f ∈ layout base gs) :
    base ≤ f.offset := by
  induction gs generalizing base with
  | nil => cases hf
  | cons g gs ih =>
    rcases List.mem_append.mp hf with hf | hf
    · exact fields_after g.1 base g.2 hf
    · exact Nat.le_trans (base_le_endAt g.1 base g.2) (ih hf)

theorem layout_before (gs : List (Spec C × Nat)) (base : Nat) :
    (layout base gs).Pairwise Field.Before := by
  induction gs generalizing base with
  | nil => exact .nil
  | cons g gs ih =>
    rw [layout, List.pairwise_append]
    refine ⟨fields_before g.1 base g.2, ih _, fun f hf f' hf' => ?_⟩
    exact Nat.le_trans (fields_within g.1 base g.2 hf) (layout_after hf')

theorem layout_width {gs : List (Spec C × Nat)} {base : Nat} {f : Field}
    (hf : f ∈ layout base gs) : 0 < f.width := by
  induction gs generalizing base with
  | nil => cases hf
  | cons g gs ih =>
    rcases List.mem_append.mp hf with hf | hf
    · obtain ⟨_, _, _, _, rfl⟩ := (mem_fields g.1 base g.2).mp hf
      exact g.1.width_pos
    · exact ih hf

theorem layout_minorOffset {gs : List (Spec C × Nat)} {base : Nat} {f : Field}
    (hf : f ∈ layout base gs) : f.minorOffset < 32 := by
  induction gs generalizing base with
  | nil => cases hf
  | cons g gs ih =>
    rcases List.mem_append.mp hf with hf | hf
    · obtain ⟨_, _, _, _, rfl⟩ := (mem_fields g.1 base g.2).mp hf
      exact Nat.mod_lt _ (by decide)
    · exact ih hf

theorem aligned_iff (gs : List (Spec C × Nat)) (base : Nat) :
    Aligned base gs ↔ ∀ f ∈ layout base gs, f.InWord ∧ f.width < 32 := by
  induction gs generalizing base with
  | nil => simp [Aligned, layout]
  | cons g gs ih =>
    obtain ⟨s, n⟩ := g
    have hfits : s.FitsAt base n ↔ ∀ f ∈ s.fields base n, f.InWord ∧ f.width < 32 := by
      have hword := fields_inWord s base n
      have hwidth : (∀ f ∈ s.fields base n, f.width < 32) ↔
          s.runs n = 0 ∨ s.runLength n = 0 ∨ s.width < 32 := by
        constructor
        · intro h
          by_contra hn
          have := h _ ((mem_fields s base n).mpr ⟨0, by omega, 0, by omega, rfl⟩)
          rw [Field.at_width] at this
          omega
        · intro h f hf
          obtain ⟨k, hk, i, hi, rfl⟩ := (mem_fields s base n).mp hf
          rw [Field.at_width]
          omega
      rw [forall₂_and, hword, hwidth, Spec.FitsAt]
      tauto
    rw [Aligned, layout, hfits, ih]
    exact ⟨fun h f hf => (List.mem_append.mp hf).elim (h.1 f) (h.2 f),
      fun h => ⟨fun f hf => h f (List.mem_append_left _ hf),
        fun f hf => h f (List.mem_append_right _ hf)⟩⟩

end Layout

/-! ## Raw access -/

namespace FieldSet

variable {C : Type} {fs : FieldSet C}

/-- Every field lies in one word, no two share a bit, and what is written to one
field is read from it and from no other. -/
structure WellLaid (fs : FieldSet C) : Prop where
  inWord : ∀ f ∈ fs.fields, f.InWord
  disjoint : ∀ (i j : Nat) (f g : Field), i ≠ j → fs.fields[i]? = some f → fs.fields[j]? = some g →
    f.Before g ∨ g.Before f
  raw : ∀ inst : Instance, inst.length = fs.packedWidth → ∀ i f, fs.fields[i]? = some f →
    ∀ v < 2 ^ f.width, ∃ inst', fs.setRaw inst i v = some inst' ∧
      inst'.length = fs.packedWidth ∧ fs.getRaw inst' i = some v ∧
      ∀ j < fs.rawSize, j ≠ i → fs.getRaw inst' j = fs.getRaw inst j ∧ fs.getRaw inst j ≠ none

theorem disjoint_of_before (h : fs.fields.Pairwise Field.Before) {i j : Nat} {f g : Field}
    (hij : i ≠ j) (hf : fs.fields[i]? = some f) (hg : fs.fields[j]? = some g) :
    f.Before g ∨ g.Before f := by
  obtain ⟨hi, rfl⟩ := List.getElem?_eq_some_iff.mp hf
  obtain ⟨hj, rfl⟩ := List.getElem?_eq_some_iff.mp hg
  rcases Nat.lt_or_gt_of_ne hij with h' | h'
  · exact .inl (List.pairwise_iff_getElem.mp h i j hi hj h')
  · exact .inr (List.pairwise_iff_getElem.mp h j i hj hi h')

/-- The instance has a word for every field. -/
theorem majorOffset_lt (h : fs.fields.Pairwise Field.Before)
    (hm : ∀ f ∈ fs.fields, f.minorOffset < 32) {f : Field} (hf : f ∈ fs.fields) :
    f.majorOffset < fs.packedWidth := by
  unfold packedWidth
  cases hl : fs.fields.getLast? with
  | none =>
    rw [List.getLast?_eq_none_iff.mp hl] at hf
    cases hf
  | some g =>
    obtain ⟨init, e⟩ := List.getLast?_eq_some_iff.mp hl
    rw [e] at hf h
    rcases List.mem_append.mp hf with hf | hf
    · have hb := (List.pairwise_append.mp h).2.2 f hf g (List.mem_singleton_self g)
      have hg := hm g (by rw [e]; simp)
      simp only [Field.Before, Field.offset] at hb ⊢
      omega
    · rw [List.mem_singleton.mp hf]
      exact Nat.lt_succ_self _

theorem getRaw_eq {inst : Instance} {i : Nat} {f : Field} {x : Word}
    (hf : fs.fields[i]? = some f) (hx : inst[f.majorOffset]? = some x) (hw : f.width < 32) :
    fs.getRaw inst i = some (BitField.get x f.minorOffset f.width).toNat := by
  simp [getRaw, hf, hx, hw]

theorem setRaw_eq {inst : Instance} {i v : Nat} {f : Field} {x : Word}
    (hf : fs.fields[i]? = some f) (hx : inst[f.majorOffset]? = some x) (hw : f.width < 32) :
    fs.setRaw inst i v =
      some (inst.set f.majorOffset (BitField.set x f.minorOffset f.width v)) := by
  simp [setRaw, hf, hx, hw]

/-- Fields one after the other, each with its offset in a word. -/
structure Successive (fs : FieldSet C) : Prop where
  before : fs.fields.Pairwise Field.Before
  minor : ∀ f ∈ fs.fields, f.minorOffset < 32

theorem Successive.read (h : fs.Successive) {inst : Instance} (hlen : inst.length = fs.packedWidth)
    {i : Nat} {f : Field} (hf : fs.fields[i]? = some f) (hw : f.width < 32) :
    ∃ v < f.capacity, fs.getRaw inst i = some v := by
  have hmaj := majorOffset_lt h.before h.minor (List.mem_of_getElem? hf)
  have hx : inst[f.majorOffset]? = some inst[f.majorOffset] := List.getElem?_eq_getElem _
  refine ⟨_, ?_, getRaw_eq hf hx hw⟩
  apply Nat.lt_pow_two_of_testBit
  intro k hk
  rw [BitVec.testBit_toNat, BitField.getLsbD_get hw]
  by_cases hkw : k < f.width
  · rw [BitVec.getLsbD_of_ge _ _ (by omega), Bool.and_false]
  · simp [hkw]

/-- A write is seen through the field written and through no other. -/
theorem Successive.write (h : fs.Successive) {inst : Instance} (hlen : inst.length = fs.packedWidth)
    {i v : Nat} {f : Field} (hf : fs.fields[i]? = some f) (hw : f.width < 32) :
    ∃ inst', fs.setRaw inst i v = some inst' ∧ inst'.length = fs.packedWidth ∧
      fs.getRaw inst' i = some (v % f.capacity) ∧
      ∀ j, j ≠ i → fs.getRaw inst' j = fs.getRaw inst j := by
  have hmaj := majorOffset_lt h.before h.minor (List.mem_of_getElem? hf)
  have hx : inst[f.majorOffset]? = some inst[f.majorOffset] := List.getElem?_eq_getElem _
  refine ⟨_, setRaw_eq hf hx hw, by rw [List.length_set, hlen], ?_, fun j hji => ?_⟩
  · rw [getRaw_eq hf (by rw [List.getElem?_set_self (by omega)]) hw,
      BitField.toNat_get_set_self hw]
    rfl
  · unfold getRaw
    cases hg : fs.fields[j]? with
    | none => rfl
    | some g =>
      by_cases hsame : f.majorOffset = g.majorOffset
      · have hdis := disjoint_of_before h.before (Ne.symm hji) hf hg
        simp only [Field.Before, Field.offset, hsame] at hdis
        rw [Option.bind_some, Option.bind_some, ← hsame, List.getElem?_set_self (by omega), hx,
          Option.bind_some, Option.bind_some]
        split
        · next hwg => rw [BitField.get_set_other hw hwg (by omega)]
        · rfl
      · rw [Option.bind_some, Option.bind_some, List.getElem?_set_ne hsame]

theorem Successive.raw (h : fs.Successive) (hw : ∀ f ∈ fs.fields, f.InWord)
    (hn : ∀ f ∈ fs.fields, f.width < 32) {inst : Instance} (hlen : inst.length = fs.packedWidth)
    {i : Nat} {f : Field} (hf : fs.fields[i]? = some f) {v : Nat} (hv : v < 2 ^ f.width) :
    ∃ inst', fs.setRaw inst i v = some inst' ∧ inst'.length = fs.packedWidth ∧
      fs.getRaw inst' i = some v ∧
      ∀ j < fs.rawSize, j ≠ i → fs.getRaw inst' j = fs.getRaw inst j ∧ fs.getRaw inst j ≠ none := by
  have hmem := List.mem_of_getElem? hf
  obtain ⟨inst', hset, hlen', hget, hother⟩ := h.write hlen hf (hn f hmem) (v := v)
  rw [Field.capacity_of_inWord (hw f hmem), Nat.mod_eq_of_lt hv] at hget
  refine ⟨inst', hset, hlen', hget, fun j hj hji => ⟨hother j hji, ?_⟩⟩
  obtain ⟨g, hg⟩ : ∃ g, fs.fields[j]? = some g := ⟨_, List.getElem?_eq_getElem hj⟩
  obtain ⟨_, -, hread⟩ := h.read hlen hg (hn g (List.mem_of_getElem? hg))
  rw [hread]
  exact Option.some_ne_none _

theorem successive_of_ofSpecs [LT C] [DecidableLT C] [DecidableEq C] {specs : List (Spec C)}
    (h : ofSpecs specs = some fs) : fs.Successive := by
  have hfields := ofSpecs_fields h
  exact ⟨hfields ▸ layout_before _ _, fun f hf => layout_minorOffset (hfields ▸ hf)⟩

/-- The layout of a field set keeps its promises iff every spec fits where it
starts. -/
theorem wellLaid_iff_aligned [LT C] [DecidableLT C] [DecidableEq C] {specs : List (Spec C)}
    (h : ofSpecs specs = some fs) : fs.WellLaid ↔ Aligned 0 (specCounts specs) := by
  have hfields := ofSpecs_fields h
  have hs := successive_of_ofSpecs h
  rw [aligned_iff, ← hfields]
  constructor
  · intro hl f hf
    refine ⟨hl.inWord f hf, ?_⟩
    obtain ⟨i, hi⟩ := List.mem_iff_getElem?.mp hf
    obtain ⟨inst', hset, -⟩ := hl.raw (List.replicate fs.packedWidth 0) List.length_replicate i f hi
      0 (Nat.two_pow_pos _)
    by_contra hw
    simp [setRaw, hi, hw] at hset
  · intro ha
    exact ⟨fun f hf => (ha f hf).1, fun i j f g hij hf hg => disjoint_of_before hs.before hij hf hg,
      fun inst hlen i f hf v hv => hs.raw (fun f hf => (ha f hf).1) (fun f hf => (ha f hf).2) hlen
        hf hv⟩

/-- Two discrete variables, of widths 2 and 1. -/
theorem wellLaid_of_two_discrete :
    ∃ fs, ofSpecs ([.disc 2, .disc 3] : List (Spec Nat)) = some fs ∧ fs.WellLaid := by
  obtain ⟨fs, h⟩ : ∃ fs, ofSpecs ([.disc 2, .disc 3] : List (Spec Nat)) = some fs := ⟨_, rfl⟩
  refine ⟨fs, h, (wellLaid_iff_aligned h).mpr ⟨?_, ?_, trivial⟩⟩
  · exact .inr (.inr ⟨by decide, by decide⟩)
  · exact .inr (.inr ⟨by decide, by decide⟩)

/-- The second ontology starts right after the last field of the first one, two bits
before the end of the word, with fields of four bits. -/
theorem field_over_word_end :
    Spec.SizeRestricted ([.onto 15 3, .onto 3 15] : List (Spec Nat)) ∧
    ∃ fs, ofSpecs ([.onto 15 3, .onto 3 15] : List (Spec Nat)) = some fs ∧
      fs.fields[15]? = some ⟨4, 0, 30⟩ ∧ ¬ fs.WellLaid := by
  refine ⟨by decide, _, rfl, rfl, fun h => ?_⟩
  have := h.inWord ⟨4, 0, 30⟩ (List.mem_of_getElem? (i := 15) rfl)
  simp [Field.InWord] at this

end FieldSet

end OpenCog.Moses
