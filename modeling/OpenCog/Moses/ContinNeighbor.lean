import OpenCog.Moses.KnobFields
import OpenCog.Moses.NeighborhoodSampling

/-! A sampled neighbour in one continuous field: as many of its raw fields change as asked for,
and the stops stay at its end. -/
namespace OpenCog.Moses

open Util ContinSpec

/-! ## Whose the raw fields are -/

section RawFields
variable {C : Type}

theorem length_rawWidths (specs : List (Spec C)) :
    (rawWidths specs).length = (specs.map Spec.depth).sum := by
  simp [rawWidths, List.length_flatMap]

theorem sum_depth_expand (m : List (Spec C × Nat)) :
    ((expand m).map Spec.depth).sum = (m.map fun g => g.2 * g.1.depth).sum := by
  induction m with
  | nil => rfl
  | cons g m ih =>
    have hcons : expand (g :: m) = List.replicate g.2 g.1 ++ expand m := List.flatMap_cons
    rw [hcons, List.map_append, List.sum_append, ih, List.map_replicate, List.sum_replicate,
      smul_eq_mul, List.map_cons, List.sum_cons]

theorem layout_widths (base : Nat) (gs : List (Spec C × Nat)) :
    (layout base gs).map Field.width = rawWidths (expand gs) := by
  induction gs generalizing base with
  | nil => rfl
  | cons g gs ih =>
    have hcons : expand (g :: gs) = List.replicate g.2 g.1 ++ expand gs := List.flatMap_cons
    rw [layout, List.map_append, fields_widths, ih, hcons, rawWidths, rawWidths,
      List.flatMap_append, List.flatMap_replicate, List.flatten_replicate_replicate]

variable [LinearOrder C] {specs : List (Spec C)} {fs : FieldSet C}

/-- The raw fields of the ontological variables, of the continuous and of the discrete ones. -/
theorem fields_rawWidths (h : FieldSet.ofSpecs specs = some fs) :
    fs.fields.map Field.width =
      rawWidths (expand (fs.ofKind 0)) ++ (rawWidths fs.contin ++ rawWidths fs.discAndBits) := by
  have hs : fs.specs = specCounts specs := build_specs h
  have hexp : expand fs.specs = expand (fs.ofKind 0) ++ (fs.contin ++ fs.discAndBits) := by
    have hkinds := kinds_eq (specCounts_sorted specs)
    rw [← hs] at hkinds
    rw [← hkinds, expand, List.flatMap_append, List.flatMap_append, List.append_assoc]
    rfl
  rw [ofSpecs_fields h, layout_widths, ← hs, hexp]
  simp only [rawWidths, List.flatMap_append]

omit [LinearOrder C] in
theorem length_onto (fs : FieldSet C) : (rawWidths (expand (fs.ofKind 0))).length = fs.nOnto := by
  rw [length_rawWidths, sum_depth_expand]
  rfl

omit [LinearOrder C] in
theorem contin_which (fs : FieldSet C) {c : Spec C} (hc : c ∈ fs.contin) : c.which = 1 := by
  obtain ⟨g, hg, rfl⟩ := mem_expand hc
  exact decide_eq_true_eq.mp (List.mem_filter.mp hg).2

omit [LinearOrder C] in
theorem rawWidths_contin (fs : FieldSet C) :
    rawWidths fs.contin = List.replicate (fs.contin.map Spec.depth).sum 2 := by
  have hwidth : ∀ c ∈ fs.contin, c.width = 2 := by
    intro c hc
    have hwhich := contin_which fs hc
    cases c with
    | onto => cases hwhich
    | contin => rfl
    | disc => cases hwhich
  refine List.eq_replicate_iff.mpr ⟨length_rawWidths _, fun w hw => ?_⟩
  obtain ⟨c, hc, hmem⟩ := List.mem_flatMap.mp hw
  exact (List.eq_of_mem_replicate hmem).trans (hwidth c hc)

theorem contin_field (h : FieldSet.ofSpecs specs = some fs) {i : Nat} (hlo : fs.nOnto ≤ i)
    (hhi : i < fs.discStart) : ∃ f, fs.fields[i]? = some f ∧ f.width = 2 := by
  have hi : i - fs.nOnto < (fs.contin.map Spec.depth).sum := by
    unfold FieldSet.discStart at hhi
    omega
  have hw : (fs.fields.map Field.width)[i]? = some 2 := by
    rw [fields_rawWidths h, List.getElem?_append_right (by rw [length_onto]; exact hlo),
      length_onto, rawWidths_contin,
      List.getElem?_append_left (by rw [List.length_replicate]; exact hi),
      List.getElem?_replicate, if_pos hi]
  rw [List.getElem?_map] at hw
  obtain ⟨f, hf, hf'⟩ := Option.map_eq_some_iff.mp hw
  exact ⟨f, hf, hf'⟩

omit [LinearOrder C] in
/-- The raw fields of a continuous variable lie among those of all. -/
theorem continToRawIdx_add_le {idx : Nat} {c : Spec C} (hc : fs.contin[idx]? = some c) :
    fs.nOnto ≤ fs.continToRawIdx idx ∧ fs.continToRawIdx idx + c.depth ≤ fs.discStart := by
  obtain ⟨hlt, rfl⟩ := List.getElem?_eq_some_iff.mp hc
  have hsplit : (fs.contin.map Spec.depth).sum = ((fs.contin.take idx).map Spec.depth).sum +
      (fs.contin[idx].depth + ((fs.contin.drop (idx + 1)).map Spec.depth).sum) := by
    rw [← List.sum_cons, ← List.map_cons, List.getElem_cons_drop, ← List.sum_append,
      ← List.map_append, List.take_append_drop]
  unfold FieldSet.continToRawIdx FieldSet.discStart
  omega

end RawFields

/-! ## Canonical encodings -/

namespace FieldSet

variable {C G : Type} {fs : FieldSet C} {inst inst' inst₀ : Instance} {start depth num r v : Nat}
  {out : List Nat}

/-- Steps up to a place, and stops from there on. -/
structure CanonicalAt (fs : FieldSet C) (inst : Instance) (start depth num : Nat) : Prop where
  le : num ≤ depth
  steps : ∀ p < num,
    fs.getRaw inst (start + p) = some left ∨ fs.getRaw inst (start + p) = some right
  stops : ∀ p, num ≤ p → p < depth → fs.getRaw inst (start + p) = some stop

/-- After the first stop there are only stops. -/
def Canonical (fs : FieldSet C) (inst : Instance) (idx : Nat) : Prop :=
  ∃ c num, fs.contin[idx]? = some c ∧ fs.CanonicalAt inst (fs.continToRawIdx idx) c.depth num

theorem CanonicalAt.ne_stop (h : fs.CanonicalAt inst start depth num) {p : Nat} (hp : p < num) :
    fs.getRaw inst (start + p) ≠ some stop := by
  rcases h.steps p hp with e | e
  · rw [e]; decide
  · rw [e]; decide

theorem CanonicalAt.stop_iff (h : fs.CanonicalAt inst start depth num) {p : Nat} (hp : p < depth) :
    fs.getRaw inst (start + p) = some stop ↔ num ≤ p := by
  constructor
  · intro e
    by_contra hlt
    exact h.ne_stop (Nat.not_le.mp hlt) e
  · exact fun hle => h.stops p hle hp

theorem CanonicalAt.beforeStop_eq (h : fs.CanonicalAt inst start depth num) :
    fs.beforeStop inst depth start = some num := by
  induction depth generalizing start num with
  | zero => rw [Nat.le_zero.mp h.le]; rfl
  | succ depth ih =>
    unfold beforeStop
    cases num with
    | zero => rw [show fs.getRaw inst start = some stop from h.stops 0 le_rfl (Nat.succ_pos _)]; rfl
    | succ num =>
      have hrest : fs.CanonicalAt inst (start + 1) depth num := by
        refine ⟨Nat.le_of_succ_le_succ h.le, fun p hp => ?_, fun p hp hp' => ?_⟩
        · rw [Nat.add_assoc, Nat.add_comm 1]
          exact h.steps (p + 1) (Nat.succ_lt_succ hp)
        · rw [Nat.add_assoc, Nat.add_comm 1]
          exact h.stops (p + 1) (Nat.succ_le_succ hp) (Nat.succ_lt_succ hp')
      rw [ih hrest]
      rcases h.steps 0 (Nat.succ_pos _) with e | e
      · rw [show fs.getRaw inst start = some left from e]; rfl
      · rw [show fs.getRaw inst start = some right from e]; rfl

/-! ## One write -/

/-- What a write to one raw field does. -/
structure Wrote (fs : FieldSet C) (inst inst' : Instance) (i v : Nat) : Prop where
  length : inst'.length = fs.packedWidth
  self : fs.getRaw inst' i = some v
  other : ∀ j, j ≠ i → fs.getRaw inst' j = fs.getRaw inst j

/-- The raw fields hold the three values of a step. -/
def Writable (fs : FieldSet C) (start depth : Nat) : Prop :=
  ∀ p < depth, ∀ inst : Instance, inst.length = fs.packedWidth → ∀ v < 3,
    ∃ inst', fs.setRaw inst (start + p) v = some inst' ∧ fs.Wrote inst inst' (start + p) v

theorem CanonicalAt.extend (h : fs.CanonicalAt inst start depth num) (hnum : num < depth)
    (hw : fs.Wrote inst inst' (start + num) v) (hv : v = left ∨ v = right) :
    fs.CanonicalAt inst' start depth (num + 1) := by
  refine ⟨hnum, fun p hp => ?_, fun p hp hp' => ?_⟩
  · by_cases e : p = num
    · rw [e, hw.self]
      exact hv.imp (congrArg some) (congrArg some)
    · rw [hw.other _ (by omega)]
      exact h.steps p (by omega)
  · rw [hw.other _ (by omega)]
    exact h.stops p (by omega) hp'

theorem CanonicalAt.flip (h : fs.CanonicalAt inst start depth num) (hr : r < num)
    (hw : fs.Wrote inst inst' (start + r) v) (hv : v = left ∨ v = right) :
    fs.CanonicalAt inst' start depth num := by
  refine ⟨h.le, fun p hp => ?_, fun p hp hp' => ?_⟩
  · by_cases e : p = r
    · rw [e, hw.self]
      exact hv.imp (congrArg some) (congrArg some)
    · rw [hw.other _ (by omega)]
      exact h.steps p hp
  · rw [hw.other _ (by omega)]
    exact h.stops p hp hp'

theorem CanonicalAt.cut (h : fs.CanonicalAt inst start depth num) (hr : r + 1 = num)
    (hw : fs.Wrote inst inst' (start + r) stop) : fs.CanonicalAt inst' start depth r := by
  have hle := h.le
  refine ⟨by omega, fun p hp => ?_, fun p hp hp' => ?_⟩
  · rw [hw.other _ (by omega)]
    exact h.steps p (by omega)
  · by_cases e : p = r
    · rw [e, hw.self]
    · rw [hw.other _ (by omega)]
      exact h.stops p (by omega) hp'

/-- The places that differ from an instance are those of `out`. -/
structure Changed (fs : FieldSet C) (start depth : Nat) (inst₀ inst : Instance) (out : List Nat) :
    Prop where
  length : inst.length = fs.packedWidth
  nodup : out.Nodup
  within : ∀ p ∈ out, p < depth
  differ : ∀ p < depth, fs.getRaw inst (start + p) ≠ fs.getRaw inst₀ (start + p) ↔ p ∈ out
  other : ∀ j, j < start ∨ start + depth ≤ j → fs.getRaw inst j = fs.getRaw inst₀ j

theorem Changed.write (h : fs.Changed start depth inst₀ inst out) (hr : r < depth) (hnew : r ∉ out)
    (hw : fs.Wrote inst inst' (start + r) v) (hv : fs.getRaw inst (start + r) ≠ some v) :
    fs.Changed start depth inst₀ inst' (r :: out) := by
  refine ⟨hw.length, List.nodup_cons.mpr ⟨hnew, h.nodup⟩, fun p hp => ?_, fun p hp => ?_,
    fun j hj => ?_⟩
  · rcases List.mem_cons.mp hp with rfl | hp
    · exact hr
    · exact h.within p hp
  · rw [List.mem_cons]
    by_cases e : p = r
    · have hold : fs.getRaw inst (start + r) = fs.getRaw inst₀ (start + r) := by
        by_contra hne
        exact hnew ((h.differ r hr).mp hne)
      rw [e, hw.self, ← hold]
      exact iff_of_true (Ne.symm hv) (.inl rfl)
    · rw [hw.other _ (by omega), h.differ p hp, or_iff_right e]
  · rw [hw.other _ (by omega)]
    exact h.other j hj

theorem Changed.count (h : fs.Changed start depth inst₀ inst out) :
    (List.range depth).countP (fun p =>
      decide (fs.getRaw inst (start + p) ≠ fs.getRaw inst₀ (start + p))) = out.length := by
  rw [List.countP_eq_length_filter]
  refine List.Perm.length_eq ((List.perm_ext_iff_of_nodup ?_ h.nodup).mpr fun p => ?_)
  · exact List.nodup_range.filter _
  · rw [List.mem_filter, List.mem_range, decide_eq_true_eq]
    exact ⟨fun ⟨hp, hd⟩ => (h.differ p hp).mp hd,
      fun hp => ⟨h.within p hp, (h.differ p (h.within p hp)).mpr hp⟩⟩

/-! ## The selector has enough left -/

theorem countP_range_remove {n : Nat} (hr : r < n) (hnew : r ∉ out) :
    (List.range n).countP (fun p => decide (p ∉ out)) =
      (List.range n).countP (fun p => decide (p ∉ r :: out)) + 1 := by
  induction n with
  | zero => cases hr
  | succ n ih =>
    rw [List.range_succ, List.countP_append, List.countP_append, List.countP_singleton,
      List.countP_singleton]
    by_cases e : n = r
    · subst e
      have hsame : (List.range n).countP (fun p => decide (p ∉ out)) =
          (List.range n).countP (fun p => decide (p ∉ n :: out)) := by
        refine List.countP_congr fun p hp => ?_
        have hne := Nat.ne_of_lt (List.mem_range.mp hp)
        simp [hne]
      rw [hsame]
      simp [hnew]
    · rw [ih (by omega)]
      have hiff : decide (n ∉ r :: out) = decide (n ∉ out) := by simp [e]
      rw [hiff]
      omega

/-- With `i` changes left. Until a step is turned to a stop every stop is free, after that the
range ends before the first one. -/
def Room (depth i : Nat) (s : Sampling G) (out : List Nat) : Prop :=
  (s.select.n = min (s.num + 1) depth ∧ (∀ p ∈ out, p < s.num) ∧ i + out.length ≤ depth) ∨
    (s.select.n = s.num ∧ i ≤ (List.range s.num).countP fun p => decide (p ∉ out))

theorem Room.not_exhausted {i : Nat} {s : Sampling G} (h : Room depth (i + 1) s out)
    (hnum : s.num ≤ depth) (hdrawn : s.select.Drawn out) : s.select.empty = false := by
  by_contra he
  have hall := hdrawn.empty_iff.mp (Bool.not_eq_false _ ▸ he)
  rcases h with ⟨hn, hbelow, hlen⟩ | ⟨hn, hfree⟩
  · by_cases hlast : s.num < depth
    · exact Nat.lt_irrefl _ (hbelow s.num (hall s.num (by omega)))
    · have hsub : (List.range depth).Subperm out :=
        List.subperm_of_subset List.nodup_range fun p hp =>
          hall p (by have := List.mem_range.mp hp; omega)
      have hle := hsub.length_le
      rw [List.length_range] at hle
      omega
  · have hnone : (List.range s.num).countP (fun p => decide (p ∉ out)) = 0 := by
      rw [List.countP_eq_zero]
      intro p hp hfalse
      exact of_decide_eq_true hfalse (hall p (hn ▸ List.mem_range.mp hp))
    omega

theorem Room.drawn_lt {i : Nat} {s : Sampling G} (h : Room depth i s out) (hnum : s.num ≤ depth)
    (hr : r < s.select.n) : r < depth ∧ r ≤ s.num := by
  rcases h with ⟨hn, -, -⟩ | ⟨hn, -⟩
  · omega
  · omega

/-- A stop is drawn only while every stop is free, and it is the first one. -/
theorem Room.extend {i : Nat} {s s' : Sampling G} (h : Room depth (i + 1) s out)
    (hr : s.num < s.select.n) (hn : s'.select.n = min (s.num + 1 + 1) depth)
    (hnum : s'.num = s.num + 1) : Room depth i s' (s.num :: out) := by
  rcases h with ⟨-, hbelow, hlen⟩ | ⟨hn', -⟩
  · refine .inl ⟨by rw [hn, hnum], fun p hp => ?_, by rw [List.length_cons]; omega⟩
    rw [hnum]
    rcases List.mem_cons.mp hp with rfl | hp
    · exact Nat.lt_succ_self _
    · exact Nat.lt_succ_of_lt (hbelow p hp)
  · omega

theorem Room.flip {i : Nat} {s s' : Sampling G} (h : Room depth (i + 1) s out) (hr : r < s.num)
    (hnew : r ∉ out) (hn : s'.select.n = s.select.n) (hnum : s'.num = s.num) :
    Room depth i s' (r :: out) := by
  rcases h with ⟨hn', hbelow, hlen⟩ | ⟨hn', hfree⟩
  · refine .inl ⟨by rw [hn, hn', hnum], fun p hp => ?_, by rw [List.length_cons]; omega⟩
    rw [hnum]
    rcases List.mem_cons.mp hp with rfl | hp
    · exact hr
    · exact hbelow p hp
  · refine .inr ⟨by rw [hn, hn', hnum], ?_⟩
    rw [countP_range_remove hr hnew] at hfree
    rw [hnum]
    omega

/-- Of what was free, the new range lacks the stop after it at most. -/
theorem Room.cut {i : Nat} {s s' : Sampling G} (h : Room depth (i + 1) s out) (hr : r + 1 = s.num)
    (hfree : i + 1 ≤ (List.range s.select.n).countP fun p => decide (p ∉ r :: out))
    (hn : s'.select.n = r) (hnum : s'.num = r) : Room depth i s' (r :: out) := by
  refine .inr ⟨by rw [hn, hnum], ?_⟩
  have hle : s.select.n ≤ r + 1 + 1 := by
    rcases h with ⟨hn', -, -⟩ | ⟨hn', -⟩
    · omega
    · omega
  have hmono : (List.range s.select.n).countP (fun p => decide (p ∉ r :: out)) ≤
      (List.range (r + 1 + 1)).countP (fun p => decide (p ∉ r :: out)) :=
    (List.range_sublist.mpr hle).countP_le
  have hlast : (List.range (r + 1 + 1)).countP (fun p => decide (p ∉ r :: out)) ≤
      (List.range r).countP (fun p => decide (p ∉ r :: out)) + 1 := by
    rw [List.range_succ, List.range_succ, List.countP_append, List.countP_append,
      List.countP_singleton, List.countP_singleton, if_neg (by simp)]
    split
    · exact le_rfl
    · omega
  rw [hnum]
  omega

/-- The state between two changes. -/
structure Sampled (fs : FieldSet C) (start depth : Nat) (inst₀ : Instance) (i : Nat)
    (s : Sampling G) (out : List Nat) : Prop where
  canonical : fs.CanonicalAt s.inst start depth s.num
  changed : fs.Changed start depth inst₀ s.inst out
  drawn : s.select.Drawn out
  room : Room depth i s out

theorem switchLR_spec (h : v = left ∨ v = right) :
    ∃ v', switchLR v = some v' ∧ (v' = left ∨ v' = right) ∧ v ≠ v' := by
  rcases h with rfl | rfl
  · exact ⟨right, rfl, .inr rfl, by decide⟩
  · exact ⟨left, rfl, .inl rfl, by decide⟩

theorem changeOne_sampled (R : RandGen G) (hwr : fs.Writable start depth) {i : Nat}
    {s : Sampling G} (h : fs.Sampled start depth inst₀ (i + 1) s out) :
    ∃ r s', changeOne R fs start depth (i + 1) s = some s' ∧
      fs.Sampled start depth inst₀ i s' (r :: out) := by
  have hne := h.room.not_exhausted h.canonical.le h.drawn
  have hpos : 0 < s.select.n := by
    have : ¬ s.select.n ≤ s.select.l := of_decide_eq_false hne
    omega
  obtain ⟨r, select, hcall, hr, hnew, hn, hdrawn⟩ := h.drawn.call hne (R.randint_lt _ s.rng hpos)
  obtain ⟨hrd, hrn⟩ := h.room.drawn_lt h.canonical.le hr
  have hlen := h.changed.length
  unfold changeOne
  simp only [hcall, Option.bind_some]
  by_cases hnum : r = s.num
  · -- the first stop
    subst hnum
    have hv := h.canonical.stops s.num le_rfl hrd
    let coin := R.randbool (R.randint s.select.n s.rng).2
    obtain ⟨v', hcoin, hstep⟩ :
        ∃ v', (if coin.1 = true then left else right) = v' ∧ (v' = left ∨ v' = right) := by
      cases coin.1
      · exact ⟨right, rfl, .inr rfl⟩
      · exact ⟨left, rfl, .inl rfl⟩
    obtain ⟨inst', hset, hw⟩ := hwr s.num hrd s.inst hlen v' (by rcases hstep with rfl | rfl <;> decide)
    refine ⟨s.num, ⟨inst', select.resetRange (min (s.num + 1 + 1) depth), s.num + 1, coin.2⟩, ?_,
      h.canonical.extend hrd hw hstep, h.changed.write hrd hnew hw ?_, hdrawn.resetRange _,
      h.room.extend hr rfl rfl⟩
    · rw [hv, Option.bind_some, if_pos rfl]
      change (fs.setRaw s.inst _ (if coin.1 = true then left else right)).map _ = _
      rw [hcoin, hset]
      rfl
    · rw [hv]
      rcases hstep with rfl | rfl <;> decide
  · have hlt : r < s.num := by omega
    obtain ⟨v, hv, hstep⟩ : ∃ v, fs.getRaw s.inst (start + r) = some v ∧ (v = left ∨ v = right) := by
      rcases h.canonical.steps r hlt with e | e
      · exact ⟨left, e, .inl rfl⟩
      · exact ⟨right, e, .inr rfl⟩
    have hvne : ¬ v = stop := by
      rintro rfl
      exact h.canonical.ne_stop hlt hv
    rw [hv, Option.bind_some, if_neg hvne]
    generalize hcoin : (if r + 1 = s.num ∧ i + 1 ≤ select.countNFree then
      R.randbool (R.randint s.select.n s.rng).2 else (false, (R.randint s.select.n s.rng).2)) = coin
    obtain ⟨coin, rng⟩ := coin
    cases coin with
    | true =>
      -- the last step becomes a stop
      have hcond : r + 1 = s.num ∧ i + 1 ≤ select.countNFree := by
        by_contra hno
        rw [if_neg hno] at hcoin
        cases (Prod.mk.inj hcoin).1
      obtain ⟨inst', hset, hw⟩ := hwr r hrd s.inst hlen stop (by decide)
      have hfree := hcond.2
      rw [hdrawn.countNFree_eq, hn] at hfree
      have hpred : s.num - 1 = r := by omega
      refine ⟨r, ⟨inst', select.resetRange r, r, rng⟩, ?_, h.canonical.cut hcond.1 hw,
        h.changed.write hrd hnew hw ?_, hdrawn.resetRange _, h.room.cut hcond.1 hfree rfl rfl⟩
      · simp only [if_true, hset, Option.map_some, hpred]
      · exact h.canonical.ne_stop hlt
    | false =>
      obtain ⟨v', hswitch, hv', hne'⟩ := switchLR_spec hstep
      obtain ⟨inst', hset, hw⟩ := hwr r hrd s.inst hlen v' (by rcases hv' with rfl | rfl <;> decide)
      refine ⟨r, ⟨inst', select, s.num, rng⟩, ?_, h.canonical.flip hlt hw hv',
        h.changed.write hrd hnew hw ?_, hdrawn, h.room.flip hlt hnew hn rfl⟩
      · simp only [Bool.false_eq_true, if_false, hswitch, Option.bind_some, hset, Option.map_some]
      · rw [hv]
        exact fun e => hne' (Option.some.inj e)

theorem changeAll_sampled (R : RandGen G) (hwr : fs.Writable start depth) {i : Nat}
    {s : Sampling G} (h : fs.Sampled start depth inst₀ i s out) :
    ∃ s' out', changeAll R fs start depth i s = some s' ∧
      fs.Sampled start depth inst₀ 0 s' out' ∧ out'.length = i + out.length := by
  induction i generalizing s out with
  | zero => exact ⟨s, out, rfl, h, (Nat.zero_add _).symm⟩
  | succ i ih =>
    obtain ⟨r, s₁, hone, h₁⟩ := changeOne_sampled R hwr h
    obtain ⟨s', out', hall, h', hlen⟩ := ih h₁
    refine ⟨s', out', ?_, h', ?_⟩
    · rw [changeAll, hone, Option.bind_some, hall]
    · rw [hlen, List.length_cons]
      omega

/-! ## The whole field -/

section Main
variable [LinearOrder C] {specs : List (Spec C)}

/-- The raw fields of a continuous variable, when none goes over the end of a word. -/
theorem writable_of_inWord (h : ofSpecs specs = some fs) (hlo : fs.nOnto ≤ start)
    (hhi : start + depth ≤ fs.discStart)
    (hword : ∀ p < depth, ∀ f, fs.fields[start + p]? = some f → f.InWord) :
    fs.Writable start depth := by
  intro p hp inst hlen v hv
  obtain ⟨f, hf, hwidth⟩ := contin_field (i := start + p) h (by omega) (by omega)
  have hcap : v < f.capacity := by
    rw [Field.capacity_of_inWord (hword p hp f hf), hwidth]
    omega
  obtain ⟨inst', hset, hlen', hself, hother⟩ :=
    (successive_of_ofSpecs h).write hlen hf (by rw [hwidth]; decide) (v := v)
  rw [Nat.mod_eq_of_lt hcap] at hself
  exact ⟨inst', hset, hlen', hself, hother⟩

/-- So many raw fields of the variable change, it stays canonical, nothing else changes, and the
selector is not asked when it is empty. -/
theorem generateContinNeighbor_changes (h : ofSpecs specs = some fs) {idx n : Nat} {c : Spec C}
    (hc : fs.contin[idx]? = some c) (hdepth : 0 < c.depth)
    (hword : ∀ p < c.depth, ∀ f, fs.fields[fs.continToRawIdx idx + p]? = some f → f.InWord)
    (hlen : inst.length = fs.packedWidth) (hcan : fs.Canonical inst idx) (hn : n ≤ c.depth)
    (R : RandGen G) (rng : G) :
    ∃ inst' rng', generateContinNeighbor R fs inst idx n rng = some (inst', rng') ∧
      inst'.length = fs.packedWidth ∧ fs.Canonical inst' idx ∧
      (List.range c.depth).countP (fun p => decide
        (fs.getRaw inst' (fs.continToRawIdx idx + p) ≠ fs.getRaw inst (fs.continToRawIdx idx + p))) =
        n ∧
      ∀ j, j < fs.continToRawIdx idx ∨ fs.continToRawIdx idx + c.depth ≤ j →
        fs.getRaw inst' j = fs.getRaw inst j := by
  obtain ⟨c', num, hc', hat⟩ := hcan
  obtain rfl := Option.some.inj (hc.symm.trans hc')
  obtain ⟨hlo, hhi⟩ := continToRawIdx_add_le hc
  have hwr := writable_of_inWord h hlo hhi hword
  have hcreate : LazySelector.create (min (num + 1) c.depth) = some ⟨min (num + 1) c.depth, 0, []⟩ :=
    if_pos (by omega)
  have hstart : fs.Sampled (fs.continToRawIdx idx) c.depth inst n
      (⟨inst, ⟨min (num + 1) c.depth, 0, []⟩, num, rng⟩ : Sampling G) [] :=
    ⟨hat, ⟨hlen, .nil, nofun, fun p _ => iff_of_false (fun hne => hne rfl) nofun, fun _ _ => rfl⟩,
      .start _, .inl ⟨rfl, nofun, hn⟩⟩
  obtain ⟨s', out', hall, hs', hcount⟩ := changeAll_sampled R hwr hstart
  refine ⟨s'.inst, s'.rng, ?_, hs'.changed.length, ⟨c, s'.num, hc, hs'.canonical⟩, ?_,
    hs'.changed.other⟩
  · rw [generateContinNeighbor, countNBeforeStop, hc, Option.bind_some, Option.bind_some,
      hat.beforeStop_eq, Option.bind_some, hcreate, Option.bind_some, hall, Option.map_some]
  · rw [hs'.changed.count, hcount, List.length_nil, Nat.add_zero]

end Main

/-- The last index of the range, and tails. -/
def lastIndex : RandGen Unit :=
  ⟨fun n _ => (n - 1, ()), fun _ => (false, ()), fun _ _ h => Nat.sub_lt h Nat.one_pos⟩

/-- One change in a field of two steps and two stops. -/
theorem generateContinNeighbor_changes_one :
    ∃ fs, ofSpecs ([.contin 0 1 2 4] : List (Spec Nat)) = some fs ∧
      ∃ inst' rng', generateContinNeighbor lastIndex fs [9#32] 0 1 () = some (inst', rng') ∧
        fs.Canonical inst' 0 ∧ (List.range 4).countP (fun p => decide
          (fs.getRaw inst' (0 + p) ≠ fs.getRaw [9#32] (0 + p))) = 1 := by
  obtain ⟨fs, hfs⟩ : ∃ fs, fs = (⟨fieldRun 2 0 4, [(.contin 0 1 2 4, 1)]⟩ : FieldSet Nat) := ⟨_, rfl⟩
  have h : ofSpecs ([.contin 0 1 2 4] : List (Spec Nat)) = some fs := by rw [hfs]; rfl
  have hc : fs.contin[0]? = some (.contin 0 1 2 4) := by rw [hfs]; rfl
  have hword : ∀ p < 4, ∀ f, fs.fields[fs.continToRawIdx 0 + p]? = some f → f.InWord := by
    intro p _ f hf
    obtain ⟨i, -, rfl⟩ := mem_fieldRun.mp (by rw [hfs] at hf; exact List.mem_of_getElem? hf)
    simp only [Field.InWord, Field.at]
    omega
  have hcan : fs.Canonical [9#32] 0 := by
    subst hfs
    exact ⟨_, 2, rfl, by decide, by decide, by decide⟩
  obtain ⟨inst', rng', hgen, -, hcan', hcount, -⟩ := generateContinNeighbor_changes h hc (by decide)
    hword (by rw [hfs]; rfl) hcan (show 1 ≤ 4 by decide) lastIndex ()
  subst hfs
  exact ⟨_, h, inst', rng', hgen, hcan', hcount⟩

/-- Without raw fields there is no selector; and of a field that starts at the last bit of a word
only stops and left steps are kept, so a change to a right step is lost. -/
theorem contin_neighbor_not_changed :
    (∃ fs, ofSpecs ([.contin 0 1 2 0] : List (Spec Nat)) = some fs ∧ fs.packedWidth = 0 ∧
      fs.Canonical [] 0 ∧ generateContinNeighbor lastIndex fs [] 0 0 () = none) ∧
    ∃ fs, ofSpecs ([.onto 1 1, .contin 0 1 2 16] : List (Spec Nat)) = some fs ∧
      fs.packedWidth = 1 ∧ fs.Canonical [0x2AAAAAAA#32] 0 ∧
      generateContinNeighbor lastIndex fs [0x2AAAAAAA#32] 0 1 () =
        some ([0x2AAAAAAA#32], ()) := by
  refine ⟨⟨_, rfl, rfl, ⟨_, 0, rfl, by decide, by decide, by decide⟩, rfl⟩,
    _, rfl, rfl, ⟨_, 15, rfl, by decide, by decide, by decide⟩, rfl⟩

end FieldSet

end OpenCog.Moses
