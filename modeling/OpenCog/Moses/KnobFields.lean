import OpenCog.Moses.FieldPacking
import OpenCog.Moses.Representation

/-! The fields of knobs: they stand in the order of the maps of knobs, and the three loops
of a transformation read each of them once. -/
namespace OpenCog.Moses

/-! ## Specs in order -/

section Order
variable {C : Type} [LinearOrder C] {s t u : Spec C}

theorem Spec.less_asymm (h : s.less t = true) : t.less s = false := by
  cases s <;> cases t <;>
    simp only [Spec.less, Spec.which, decide_eq_true_eq, decide_eq_false_iff_not] at * <;> grind

theorem Spec.less_trans (hs : s.which ≠ 0) (ht : t.which ≠ 0) (hu : u.which ≠ 0)
    (h : s.less t = true) (h' : t.less u = true) : s.less u = true := by
  cases s <;> cases t <;> cases u <;>
    simp only [Spec.less, Spec.which, decide_eq_true_eq] at * <;> grind

/-- Two specs of one key are the same one, ontologies apart. -/
theorem Spec.eq_of_not_less (hs : s.which ≠ 0) (ht : t.which ≠ 0) (h : s.less t = false)
    (h' : t.less s = false) : s = t := by
  cases s <;> cases t <;>
    simp only [Spec.less, Spec.which, decide_eq_false_iff_not] at * <;> grind

/-- The specs, each as often as it is counted. -/
def expand {C : Type} (m : List (Spec C × Nat)) : List (Spec C) :=
  m.flatMap fun g => List.replicate g.2 g.1

theorem mem_expand {C : Type} {m : List (Spec C × Nat)} {s : Spec C} (h : s ∈ expand m) :
    ∃ g ∈ m, g.1 = s := by
  obtain ⟨g, hg, hs⟩ := List.mem_flatMap.mp h
  exact ⟨g, hg, (List.eq_of_mem_replicate hs).symm⟩

theorem expand_filter {C : Type} (p : Spec C → Bool) (m : List (Spec C × Nat)) :
    expand (m.filter fun g => p g.1) = (expand m).filter p := by
  induction m with
  | nil => rfl
  | cons g m ih =>
    have hcons : ∀ m : List (Spec C × Nat), expand (g :: m) = List.replicate g.2 g.1 ++ expand m :=
      fun _ => List.flatMap_cons
    rw [List.filter_cons, hcons, List.filter_append]
    by_cases hp : p g.1 = true
    · rw [if_pos hp, List.filter_replicate_of_pos hp, hcons, ih]
    · rw [if_neg hp, List.filter_replicate_of_neg hp, List.nil_append, ih]

theorem expand_countSpec (hs : s.which ≠ 0) {m : List (Spec C × Nat)}
    (hm : ∀ g ∈ m, g.1.which ≠ 0) : (expand (countSpec s m)).Perm (s :: expand m) := by
  induction m with
  | nil => exact .refl _
  | cons g m ih =>
    simp only [countSpec]
    split
    · exact .refl _
    · next h =>
      split
      · have ih := ih fun g' hg' => hm g' (List.mem_cons_of_mem _ hg')
        exact (List.Perm.append_left _ ih).trans List.perm_middle
      · next h' =>
        have he : s = g.1 := Spec.eq_of_not_less hs (hm g List.mem_cons_self)
          (Bool.eq_false_iff.mpr h) (Bool.eq_false_iff.mpr h')
        subst he
        exact .refl _

theorem countSpec_strict (hs : s.which ≠ 0) {m : List (Spec C × Nat)}
    (hm : ∀ g ∈ m, g.1.which ≠ 0) (h : m.Pairwise fun g g' => g.1.less g'.1 = true) :
    (countSpec s m).Pairwise fun g g' => g.1.less g'.1 = true := by
  induction m with
  | nil => exact List.pairwise_singleton _ _
  | cons a m ih =>
    obtain ⟨ha, hrest⟩ := List.pairwise_cons.mp h
    have hwa := hm a List.mem_cons_self
    have hwm : ∀ g ∈ m, g.1.which ≠ 0 := fun g hg => hm g (List.mem_cons_of_mem _ hg)
    simp only [countSpec]
    split
    · next hl =>
      refine List.pairwise_cons.mpr ⟨fun g hg => ?_, h⟩
      rcases List.mem_cons.mp hg with rfl | hg
      · exact hl
      · exact Spec.less_trans hs hwa (hwm g hg) hl (ha g hg)
    · split
      · next hl =>
        refine List.pairwise_cons.mpr ⟨fun g hg => ?_, ih hwm hrest⟩
        rcases mem_countSpec hg with e | ⟨g', hg', e⟩
        · rw [e]
          exact hl
        · rw [← e]
          exact ha g' hg'
      · exact List.pairwise_cons.mpr ⟨ha, hrest⟩

theorem specCounts_expand {specs : List (Spec C)} (hs : ∀ s ∈ specs, s.which ≠ 0) :
    (expand (specCounts specs)).Perm specs ∧
      (specCounts specs).Pairwise (fun g g' => g.1.less g'.1 = true) ∧
      ∀ g ∈ specCounts specs, g.1.which ≠ 0 := by
  suffices ∀ m : List (Spec C × Nat), (∀ g ∈ m, g.1.which ≠ 0) →
      (m.Pairwise fun g g' => g.1.less g'.1 = true) →
      let m' := specs.foldl (fun m s => countSpec s m) m
      (expand m').Perm (specs ++ expand m) ∧ (m'.Pairwise fun g g' => g.1.less g'.1 = true) ∧
        ∀ g ∈ m', g.1.which ≠ 0 by
    have h := this [] (by simp) .nil
    rw [show expand ([] : List (Spec C × Nat)) = [] from rfl, List.append_nil] at h
    exact h
  induction specs with
  | nil => exact fun m hm h => ⟨.refl _, h, hm⟩
  | cons s specs ih =>
    intro m hm h
    have hw := hs s List.mem_cons_self
    have hm' : ∀ g ∈ countSpec s m, g.1.which ≠ 0 := by
      intro g hg
      rcases mem_countSpec hg with e | ⟨g', hg', e⟩
      · rwa [e]
      · rw [← e]
        exact hm g' hg'
    obtain ⟨hp, hsort, hall⟩ := ih (fun s hs' => hs s (List.mem_cons_of_mem _ hs')) _ hm'
      (countSpec_strict hw hm h)
    refine ⟨hp.trans ?_, hsort, hall⟩
    exact (List.Perm.append_left _ (expand_countSpec hw hm)).trans List.perm_middle

theorem expand_sorted {m : List (Spec C × Nat)}
    (h : m.Pairwise fun g g' => g.1.less g'.1 = true) :
    (expand m).Pairwise fun s t => t.less s = false := by
  have hself : ∀ s : Spec C, s.less s = false := by
    intro s
    by_contra hc
    have hc := Bool.eq_true_of_not_eq_false hc
    exact absurd (Spec.less_asymm hc) (by rw [hc]; decide)
  rw [expand, List.pairwise_flatMap]
  refine ⟨fun g _ => List.pairwise_replicate.mpr (.inr (hself _)), h.imp fun hl s hs t ht => ?_⟩
  rw [List.eq_of_mem_replicate hs, List.eq_of_mem_replicate ht]
  exact Spec.less_asymm hl

/-- One kind of specs in order is what is left of all of them in order. -/
theorem filter_eq_of_sorted {p : Spec C → Bool} {l l' specs : List (Spec C)} (hp : l.Perm specs)
    (hl : l.Pairwise fun s t => t.less s = false) (hk : ∀ s ∈ l.filter p, s.which ≠ 0)
    (hl' : l'.Pairwise fun s t => t.less s = false) (he : specs.filter p = l') :
    l.filter p = l' := by
  have hperm : (l.filter p).Perm l' := he ▸ hp.filter p
  refine List.Perm.eq_of_pairwise (fun s t hs ht h₁ h₂ => ?_) (hl.filter p) hl' hperm
  exact Spec.eq_of_not_less (hk s hs) (hk t (hperm.mem_iff.mpr ht)) h₂ h₁

theorem insertSpecs_perm (specs m : List (Spec C)) :
    (specs.foldl (fun m s => insertSpec s m) m).Perm (specs ++ m) := by
  have hone : ∀ (s : Spec C) (m : List (Spec C)), (insertSpec s m).Perm (s :: m) := by
    intro s m
    induction m with
    | nil => exact .refl _
    | cons t m ih =>
      simp only [insertSpec]
      split
      · exact .refl _
      · exact (ih.cons t).trans (.swap ..)
  induction specs generalizing m with
  | nil => exact .refl _
  | cons s specs ih => exact (ih _).trans ((List.Perm.append_left _ (hone s m)).trans List.perm_middle)

end Order

/-! ## The vectors of specs are those of the knobs -/

section Knobs
variable {C : Type} [LinearOrder C] {disc : List LogicalSubtreeKnob}
  {contin : List (ContinKnob C)} {fs : FieldSet C}

/-- The maps of knobs are sorted by their specs. -/
structure InOrder (disc : List LogicalSubtreeKnob) (contin : List (ContinKnob C)) : Prop where
  disc : disc.Pairwise fun k k' => k'.arity ≤ k.arity
  contin : contin.Pairwise fun k k' => k'.spec.less k.spec = false

theorem LogicalSubtreeKnob.arity_le (k : LogicalSubtreeKnob) : k.arity ≤ 3 := Nat.sub_le ..

theorem LogicalSubtreeKnob.arity_spec (k : LogicalSubtreeKnob) :
    (Fin.ofNat (2 ^ 32) k.arity).val = k.arity :=
  Nat.mod_eq_of_lt (Nat.lt_of_le_of_lt k.arity_le (by decide))

theorem ofKind_zero {C : Type} {gs : List (Spec C × Nat)} (h : ∀ g ∈ gs, g.1.which ≠ 0) :
    (gs.filter fun g => g.1.which = 0) = [] := by
  rw [List.filter_eq_nil_iff]
  intro g hg
  simpa using h g hg

theorem fieldsOf_specs (h : fieldsOf disc contin = some fs) (ho : InOrder disc contin) :
    (∀ g ∈ fs.specs, g.1.which ≠ 0) ∧ fs.contin = contin.map ContinKnob.spec ∧
      fs.discAndBits = disc.map LogicalSubtreeKnob.spec ∧
      expand fs.specs = contin.map ContinKnob.spec ++ disc.map LogicalSubtreeKnob.spec := by
  let specs := disc.map LogicalSubtreeKnob.spec ++ contin.map ContinKnob.spec
  let tmp := specs.foldl (fun m s => insertSpec s m) []
  have hperm : tmp.Perm specs := by simpa using insertSpecs_perm specs []
  have hkind : ∀ s ∈ tmp, s.which ≠ 0 := by
    intro s hs
    rcases List.mem_append.mp (hperm.mem_iff.mp hs) with hs | hs
    · obtain ⟨k, -, rfl⟩ := List.mem_map.mp hs
      exact Nat.succ_ne_zero 1
    · obtain ⟨k, -, rfl⟩ := List.mem_map.mp hs
      exact Nat.succ_ne_zero 0
  obtain ⟨hexp, hstrict, hall⟩ := specCounts_expand hkind
  have hspecs : fs.specs = specCounts tmp := build_specs h
  rw [← hspecs] at hexp hstrict hall
  have hsorted := expand_sorted hstrict
  have hd : ∀ k : LogicalSubtreeKnob, (k.spec : Spec C).which = 2 := fun _ => rfl
  have hc : ∀ k : ContinKnob C, k.spec.which = 1 := fun _ => rfl
  have hone : fs.contin = contin.map ContinKnob.spec := by
    refine (expand_filter (fun s => s.which = 1) fs.specs).trans ?_
    refine filter_eq_of_sorted (hexp.trans hperm) hsorted ?_ (List.pairwise_map.mpr ho.contin) ?_
    · intro s hs
      simp only [List.mem_filter, decide_eq_true_eq] at hs
      omega
    · simp only [specs, List.filter_append, List.filter_map]
      simp [Function.comp_def, hd, hc]
  have htwo : fs.discAndBits = disc.map LogicalSubtreeKnob.spec := by
    refine (expand_filter (fun s => s.which = 2) fs.specs).trans ?_
    refine filter_eq_of_sorted (hexp.trans hperm) hsorted ?_ (List.pairwise_map.mpr ?_) ?_
    · intro s hs
      simp only [List.mem_filter, decide_eq_true_eq] at hs
      omega
    · refine ho.disc.imp fun {k k'} hk => ?_
      simp only [LogicalSubtreeKnob.spec, Spec.less, decide_eq_false_iff_not, Fin.lt_def, gt_iff_lt,
        k.arity_spec, k'.arity_spec]
      omega
    · simp only [specs, List.filter_append, List.filter_map]
      simp [Function.comp_def, hd, hc]
  refine ⟨hall, hone, htwo, ?_⟩
  have hkinds : fs.specs.Pairwise fun g g' => g.1.which ≤ g'.1.which :=
    hstrict.imp fun hl => which_le_of_less hl
  rw [← hone, ← htwo, ← kinds_eq hkinds]
  rw [ofKind_zero hall, List.nil_append, expand, List.flatMap_append]
  rfl

/-! ## Where the fields are -/

/-- Fields of some widths, one after the other. -/
def place : Nat → List Nat → List Field
  | _, [] => []
  | b, w :: ws => .at w b :: place (b + w) ws

theorem place_append (b : Nat) (ws ws' : List Nat) :
    place b (ws ++ ws') = place b ws ++ place (b + ws.sum) ws' := by
  induction ws generalizing b with
  | nil => simp [place]
  | cons w ws ih => rw [List.cons_append, place, ih, place, List.sum_cons, Nat.add_assoc]; rfl

theorem place_replicate (b w n : Nat) : place b (List.replicate n w) = fieldRun w b n := by
  induction n generalizing b with
  | zero => rfl
  | succ n ih =>
    rw [List.replicate_succ, place, ih, fieldRun, fieldRun, List.range_succ_eq_map, List.map_cons,
      List.map_map, Nat.zero_mul, Nat.add_zero]
    refine congrArg _ (List.map_congr_left fun i _ => congrArg _ ?_)
    rw [Nat.succ_mul]
    omega

/-- The widths of the raw fields of some specs. -/
def rawWidths {C : Type} (specs : List (Spec C)) : List Nat :=
  specs.flatMap fun s => List.replicate s.depth s.width

theorem layout_eq_place {C : Type} {gs : List (Spec C × Nat)} (h : ∀ g ∈ gs, g.1.which ≠ 0)
    (b : Nat) : layout b gs = place b (rawWidths (expand gs)) := by
  induction gs generalizing b with
  | nil => rfl
  | cons g gs ih =>
    have hw := h g List.mem_cons_self
    have hgroup : rawWidths (List.replicate g.2 g.1) =
        List.replicate (g.2 * g.1.depth) g.1.width := by
      rw [rawWidths, List.flatMap_replicate, List.flatten_replicate_replicate]
    have hfields : g.1.fields b g.2 = fieldRun g.1.width b (g.2 * g.1.depth) := by
      rw [g.1.fields_eq, (g.1.runs_other hw g.2).1, (g.1.runs_other hw g.2).2]
      simp
    have hend : g.1.endAt b g.2 = b + g.2 * g.1.depth * g.1.width := by
      rw [Spec.endAt, (g.1.runs_other hw g.2).1, (g.1.runs_other hw g.2).2]
      split
      · next hz =>
        have : g.2 * g.1.depth = 0 := by omega
        rw [this, Nat.zero_mul, Nat.add_zero]
      · simp
    have happ : rawWidths (expand (g :: gs)) =
        rawWidths (List.replicate g.2 g.1) ++ rawWidths (expand gs) := by
      rw [expand, List.flatMap_cons, rawWidths, List.flatMap_append]
      rfl
    rw [layout, hfields, hend, ih (fun g' hg' => h g' (List.mem_cons_of_mem _ hg')), happ, hgroup,
      place_append, place_replicate, List.sum_replicate, smul_eq_mul]

omit [LinearOrder C] in
theorem LogicalSubtreeKnob.width_spec (k : LogicalSubtreeKnob) (h : 0 < k.arity) :
    (k.spec : Spec C).width = if k.arity = 3 then 2 else 1 := by
  have hk := k.arity_le
  have hw : (k.spec : Spec C).width = nbitsToPack k.arity := by
    rw [LogicalSubtreeKnob.spec, Spec.width, k.arity_spec]
  rw [hw]
  obtain e | e | e : k.arity = 1 ∨ k.arity = 2 ∨ k.arity = 3 := by omega
  · rw [e]; decide
  · rw [e]; decide
  · rw [e]; decide

omit [LinearOrder C] in
theorem disc_widths (hs : disc.Pairwise fun k k' => k'.arity ≤ k.arity)
    (hpos : ∀ k ∈ disc, 0 < k.arity) :
    ∃ a b, disc.map (fun k => (k.spec : Spec C).width) =
      List.replicate a 2 ++ List.replicate b 1 := by
  induction disc with
  | nil => exact ⟨0, 0, rfl⟩
  | cons k disc ih =>
    obtain ⟨hk, hs⟩ := List.pairwise_cons.mp hs
    have hpos' : ∀ k ∈ disc, 0 < k.arity := fun k' hk' => hpos k' (List.mem_cons_of_mem _ hk')
    by_cases h3 : k.arity = 3
    · obtain ⟨a, b, e⟩ := ih hs hpos'
      refine ⟨a + 1, b, ?_⟩
      rw [List.map_cons, e, k.width_spec (hpos k List.mem_cons_self), if_pos h3,
        List.replicate_succ, List.cons_append]
    · refine ⟨0, disc.length + 1, ?_⟩
      have h1 : ∀ k' ∈ k :: disc, (k'.spec : Spec C).width = 1 := by
        intro k' hk'
        have hle : k'.arity ≤ k.arity := by
          rcases List.mem_cons.mp hk' with rfl | hk'
          · exact Nat.le_refl _
          · exact hk k' hk'
        rw [k'.width_spec (hpos k' hk'), if_neg (by have := k.arity_le; omega)]
      rw [List.map_eq_replicate_iff.mpr h1]
      rfl

theorem build_buildable {C : Type} {gs : List (Spec C × Nat)} {fs fs' : FieldSet C}
    (h : gs.foldlM FieldSet.buildSpec fs = some fs') : ∀ g ∈ gs, g.1.buildable = true := by
  induction gs generalizing fs with
  | nil => exact fun g hg => by cases hg
  | cons g gs ih =>
    rw [List.foldlM_cons] at h
    obtain ⟨fs₁, h₁, hrest⟩ := Option.bind_eq_some_iff.mp h
    unfold FieldSet.buildSpec at h₁
    split at h₁
    · next hb =>
      intro g' hg'
      rcases List.mem_cons.mp hg' with rfl | hg'
      · exact hb
      · exact ih hrest g' hg'
    · cases h₁

/-- Fields of two bits, then fields of one bit. -/
theorem fieldsOf_layout (h : fieldsOf disc contin = some fs) (ho : InOrder disc contin) :
    ∃ m b, fs.fields = fieldRun 2 0 m ++ fieldRun 1 (2 * m) b ∧ fs.nbool = b ∧
      fs.discStart ≤ m ∧ fs.discStart + disc.length = m + b ∧ ∀ k ∈ disc, 0 < k.arity := by
  obtain ⟨hkind, hc, hd, hall⟩ := fieldsOf_specs h ho
  have hspecs : ∀ g ∈ fs.specs, g.1.buildable = true := by
    rw [build_specs h]
    exact build_buildable h
  have hpos : ∀ k ∈ disc, 0 < k.arity := by
    intro k hk
    obtain ⟨g, hg, e⟩ := mem_expand (m := fs.specs) (s := k.spec)
      (by rw [hall]; exact List.mem_append_right _ (List.mem_map_of_mem hk))
    have := hspecs g hg
    rw [e, LogicalSubtreeKnob.spec, Spec.buildable, decide_eq_true_eq, k.arity_spec] at this
    exact this
  obtain ⟨a, b, hw⟩ := disc_widths (C := C) ho.disc hpos
  have hlen : disc.length = a + b := by
    have := congrArg List.length hw
    simpa using this
  have hcontin : rawWidths fs.contin = List.replicate (fs.contin.map Spec.depth).sum 2 := by
    rw [hc]
    clear * -
    induction contin with
    | nil => rfl
    | cons k contin ih =>
      rw [List.map_cons, rawWidths, List.flatMap_cons, ← rawWidths, ih, List.map_cons, List.sum_cons,
        List.replicate_add]
      rfl
  have hdisc : rawWidths (disc.map LogicalSubtreeKnob.spec : List (Spec C)) =
      List.replicate a 2 ++ List.replicate b 1 := by
    have hone : ∀ (k : LogicalSubtreeKnob) (w : Nat),
        List.replicate (k.spec : Spec C).depth w = [w] := fun _ _ => rfl
    rw [← hw, rawWidths, List.flatMap_map]
    simp only [hone, ← List.map_eq_flatMap]
  have hstart : fs.discStart = (fs.contin.map Spec.depth).sum := by
    rw [FieldSet.discStart, FieldSet.nOnto, FieldSet.ofKind, ofKind_zero hkind, List.map_nil,
      List.sum_nil, Nat.zero_add]
  have hfields : fs.fields = layout 0 fs.specs := by
    rw [build_specs h]
    exact ofSpecs_fields h
  refine ⟨fs.discStart + a, b, ?_, ?_, Nat.le_add_right .., by omega, hpos⟩
  · rw [hfields, layout_eq_place hkind, hall, ← hc, rawWidths, List.flatMap_append, ← rawWidths,
      ← rawWidths, hcontin, hdisc, ← List.append_assoc, ← List.replicate_add, place_append,
      place_replicate, place_replicate, ← hstart, List.sum_replicate, smul_eq_mul]
    simp [Nat.mul_comm]
  · have hcount := congrArg (List.countP fun w => decide (w = 1)) hw
    rw [List.countP_map, List.countP_append, List.countP_replicate, List.countP_replicate] at hcount
    rw [FieldSet.nbool, hd, List.countP_map]
    simp only [Function.comp_def] at hcount ⊢
    rw [hcount]
    simp

/-! ## What the loops read -/

theorem mapM_some {α β : Type} {f : α → Option β} {g : α → β} {l : List α}
    (h : ∀ a ∈ l, f a = some (g a)) : l.mapM f = some (l.map g) := by
  induction l with
  | nil => rfl
  | cons a l ih =>
    rw [List.mapM_cons, h a List.mem_cons_self, ih fun b hb => h b (List.mem_cons_of_mem _ hb)]
    rfl

theorem getElem?_fieldRun {w b c i : Nat} (h : i < c) :
    (fieldRun w b c)[i]? = some (.at w (b + i * w)) := by
  simp [fieldRun, h]

theorem length_fieldRun (w b c : Nat) : (fieldRun w b c).length = c := by simp [fieldRun]

/-- Every raw field can be read, and the loops over the discrete ones and over the bits read
those of the discrete knobs in turn. -/
theorem fieldsOf_values (h : fieldsOf disc contin = some fs) (ho : InOrder disc contin)
    {inst : FieldSet.Instance} (hlen : inst.length = fs.packedWidth) :
    ∃ (raw : Nat → Nat) (vs bs : List Nat), (∀ i < fs.rawSize, fs.getRaw inst i = some (raw i)) ∧
      fs.discValues inst = some vs ∧ fs.bitValues inst = some bs ∧
      vs ++ bs = (List.range' fs.discStart disc.length).map raw := by
  obtain ⟨m, b, hf, hb, hstart, hcount, -⟩ := fieldsOf_layout h ho
  have hsize : fs.rawSize = m + b := by
    rw [FieldSet.rawSize, hf, List.length_append, length_fieldRun, length_fieldRun]
  have hone : ∀ j < b, fs.fields[m + j]? = some (.at 1 (2 * m + j)) := by
    intro j hj
    rw [hf, List.getElem?_append_right (by rw [length_fieldRun]; omega), length_fieldRun,
      Nat.add_sub_cancel_left, getElem?_fieldRun hj, Nat.mul_one]
  have hmem : ∀ f ∈ fs.fields, 0 < f.width ∧ f.width < 32 ∧ f.InWord := by
    intro f hfm
    rw [hf] at hfm
    rcases List.mem_append.mp hfm with hfm | hfm
    · obtain ⟨i, -, rfl⟩ := mem_fieldRun.mp hfm
      refine ⟨by simp, by simp, ?_⟩
      simp only [Field.InWord, Field.at]
      omega
    · obtain ⟨i, -, rfl⟩ := mem_fieldRun.mp hfm
      refine ⟨by simp, by simp, ?_⟩
      simp only [Field.InWord, Field.at]
      omega
  have hword : ∀ i f, fs.fields[i]? = some f → ∃ x, inst[f.majorOffset]? = some x ∧
      fs.getRaw inst i = some (BitField.get x f.minorOffset f.width).toNat := by
    intro i f hi
    have hfm := List.mem_of_getElem? hi
    have hs := FieldSet.successive_of_ofSpecs h
    have hmaj := FieldSet.majorOffset_lt hs.before hs.minor hfm
    rw [← hlen] at hmaj
    exact ⟨_, List.getElem?_eq_getElem hmaj,
      FieldSet.getRaw_eq hi (List.getElem?_eq_getElem hmaj) (hmem f hfm).2.1⟩
  let raw : Nat → Nat := fun i => (fs.getRaw inst i).getD 0
  have hraw : ∀ i < fs.rawSize, fs.getRaw inst i = some (raw i) := by
    intro i hi
    obtain ⟨x, -, hx⟩ := hword i _ (List.getElem?_eq_getElem hi)
    simp only [raw, hx, Option.getD_some]
  refine ⟨raw, (List.range' fs.discStart (m - fs.discStart)).map raw, (List.range' m b).map raw,
    hraw, ?_, ?_, ?_⟩
  · rw [FieldSet.discValues, hsize, hb, Nat.add_sub_cancel]
    refine mapM_some fun i hi => hraw i ?_
    have := List.mem_range'_1.mp hi
    omega
  · unfold FieldSet.bitValues
    rw [hsize, hb, Nat.add_sub_cancel]
    cases b with
    | zero =>
      have hnone : fs.fields[m]? = none := List.getElem?_eq_none (Nat.le_of_eq hsize)
      rw [hnone]
      rfl
    | succ b =>
      have hlast : fs.fields.getLast? = some (.at 1 (2 * m + b)) := by
        rw [List.getLast?_eq_getElem?, ← FieldSet.rawSize, hsize, Nat.add_succ_sub_one,
          hone b (Nat.lt_succ_self b)]
      have hwidth : inst.length = (2 * m + b) / 32 + 1 := by
        rw [hlen, FieldSet.packedWidth, hlast]
        rfl
      have hstop : (inst.length - 1) * 32 + (Field.at 1 (2 * m + b)).minorOffset + 1 =
          2 * m + (b + 1) := by
        rw [hwidth]
        simp only [Field.at]
        omega
      have hfirst := hone 0 (Nat.succ_pos b)
      rw [Nat.add_zero, Nat.add_zero] at hfirst
      simp only [hfirst, hlast, hstop, Field.at_offset]
      rw [if_pos (by omega), Nat.add_sub_cancel_left]
      have hbits : ∀ q ∈ List.range' (2 * m) (b + 1),
          (inst[q / 32]?.map fun x => if x.getLsbD (q % 32) then 1 else 0) =
            some (raw (q - m)) := by
        intro q hq
        have hq := List.mem_range'_1.mp hq
        obtain ⟨j, rfl⟩ := Nat.exists_eq_add_of_le hq.1
        obtain ⟨x, hx, hr⟩ := hword (m + j) _ (hone j (by omega))
        have hj : 2 * m + j - m = m + j := by omega
        simp only [Field.at] at hx hr
        simp only [hj, raw, hr, hx, Option.getD_some, Option.map_some, BitField.toNat_get_one]
      rw [mapM_some hbits, List.range'_eq_map_range, List.range'_eq_map_range, List.map_map,
        List.map_map]
      refine congrArg some (List.map_congr_left fun j _ => ?_)
      show raw (2 * m + j - m) = raw (m + j)
      congr 1
      omega
  · have hsplit : disc.length = m - fs.discStart + b := by omega
    have hmid : fs.discStart + (m - fs.discStart) = m := by omega
    rw [hsplit, ← List.range'_append_1, hmid, List.map_append]

end Knobs

end OpenCog.Moses
