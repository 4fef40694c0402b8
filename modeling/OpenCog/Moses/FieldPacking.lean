import OpenCog.Moses.FieldLayout

/-! Packing against the layout: `pack` fills the last variable of an ontology up to a
whole number of words, the layout starts the next spec right after its last field. -/
namespace OpenCog.Moses

open BitField (Word)

/-! ## Cursors -/

namespace Cursor

/-- The cursor at a bit of the output. -/
def ofBit (q : Nat) : Cursor := ⟨q / 32, q % 32⟩

theorem advance_ofBit {q k : Nat} (h : q % 32 + k ≤ 32) :
    (ofBit q).advance k = ofBit (q + k) := by
  unfold advance
  by_cases hend : (ofBit q).offset + k = 32
  · rw [if_pos hend]
    simp only [ofBit, Cursor.mk.injEq] at *
    omega
  · rw [if_neg hend]
    simp only [ofBit, Cursor.mk.injEq] at *
    omega

/-- The words up to a bit, with the one it lies in. -/
theorem words_ofBit (q : Nat) :
    (if 0 < (ofBit q).offset then (ofBit q).out + 1 else (ofBit q).out) = (q + 31) / 32 := by
  have hoff : (ofBit q).offset = q % 32 := rfl
  have hout : (ofBit q).out = q / 32 := rfl
  split <;> omega

def after (c : Cursor) (ms : List Move) : Cursor := ms.foldl (fun c m => c.advance m.bits) c

/-- The fields written. -/
def places : Cursor → List Move → List Field
  | _, [] => []
  | c, .put w :: ms => ⟨w, c.out, c.offset⟩ :: places (c.advance w) ms
  | c, .pad k :: ms => places (c.advance k) ms

theorem after_append (c : Cursor) (ms ms' : List Move) :
    c.after (ms ++ ms') = (c.after ms).after ms' := List.foldl_append

theorem places_append (c : Cursor) (ms ms' : List Move) :
    c.places (ms ++ ms') = c.places ms ++ (c.after ms).places ms' := by
  induction ms generalizing c with
  | nil => rfl
  | cons m ms ih =>
    cases m with
    | put w => exact congrArg _ (ih _)
    | pad k => exact ih _

end Cursor

/-! ## What a run writes -/

section Runs

/-- A bit of the words is set iff it was, or some value put its bit there. -/
def Wrote (words words' : Nat → Word) (ps : List Field) (vs : List Nat) : Prop :=
  ∀ m k, k < 32 → ((words' m).getLsbD k = true ↔ (words m).getLsbD k = true ∨
    ∃ (i : Nat) (f : Field) (v : Nat), ps[i]? = some f ∧ vs[i]? = some v ∧
      f.majorOffset = m ∧ f.minorOffset ≤ k ∧ v.testBit (k - f.minorOffset) = true)

theorem wrote_put {words words' : Nat → Word} {f : Field} {v : Nat} {ps : List Field} {vs : List Nat}
    (h : Wrote (Function.update words f.majorOffset
      (words f.majorOffset ||| (BitVec.ofNat 32 v <<< f.minorOffset))) words' ps vs) :
    Wrote words words' (f :: ps) (v :: vs) := by
  intro m k hk
  have hbit : (Function.update words f.majorOffset
      (words f.majorOffset ||| (BitVec.ofNat 32 v <<< f.minorOffset)) m).getLsbD k = true ↔
      (words m).getLsbD k = true ∨
        (f.majorOffset = m ∧ f.minorOffset ≤ k ∧ v.testBit (k - f.minorOffset) = true) := by
    by_cases hm : f.majorOffset = m
    · subst hm
      have hk' : k - f.minorOffset < 32 := by omega
      simp only [Function.update_self, BitVec.getLsbD_or, BitVec.getLsbD_shiftLeft,
        BitVec.getLsbD_ofNat, hk, hk', decide_true, Bool.true_and, Bool.or_eq_true,
        Bool.and_eq_true, Bool.not_eq_true', decide_eq_false_iff_not, Nat.not_lt, true_and]
    · simp [Function.update_of_ne (Ne.symm hm), hm]
  rw [h m k hk, hbit]
  constructor
  · rintro ((h' | h') | ⟨i, g, u, hi⟩)
    · exact .inl h'
    · exact .inr ⟨0, f, v, rfl, rfl, h'⟩
    · exact .inr ⟨i + 1, g, u, hi⟩
  · rintro (h' | ⟨i, g, u, hg, hu, hi⟩)
    · exact .inl (.inl h')
    · cases i with
      | zero =>
        obtain rfl := Option.some.inj hg
        obtain rfl := Option.some.inj hu
        exact .inl (.inr hi)
      | succ i => exact .inr ⟨i, g, u, hg, hu, hi⟩

theorem run_wrote {ms : List Move} {p p' : Packer} (h : ms.foldlM Packer.step p = some p') :
    p'.cursor = p.cursor.after ms ∧ Wrote p.words p'.words (p.cursor.places ms) p.input := by
  induction ms generalizing p with
  | nil =>
    obtain rfl := Option.some.inj h
    exact ⟨rfl, fun m k _ => by simp [Cursor.places]⟩
  | cons m ms ih =>
    rw [List.foldlM_cons] at h
    obtain ⟨p₁, h₁, hrest⟩ := Option.bind_eq_some_iff.mp h
    obtain ⟨hc, hw⟩ := ih hrest
    cases m with
    | put w =>
      simp only [Packer.step, Packer.put] at h₁
      split at h₁
      · cases h₁
      · next v input hin =>
        split at h₁
        · obtain rfl := Option.some.inj h₁
          refine ⟨hc, ?_⟩
          rw [hin]
          exact wrote_put (f := ⟨w, p.cursor.out, p.cursor.offset⟩) hw
        · cases h₁
    | pad k =>
      obtain rfl := Option.some.inj h₁
      exact ⟨hc, hw⟩

theorem run_defined (ms : List Move) {p : Packer}
    (hin : (p.cursor.places ms).length ≤ p.input.length)
    (hoff : ∀ f ∈ p.cursor.places ms, f.minorOffset < 32) :
    ∃ p', ms.foldlM Packer.step p = some p' := by
  induction ms generalizing p with
  | nil => exact ⟨p, rfl⟩
  | cons m ms ih =>
    cases m with
    | put w =>
      cases hi : p.input with
      | nil =>
        rw [hi] at hin
        simp [Cursor.places] at hin
      | cons v input =>
        simp only [Cursor.places, hi, List.length_cons, List.forall_mem_cons] at hin hoff
        simp only [List.foldlM_cons, Packer.step, Packer.put, hi, if_pos hoff.1]
        exact ih (Nat.le_of_succ_le_succ hin) hoff.2
    | pad k => exact ih hin hoff

end Runs

/-! ## The moves of a group of specs -/

namespace Spec

variable {C : Type} (s : Spec C)

/-- Where a group leaves the cursor; an ontology ends with its padding. -/
def packEnd (base n : Nat) : Nat := if s.which = 0 then base + n * s.totalWidth else s.endAt base n

/-- The ontology takes part of a word only. -/
def Partial (n : Nat) : Prop := s.which = 0 ∧ 0 < n ∧ ¬ 32 ∣ s.bits

theorem width_dvd : s.width ∣ 32 := by
  rcases s.width_cases with e | e | e | e | e | e <;> rw [e] <;> decide

theorem bits_le_totalWidth : s.bits ≤ s.totalWidth ∧ s.totalWidth < s.bits + 32 := by
  unfold totalWidth
  split <;> omega

theorem runs_onto (hw : s.which = 0) (n : Nat) : s.runs n = n ∧ s.runLength n = s.depth := by
  cases s with
  | onto => exact ⟨rfl, rfl⟩
  | contin => cases hw
  | disc => cases hw

theorem runs_other (hw : s.which ≠ 0) (n : Nat) : s.runs n = 1 ∧ s.runLength n = n * s.depth := by
  cases s with
  | onto => exact absurd rfl hw
  | contin => exact ⟨rfl, rfl⟩
  | disc => exact ⟨rfl, (Nat.mul_one n).symm⟩

theorem endAt_onto (hw : s.which = 0) {base n : Nat} (hn : n ≠ 0) (hd : s.bits ≠ 0) :
    s.endAt base n = base + (n - 1) * s.totalWidth + s.bits := by
  obtain ⟨hr, hl⟩ := s.runs_onto hw n
  have hd' : s.depth ≠ 0 := fun e => hd (by rw [bits, e, Nat.mul_zero])
  rw [endAt, hr, hl, if_neg (by omega), bits, Nat.mul_comm s.width]

theorem endAt_empty (hw : s.which = 0) {base n : Nat} (h : n = 0 ∨ s.bits = 0) :
    s.endAt base n = base := by
  obtain ⟨hr, hl⟩ := s.runs_onto hw n
  have hd : n = 0 ∨ s.depth = 0 := h.imp_right fun h =>
    (Nat.mul_eq_zero.mp h).resolve_left (Nat.pos_iff_ne_zero.mp s.width_pos)
  rw [endAt, hr, hl, if_pos hd]

theorem packEnd_eq {base n : Nat} (h : ¬ s.Partial n) : s.packEnd base n = s.endAt base n := by
  unfold packEnd
  split
  · next hw =>
    by_cases h0 : n = 0 ∨ s.bits = 0
    · rw [s.endAt_empty hw h0]
      rcases h0 with h0 | h0
      · simp [h0]
      · simp [totalWidth, h0]
    · have hdvd : 32 ∣ s.bits := by
        by_contra hd
        exact h ⟨hw, by omega, hd⟩
      have htot : s.totalWidth = s.bits := by
        have := s.bits_le_totalWidth
        have := s.totalWidth_dvd
        omega
      obtain ⟨k, rfl⟩ := Nat.exists_eq_succ_of_ne_zero (fun e => h0 (.inl e))
      rw [s.endAt_onto hw (Nat.succ_ne_zero k) (fun e => h0 (.inr e)), htot, Nat.succ_sub_one,
        Nat.succ_mul, Nat.add_assoc]
  · rfl

/-- The padding of the last variable only fills up the last word. -/
theorem packEnd_words {base n : Nat} (h : s.Partial n) (hb : 32 ∣ base) :
    s.packEnd base n ≠ s.endAt base n ∧
      (s.packEnd base n + 31) / 32 = (s.endAt base n + 31) / 32 := by
  obtain ⟨hw, hn, hd⟩ := h
  have := s.bits_le_totalWidth
  obtain ⟨t, ht⟩ := s.totalWidth_dvd
  obtain ⟨k, rfl⟩ := Nat.exists_eq_succ_of_ne_zero (Nat.pos_iff_ne_zero.mp hn)
  have hk : k * s.totalWidth = 32 * (k * t) := by rw [ht]; ring
  rw [packEnd, if_pos hw, s.endAt_onto hw (Nat.succ_ne_zero k) (by omega), Nat.succ_sub_one,
    Nat.succ_mul, hk]
  omega

end Spec

section GroupMoves
variable {C : Type} (s : Spec C)

/-- Puts of one width that keep to the words. -/
theorem puts_ofBit {w q c : Nat} (h : ∀ f ∈ fieldRun w q c, f.InWord) :
    (Cursor.ofBit q).places (List.replicate c (.put w)) = fieldRun w q c ∧
      (Cursor.ofBit q).after (List.replicate c (.put w)) = .ofBit (q + c * w) := by
  induction c with
  | zero => simp [Cursor.places, Cursor.after, fieldRun]
  | succ c ih =>
    have hrun : fieldRun w q (c + 1) = fieldRun w q c ++ [.at w (q + c * w)] := by
      simp [fieldRun, List.range_succ]
    rw [hrun] at h
    obtain ⟨hp, ha⟩ := ih fun f hf => h f (List.mem_append_left _ hf)
    have hlast : (q + c * w) % 32 + w ≤ 32 :=
      h (.at w (q + c * w)) (List.mem_append_right _ (List.mem_singleton_self _))
    rw [List.replicate_succ', Cursor.places_append, Cursor.after_append, hp, ha, hrun]
    refine ⟨rfl, ?_⟩
    rw [show (Cursor.ofBit (q + c * w)).after [.put w] = (Cursor.ofBit (q + c * w)).advance w from rfl,
      Cursor.advance_ofBit hlast, Nat.succ_mul, Nat.add_assoc]

theorem puts_onto (hw : s.which = 0) {q : Nat} (hq : 32 ∣ q) :
    (Cursor.ofBit q).places s.moves = fieldRun s.width q s.depth ∧
      (Cursor.ofBit q).after s.moves = .ofBit (q + s.totalWidth) := by
  have hin : ∀ f ∈ fieldRun s.width q s.depth, f.InWord :=
    (fieldRun_inWord s q s.depth).mpr (.inr (.inl (Nat.dvd_trans s.width_dvd hq)))
  obtain ⟨hp, ha⟩ := puts_ofBit hin
  have htot := s.bits_le_totalWidth
  have hdvd := s.totalWidth_dvd
  have hbits : s.bits = s.depth * s.width := Nat.mul_comm _ _
  rw [Spec.moves, if_pos hw, Cursor.places_append, Cursor.after_append, hp, ha, ← hbits]
  refine ⟨List.append_nil _, ?_⟩
  rw [show (Cursor.ofBit (q + s.bits)).after [.pad (s.totalWidth - s.bits)] =
      (Cursor.ofBit (q + s.bits)).advance (s.totalWidth - s.bits) from rfl,
    Cursor.advance_ofBit (by omega)]
  congr 1
  omega

/-- A group whose fields lie in the words is written where the layout has it. -/
theorem group_ofBit {q n : Nat} (hq : s.which = 0 → 32 ∣ q)
    (h : ∀ f ∈ s.fields q n, f.InWord) :
    (Cursor.ofBit q).places (groupMoves (s, n)) = s.fields q n ∧
      (Cursor.ofBit q).after (groupMoves (s, n)) = .ofBit (s.packEnd q n) := by
  by_cases hw : s.which = 0
  · clear h
    obtain ⟨hr, hl⟩ := s.runs_onto hw n
    rw [Spec.packEnd, if_pos hw, s.fields_eq, hr, hl]
    induction n with
    | zero => simp [groupMoves, Cursor.places, Cursor.after]
    | succ n ih =>
      obtain ⟨hp, ha⟩ := ih (s.runs_onto hw n).1 (s.runs_onto hw n).2
      have hmul : 32 ∣ q + n * s.totalWidth :=
        Nat.dvd_add (hq hw) (Dvd.dvd.mul_left s.totalWidth_dvd n)
      obtain ⟨hp', ha'⟩ := puts_onto s hw hmul
      have hm : groupMoves (s, n + 1) = groupMoves (s, n) ++ s.moves := by
        simp [groupMoves, List.replicate_succ']
      rw [hm, Cursor.places_append, Cursor.after_append, hp, ha, hp', ha', List.range_succ,
        List.flatMap_append, List.flatMap_singleton, Nat.succ_mul, Nat.add_assoc]
      exact ⟨rfl, rfl⟩
  · obtain ⟨hr, hl⟩ := s.runs_other hw n
    have hm : groupMoves (s, n) = List.replicate (s.runLength n) (.put s.width) := by
      simp only [groupMoves, List.flatMap_replicate, Spec.moves, if_neg hw, List.append_nil, hl,
        List.flatten_replicate_replicate]
    have hf : s.fields q n = fieldRun s.width q (s.runLength n) := by
      rw [s.fields_eq, hr]
      simp
    have he : s.endAt q n = q + s.runLength n * s.width := by
      rw [Spec.endAt, hr]
      by_cases h0 : s.runLength n = 0
      · simp [h0]
      · simp [h0]
    rw [hf] at h ⊢
    rw [hm, Spec.packEnd, if_neg hw, he]
    exact puts_ofBit h

end GroupMoves

/-! ## The whole packing against the layout -/

section Whole
variable {C : Type}

/-- No raw fields at all. -/
def Fieldless (gs : List (Spec C × Nat)) : Prop :=
  ∀ g ∈ gs, g.1.runs g.2 = 0 ∨ g.1.runLength g.2 = 0

/-- After an ontology that takes part of a word only, no field follows. -/
def Whole : List (Spec C × Nat) → Prop
  | [] => True
  | (s, n) :: gs => (s.Partial n → Fieldless gs) ∧ Whole gs

def layoutEnd : Nat → List (Spec C × Nat) → Nat
  | base, [] => base
  | base, (s, n) :: gs => layoutEnd (s.endAt base n) gs

theorem fieldless_cons {s : Spec C} {n : Nat} {gs : List (Spec C × Nat)} :
    Fieldless ((s, n) :: gs) ↔ (s.runs n = 0 ∨ s.runLength n = 0) ∧ Fieldless gs :=
  List.forall_mem_cons

/-- Ontologies come first, at the start of a word. -/
structure OntoFirst (q : Nat) (gs : List (Spec C × Nat)) : Prop where
  sorted : gs.Pairwise fun g h => g.1.which ≤ h.1.which
  start : ∀ g ∈ gs, g.1.which = 0 → 32 ∣ q

theorem OntoFirst.tail {q : Nat} {s : Spec C} {n : Nat} {gs : List (Spec C × Nat)}
    (h : OntoFirst q ((s, n) :: gs)) : OntoFirst (s.packEnd q n) gs := by
  obtain ⟨hle, hs⟩ := List.pairwise_cons.mp h.sorted
  refine ⟨hs, fun g hg hw => ?_⟩
  have hw' : s.which = 0 := by
    have := hle g hg
    simp only at this
    omega
  rw [Spec.packEnd, if_pos hw']
  exact Nat.dvd_add (h.start _ List.mem_cons_self hw') (Dvd.dvd.mul_left s.totalWidth_dvd n)

theorem not_partial_of_fieldless {s : Spec C} {n : Nat} (h : s.runs n = 0 ∨ s.runLength n = 0) :
    ¬ s.Partial n := by
  rintro ⟨hw, hn, hd⟩
  obtain ⟨hr, hl⟩ := s.runs_onto hw n
  rcases h with h | h
  · omega
  · exact hd (by rw [Spec.bits, ← hl, h, Nat.mul_zero]; exact Nat.dvd_zero 32)

theorem whole_of_fieldless {gs : List (Spec C × Nat)} (h : Fieldless gs) : Whole gs := by
  induction gs with
  | nil => trivial
  | cons g gs ih =>
    obtain ⟨-, h₂⟩ := fieldless_cons.mp h
    exact ⟨fun _ => h₂, ih h₂⟩

theorem packEnd_fieldless {s : Spec C} {n q : Nat} (h : s.runs n = 0 ∨ s.runLength n = 0) :
    s.packEnd q n = q := by
  rw [s.packEnd_eq (not_partial_of_fieldless h), Spec.endAt, if_pos h]

theorem layout_fieldless {q : Nat} {gs : List (Spec C × Nat)} (h : Fieldless gs) :
    layout q gs = [] ∧ layoutEnd q gs = q := by
  induction gs with
  | nil => exact ⟨rfl, rfl⟩
  | cons g gs ih =>
    obtain ⟨h₁, h₂⟩ := fieldless_cons.mp h
    have he : g.1.endAt q g.2 = q := by rw [Spec.endAt, if_pos h₁]
    rw [layout, layoutEnd, (fields_eq_nil g.1 q g.2).mpr h₁, he]
    exact ih h₂

theorem moves_fieldless {q : Nat} {gs : List (Spec C × Nat)} (hg : OntoFirst q gs)
    (h : Fieldless gs) : (Cursor.ofBit q).places (gs.flatMap groupMoves) = [] ∧
      (Cursor.ofBit q).after (gs.flatMap groupMoves) = .ofBit q := by
  induction gs with
  | nil => exact ⟨rfl, rfl⟩
  | cons g gs ih =>
    obtain ⟨h₁, h₂⟩ := fieldless_cons.mp h
    have hnil := (fields_eq_nil g.1 q g.2).mpr h₁
    obtain ⟨hp, ha⟩ := group_ofBit g.1 (q := q) (n := g.2) (hg.start _ List.mem_cons_self)
      (by rw [hnil]; simp)
    have htail := hg.tail
    rw [packEnd_fieldless h₁] at ha htail
    rw [List.flatMap_cons, Cursor.places_append, Cursor.after_append, hp, ha, hnil]
    exact ih htail h₂

/-- Both start with their first field, each where it begins. -/
theorem layout_head {q : Nat} {gs : List (Spec C × Nat)} (h : ¬ Fieldless gs) :
    ∃ f fs, layout q gs = f :: fs ∧ f.offset = q := by
  induction gs with
  | nil => exact absurd (fun g hg => nomatch hg) h
  | cons g gs ih =>
    by_cases h₁ : g.1.runs g.2 = 0 ∨ g.1.runLength g.2 = 0
    · have he : g.1.endAt q g.2 = q := by rw [Spec.endAt, if_pos h₁]
      rw [layout, (fields_eq_nil g.1 q g.2).mpr h₁, he]
      exact ih fun h₂ => h (fieldless_cons.mpr ⟨h₁, h₂⟩)
    · obtain ⟨r, hr⟩ := Nat.exists_eq_succ_of_ne_zero (fun e => h₁ (.inl e))
      obtain ⟨c, hc⟩ := Nat.exists_eq_succ_of_ne_zero (fun e => h₁ (.inr e))
      rw [layout, g.1.fields_eq, hr, hc]
      simp only [List.range_succ_eq_map, List.flatMap_cons, fieldRun, List.map_cons,
        List.cons_append, List.cons.injEq]
      exact ⟨_, _, ⟨rfl, rfl⟩, by simp⟩

theorem moves_head {q : Nat} {gs : List (Spec C × Nat)} (hg : OntoFirst q gs)
    (h : ¬ Fieldless gs) :
    ∃ f fs, (Cursor.ofBit q).places (gs.flatMap groupMoves) = f :: fs ∧ f.offset = q := by
  induction gs with
  | nil => exact absurd (fun g hg => nomatch hg) h
  | cons g gs ih =>
    by_cases h₁ : g.1.runs g.2 = 0 ∨ g.1.runLength g.2 = 0
    · have hone : OntoFirst q [g] := ⟨List.pairwise_singleton _ _, fun g' hg' =>
        List.mem_singleton.mp hg' ▸ hg.start g List.mem_cons_self⟩
      obtain ⟨hp, ha⟩ := moves_fieldless hone
        (fieldless_cons.mpr ⟨h₁, fun g hg => nomatch hg⟩)
      have htail := hg.tail
      rw [packEnd_fieldless h₁] at htail
      rw [← List.singleton_append, List.flatMap_append, Cursor.places_append, hp, ha]
      exact ih htail fun h₂ => h (fieldless_cons.mpr ⟨h₁, h₂⟩)
    · obtain ⟨k, d, hk, hd⟩ : ∃ k d, g.2 = k + 1 ∧ g.1.depth = d + 1 := by
        by_cases hw : g.1.which = 0
        · obtain ⟨hr, hl⟩ := g.1.runs_onto hw g.2
          exact ⟨g.2 - 1, g.1.depth - 1, by omega, by omega⟩
        · obtain ⟨hr, hl⟩ := g.1.runs_other hw g.2
          have hne : g.2 ≠ 0 ∧ g.1.depth ≠ 0 := Nat.mul_ne_zero_iff.mp (by omega)
          exact ⟨g.2 - 1, g.1.depth - 1, by omega, by omega⟩
      rw [List.flatMap_cons, groupMoves, hk, List.replicate_succ, List.flatMap_cons, Spec.moves, hd,
        List.replicate_succ]
      refine ⟨⟨g.1.width, q / 32, q % 32⟩, _, rfl, ?_⟩
      simp only [Field.offset]
      omega

/-- Where the fields lie in the words, packing writes them iff no field follows an
ontology that takes part of a word only. -/
theorem places_eq_layout {q : Nat} {gs : List (Spec C × Nat)} (hg : OntoFirst q gs)
    (hin : ∀ f ∈ layout q gs, f.InWord) :
    (Cursor.ofBit q).places (gs.flatMap groupMoves) = layout q gs ↔ Whole gs := by
  induction gs generalizing q with
  | nil => exact ⟨fun _ => trivial, fun _ => rfl⟩
  | cons g gs ih =>
    obtain ⟨s, n⟩ := g
    have hin' := List.forall_mem_append.mp hin
    obtain ⟨hp, ha⟩ := group_ofBit s (hg.start _ List.mem_cons_self) hin'.1
    rw [List.flatMap_cons, Cursor.places_append, hp, ha, layout, List.append_cancel_left_eq, Whole]
    by_cases hpart : s.Partial n
    · have hne := (s.packEnd_words hpart (hg.start _ List.mem_cons_self hpart.1)).1
      have hnil : (Cursor.ofBit (s.packEnd q n)).places (gs.flatMap groupMoves) =
          layout (s.endAt q n) gs ↔ Fieldless gs := by
        constructor
        · intro he
          by_contra hf
          obtain ⟨f, fs, hf₁, ho₁⟩ := moves_head hg.tail hf
          obtain ⟨f', fs', hf₂, ho₂⟩ := layout_head (q := s.endAt q n) hf
          rw [hf₁, hf₂, List.cons.injEq] at he
          exact hne (by rw [← ho₁, ← ho₂, he.1])
        · intro hf
          rw [(moves_fieldless hg.tail hf).1, (layout_fieldless hf).1]
      rw [hnil]
      constructor
      · exact fun hf => ⟨fun _ => hf, whole_of_fieldless hf⟩
      · exact fun h => h.1 hpart
    · have htail := hg.tail
      rw [s.packEnd_eq hpart] at htail ⊢
      rw [ih htail hin'.2]
      exact ⟨fun h => ⟨fun hp => absurd hp hpart, h⟩, fun h => h.2⟩

/-- Padding at the end takes no further word. -/
theorem after_words {q : Nat} {gs : List (Spec C × Nat)} (hg : OntoFirst q gs)
    (hin : ∀ f ∈ layout q gs, f.InWord) (hw : Whole gs) :
    ∃ e, (Cursor.ofBit q).after (gs.flatMap groupMoves) = .ofBit e ∧
      (e + 31) / 32 = (layoutEnd q gs + 31) / 32 := by
  induction gs generalizing q with
  | nil => exact ⟨q, rfl, rfl⟩
  | cons g gs ih =>
    obtain ⟨s, n⟩ := g
    have hin' := List.forall_mem_append.mp hin
    obtain ⟨-, ha⟩ := group_ofBit s (hg.start _ List.mem_cons_self) hin'.1
    rw [List.flatMap_cons, Cursor.after_append, ha, layoutEnd]
    by_cases hpart : s.Partial n
    · have hf := hw.1 hpart
      refine ⟨_, (moves_fieldless hg.tail hf).2, ?_⟩
      rw [(layout_fieldless hf).2]
      exact (s.packEnd_words hpart (hg.start _ List.mem_cons_self hpart.1)).2
    · have htail := hg.tail
      rw [s.packEnd_eq hpart] at htail ⊢
      exact ih htail hin'.2 hw.2

theorem layoutEnd_eq (fields : List Field) (gs : List (Spec C × Nat)) :
    backOffset (fields ++ layout (backOffset fields) gs) = layoutEnd (backOffset fields) gs := by
  induction gs generalizing fields with
  | nil => rw [layout, layoutEnd, List.append_nil]
  | cons g gs ih =>
    have := ih (fields ++ g.1.fields (backOffset fields) g.2)
    rw [backOffset_fields] at this
    rw [layout, layoutEnd, ← List.append_assoc, this]

theorem fields_widths (s : Spec C) (base n : Nat) :
    (s.fields base n).map Field.width = List.replicate (n * s.depth) s.width := by
  have hrun : ∀ b c, (fieldRun s.width b c).map Field.width = List.replicate c s.width := by
    intro b c
    simp [fieldRun, Function.comp_def, List.map_const']
  have hcount : s.runs n * s.runLength n = n * s.depth := by
    by_cases hw : s.which = 0
    · rw [(s.runs_onto hw n).1, (s.runs_onto hw n).2]
    · rw [(s.runs_other hw n).1, (s.runs_other hw n).2, Nat.one_mul]
  rw [s.fields_eq, List.map_flatMap, ← hcount]
  simp only [hrun, List.flatMap, List.map_const', List.length_range,
    List.flatten_replicate_replicate]

theorem places_widths (c : Cursor) (s : Spec C) (n : Nat) :
    (c.places (groupMoves (s, n))).map Field.width = List.replicate (n * s.depth) s.width := by
  have hputs : ∀ (c : Cursor) (d : Nat),
      (c.places (List.replicate d (.put s.width))).map Field.width = List.replicate d s.width := by
    intro c d
    induction d generalizing c with
    | zero => rfl
    | succ d ih => exact congrArg (s.width :: ·) (ih _)
  have hvar : ∀ c : Cursor, (c.places s.moves).map Field.width =
      List.replicate s.depth s.width := by
    intro c
    rw [Spec.moves, Cursor.places_append, List.map_append, hputs]
    split
    · exact List.append_nil _
    · exact List.append_nil _
  induction n generalizing c with
  | zero => simp [groupMoves, Cursor.places]
  | succ n ih =>
    have hm : groupMoves (s, n + 1) = s.moves ++ groupMoves (s, n) := by
      simp [groupMoves, List.replicate_succ]
    rw [hm, Cursor.places_append, List.map_append, hvar, ih, Nat.succ_mul, Nat.add_comm,
      List.replicate_add]

/-- As many fields of each width, wherever they start. -/
theorem places_layout_width (c : Cursor) (base : Nat) (gs : List (Spec C × Nat)) :
    (c.places (gs.flatMap groupMoves)).map Field.width = (layout base gs).map Field.width := by
  induction gs generalizing c base with
  | nil => rfl
  | cons g gs ih =>
    rw [List.flatMap_cons, Cursor.places_append, List.map_append, places_widths,
      ih _ (g.1.endAt base g.2), layout, List.map_append, fields_widths]

end Whole

/-! ## Specs in order -/

section Order
variable {C : Type}

theorem build_specs {gs : List (Spec C × Nat)} {fs fs' : FieldSet C}
    (h : gs.foldlM FieldSet.buildSpec fs = some fs') : fs'.specs = fs.specs ++ gs := by
  induction gs generalizing fs with
  | nil =>
    obtain rfl := Option.some.inj h
    exact (List.append_nil _).symm
  | cons g gs ih =>
    rw [List.foldlM_cons] at h
    obtain ⟨fs₁, h₁, hrest⟩ := Option.bind_eq_some_iff.mp h
    unfold FieldSet.buildSpec at h₁
    split at h₁
    · obtain rfl := Option.some.inj h₁
      rw [ih hrest, List.append_assoc, List.singleton_append]
    · cases h₁

/-- The three vectors, one after the other, are the specs in the order of the map. -/
theorem kinds_eq {gs : List (Spec C × Nat)} (h : gs.Pairwise fun g g' => g.1.which ≤ g'.1.which) :
    (gs.filter fun g => g.1.which = 0) ++ (gs.filter fun g => g.1.which = 1) ++
      (gs.filter fun g => g.1.which = 2) = gs := by
  induction gs with
  | nil => rfl
  | cons g gs ih =>
    obtain ⟨hg, hgs⟩ := List.pairwise_cons.mp h
    have hnone : ∀ k < g.1.which, (gs.filter fun g => g.1.which = k) = [] := by
      intro k hk
      rw [List.filter_eq_nil_iff]
      intro g' hg'
      have := hg g' hg'
      simp only [decide_eq_true_eq]
      omega
    have ih := ih hgs
    have hkind : g.1.which = 0 ∨ g.1.which = 1 ∨ g.1.which = 2 := by
      cases g.1 <;> simp [Spec.which]
    simp only [List.filter_cons]
    rcases hkind with hk | hk | hk
    · simpa [hk] using ih
    · rw [hnone 0 (by omega)] at ih ⊢
      simpa [hk] using ih
    · rw [hnone 0 (by omega), hnone 1 (by omega)] at ih ⊢
      simpa [hk] using ih

variable [LT C] [DecidableLT C] [DecidableEq C]

theorem which_le_of_less {s t : Spec C} (h : s.less t = true) : s.which ≤ t.which := by
  cases s <;> cases t <;> simp_all [Spec.less, Spec.which]

theorem mem_countSpec {s : Spec C} {m : List (Spec C × Nat)} {g : Spec C × Nat}
    (h : g ∈ countSpec s m) : g.1 = s ∨ ∃ g' ∈ m, g'.1 = g.1 := by
  induction m with
  | nil =>
    rw [List.mem_singleton.mp h]
    exact .inl rfl
  | cons a m ih =>
    simp only [countSpec] at h
    split at h
    · rcases List.mem_cons.mp h with rfl | h
      · exact .inl rfl
      · exact .inr ⟨g, h, rfl⟩
    · split at h
      · rcases List.mem_cons.mp h with rfl | h
        · exact .inr ⟨_, List.mem_cons_self, rfl⟩
        · exact (ih h).imp_right fun ⟨g', hg', e⟩ => ⟨g', List.mem_cons_of_mem _ hg', e⟩
      · rcases List.mem_cons.mp h with rfl | h
        · exact .inr ⟨_, List.mem_cons_self, rfl⟩
        · exact .inr ⟨g, List.mem_cons_of_mem _ h, rfl⟩

/-- The map stays sorted by whatever the order of its keys does not lower. -/
theorem countSpec_sorted {f : Spec C → Nat} (hf : ∀ s t : Spec C, s.less t = true → f s ≤ f t)
    {s : Spec C} {m : List (Spec C × Nat)} (h : m.Pairwise fun g g' => f g.1 ≤ f g'.1) :
    (countSpec s m).Pairwise fun g g' => f g.1 ≤ f g'.1 := by
  induction m with
  | nil => exact List.pairwise_singleton _ _
  | cons a m ih =>
    obtain ⟨ha, hm⟩ := List.pairwise_cons.mp h
    simp only [countSpec]
    split
    · next hl =>
      refine List.pairwise_cons.mpr ⟨fun g hg => ?_, h⟩
      rcases List.mem_cons.mp hg with rfl | hg
      · exact hf _ _ hl
      · exact Nat.le_trans (hf _ _ hl) (ha g hg)
    · split
      · next hl =>
        refine List.pairwise_cons.mpr ⟨fun g hg => ?_, ih hm⟩
        rcases mem_countSpec hg with e | ⟨g', hg', e⟩
        · rw [e]
          exact hf _ _ hl
        · rw [← e]
          exact ha g' hg'
      · exact List.pairwise_cons.mpr ⟨ha, hm⟩

theorem specCounts_sortedBy {f : Spec C → Nat} (hf : ∀ s t : Spec C, s.less t = true → f s ≤ f t)
    (specs : List (Spec C)) : (specCounts specs).Pairwise fun g g' => f g.1 ≤ f g'.1 := by
  suffices ∀ m : List (Spec C × Nat), (m.Pairwise fun g g' => f g.1 ≤ f g'.1) →
      ((specs.foldl (fun m s => countSpec s m) m).Pairwise fun g g' => f g.1 ≤ f g'.1) from
    this [] .nil
  induction specs with
  | nil => exact fun m h => h
  | cons s specs ih => exact fun m h => ih _ (countSpec_sorted hf h)

theorem specCounts_sorted (specs : List (Spec C)) :
    (specCounts specs).Pairwise fun g g' => g.1.which ≤ g'.1.which :=
  specCounts_sortedBy (fun _ _ => which_le_of_less) specs

theorem moves_eq {specs : List (Spec C)} {fs : FieldSet C} (h : FieldSet.ofSpecs specs = some fs) :
    fs.moves = (specCounts specs).flatMap groupMoves := by
  have hs : fs.specs = specCounts specs := build_specs h
  rw [FieldSet.moves, ← List.flatMap_append, ← List.flatMap_append]
  simp only [FieldSet.ofKind, hs]
  rw [kinds_eq (specCounts_sorted specs)]

end Order

/-! ## The round trip -/

namespace FieldSet

variable {C : Type} {fs : FieldSet C}

/-- What is packed is read back from the words written, one for each of the layout. -/
def Packs (fs : FieldSet C) : Prop :=
  ∀ values : List Nat, List.Forall₂ (fun f v => v < 2 ^ f.width) fs.fields values →
    ∃ words, fs.pack values = some (fs.packedWidth, words) ∧
      ∀ i < fs.rawSize, fs.getRaw ((List.range fs.packedWidth).map words) i = values[i]?

theorem packedWidth_eq (hpos : ∀ f ∈ fs.fields, 0 < f.width) (hin : ∀ f ∈ fs.fields, f.InWord) :
    fs.packedWidth = (backOffset fs.fields + 31) / 32 := by
  unfold packedWidth backOffset
  cases hl : fs.fields.getLast? with
  | none => rfl
  | some f =>
    have hf := List.mem_of_getLast? hl
    have := hpos f hf
    have := hin f hf
    simp only [Field.InWord] at *
    omega

theorem getRaw_words {words : Nat → Word} {n i : Nat} {f : Field} (hf : fs.fields[i]? = some f)
    (hn : f.majorOffset < n) (hw : f.width < 32) :
    fs.getRaw ((List.range n).map words) i =
      some (BitField.get (words f.majorOffset) f.minorOffset f.width).toNat :=
  getRaw_eq hf (by simp [hn]) hw

/-- Fields that share no bit are read back from what was written to them. -/
theorem get_wrote {words : Nat → Word} {values : List Nat}
    (hb : fs.fields.Pairwise Field.Before) (hw : Wrote (fun _ => 0) words fs.fields values)
    (hv : List.Forall₂ (fun f v => v < 2 ^ f.width) fs.fields values)
    {i : Nat} {f : Field} {v : Nat} (hf : fs.fields[i]? = some f) (hfv : values[i]? = some v)
    (hin : f.InWord) (hlt : f.width < 32) :
    (BitField.get (words f.majorOffset) f.minorOffset f.width).toNat = v := by
  have hbound : ∀ {j : Nat} {g : Field} {u k : Nat}, fs.fields[j]? = some g → values[j]? = some u →
      u.testBit k = true → k < g.width := by
    intro j g u k hg hu hk
    by_contra hle
    have hlt : u < 2 ^ g.width := by
      obtain ⟨hj, rfl⟩ := List.getElem?_eq_some_iff.mp hg
      obtain ⟨hj', rfl⟩ := List.getElem?_eq_some_iff.mp hu
      exact (List.forall₂_iff_get.mp hv).2 j hj hj'
    rw [Nat.testBit_lt_two_pow
      (lt_of_lt_of_le hlt (Nat.pow_le_pow_right (by decide) (by omega)))] at hk
    cases hk
  apply Nat.eq_of_testBit_eq
  intro k
  rw [BitVec.testBit_toNat, BitField.getLsbD_get hlt]
  by_cases hk : k < f.width
  · simp only [hk, decide_true, Bool.true_and]
    simp only [Field.InWord] at hin
    rw [Bool.eq_iff_iff, hw _ _ (by omega)]
    constructor
    · rintro (h0 | ⟨j, g, u, hg, hu, hmaj, hmin, hbit⟩)
      · simp at h0
      · have hwid := hbound hg hu hbit
        by_cases hij : i = j
        · subst hij
          obtain rfl := Option.some.inj (hf.symm.trans hg)
          obtain rfl := Option.some.inj (hfv.symm.trans hu)
          rwa [Nat.add_sub_cancel_left] at hbit
        · have hdis := disjoint_of_before hb hij hf hg
          simp only [Field.Before, Field.offset] at hdis
          omega
    · intro hbit
      refine .inr ⟨i, f, v, hf, hfv, rfl, Nat.le_add_right _ _, ?_⟩
      rwa [Nat.add_sub_cancel_left]
  · simp only [hk, decide_false, Bool.false_and]
    by_contra hbit
    exact hk (hbound hf hfv (Bool.not_eq_false _ ▸ Ne.symm hbit))

/-- One bit of one value is written where the layout reads it. -/
theorem place_of_packs (h : fs.Packs) {i b : Nat} {f : Field} (hf : fs.fields[i]? = some f)
    (hb : b < f.width) : f.width < 32 ∧ f.minorOffset + b < 32 ∧
      ∃ g, (Cursor.places ⟨0, 0⟩ fs.moves)[i]? = some g ∧ g.majorOffset = f.majorOffset ∧
        g.minorOffset = f.minorOffset := by
  obtain ⟨hi, rfl⟩ := List.getElem?_eq_some_iff.mp hf
  -- all values are zero but for one bit of this one
  let values := fs.fields.mapIdx fun j _ => if j = i then 2 ^ b else 0
  have hvalue : ∀ {j : Nat} {u : Nat}, values[j]? = some u → u = if j = i then 2 ^ b else 0 := by
    intro j u hu
    rw [List.getElem?_mapIdx] at hu
    obtain ⟨_, -, rfl⟩ := Option.map_eq_some_iff.mp hu
    rfl
  have hlen : values.length = fs.fields.length := List.length_mapIdx
  have hv : List.Forall₂ (fun f v => v < 2 ^ f.width) fs.fields values := by
    refine List.forall₂_iff_get.mpr ⟨hlen.symm, fun j hj hj' => ?_⟩
    rw [List.get_eq_getElem, hvalue (List.getElem?_eq_getElem hj')]
    split
    · next e =>
      subst e
      exact Nat.pow_lt_pow_right (by decide) hb
    · exact Nat.two_pow_pos _
  obtain ⟨words, hpack, hraw⟩ := h values hv
  obtain ⟨p, hrun, hp⟩ := Option.map_eq_some_iff.mp hpack
  obtain ⟨-, rfl⟩ := Prod.mk.inj hp
  have hwrote := (run_wrote hrun).2
  have hread : fs.getRaw ((List.range fs.packedWidth).map p.words) i = some (2 ^ b) := by
    rw [hraw i hi, List.getElem?_eq_getElem (hlen ▸ hi)]
    simp [values]
  rw [getRaw, List.getElem?_eq_getElem hi, Option.bind_some] at hread
  obtain ⟨x, hx, hget⟩ := Option.bind_eq_some_iff.mp hread
  rw [List.getElem?_map] at hx
  obtain ⟨m, hm, rfl⟩ := Option.map_eq_some_iff.mp hx
  obtain rfl : fs.fields[i].majorOffset = m := by
    obtain ⟨hlt, e⟩ := List.getElem?_eq_some_iff.mp hm
    rwa [List.getElem_range] at e
  split at hget
  · next hlt =>
    have hbit := congrArg (fun n => n.testBit b) (Option.some.inj hget)
    simp only [BitVec.testBit_toNat, BitField.getLsbD_get hlt, hb, decide_true, Bool.true_and,
      Nat.testBit_two_pow_self] at hbit
    have hend := BitVec.lt_of_getLsbD hbit
    rcases (hwrote _ _ hend).mp hbit with h0 | ⟨j, g, u, hg, hu, hmaj, hmin, hset⟩
    · simp at h0
    · obtain rfl := hvalue hu
      by_cases hji : j = i
      · subst hji
        rw [if_pos rfl, Nat.testBit_two_pow, decide_eq_true_eq] at hset
        exact ⟨hlt, hend, g, hg, hmaj, by omega⟩
      · simp [hji] at hset
  · cases hget

section Main
variable [LT C] [DecidableLT C] [DecidableEq C] {specs : List (Spec C)}

theorem ontoFirst_specCounts (specs : List (Spec C)) : OntoFirst 0 (specCounts specs) :=
  ⟨specCounts_sorted specs, fun _ _ _ => Nat.dvd_zero 32⟩

theorem packs_of_whole (h : ofSpecs specs = some fs) (ha : Aligned 0 (specCounts specs))
    (hw : Whole (specCounts specs)) : fs.Packs := by
  have hg := ontoFirst_specCounts specs
  have hfields := ofSpecs_fields h
  have hin := (aligned_iff _ _).mp ha
  have hplaces : Cursor.places ⟨0, 0⟩ fs.moves = fs.fields := by
    rw [moves_eq h, hfields]
    exact (places_eq_layout hg fun f hf => (hin f hf).1).mpr hw
  have hb : fs.fields.Pairwise Field.Before := hfields ▸ layout_before _ _
  have hpos : ∀ f ∈ fs.fields, 0 < f.width := fun f hf => layout_width (hfields ▸ hf)
  rw [← hfields] at hin
  intro values hv
  obtain ⟨p, hp⟩ := run_defined fs.moves (p := ⟨⟨0, 0⟩, values, fun _ => 0⟩)
    (by rw [hplaces]; exact hv.length_eq.le)
    (by
      rw [hplaces]
      intro f hf
      have := hpos f hf
      have := (hin f hf).1
      simp only [Field.InWord] at this
      omega)
  obtain ⟨hcursor, hwrote⟩ := run_wrote hp
  rw [hplaces] at hwrote
  refine ⟨p.words, ?_, fun i hi => ?_⟩
  · obtain ⟨e, hend, he⟩ := after_words hg (hfields ▸ fun f hf => (hin f hf).1) hw
    have hback : layoutEnd 0 (specCounts specs) = backOffset fs.fields := by
      rw [hfields]
      exact (layoutEnd_eq [] _).symm
    have hcur : p.cursor = .ofBit e := by
      rw [hcursor, ← hend, ← moves_eq h]
      rfl
    rw [pack, hp, Option.map_some, hcur, packedWidth_eq hpos fun f hf => (hin f hf).1, ← hback, ← he]
    rw [Cursor.words_ofBit]
  · obtain ⟨f, hf⟩ : ∃ f, fs.fields[i]? = some f := ⟨_, List.getElem?_eq_getElem hi⟩
    have hmem := List.mem_of_getElem? hf
    have hi' : i < values.length := hv.length_eq ▸ hi
    obtain ⟨v, hfv⟩ : ∃ v, values[i]? = some v := ⟨_, List.getElem?_eq_getElem hi'⟩
    rw [getRaw_words hf (majorOffset_lt hb (successive_of_ofSpecs h).minor hmem) (hin f hmem).2,
      get_wrote hb hwrote hv hf hfv (hin f hmem).1 (hin f hmem).2, hfv]

theorem whole_of_packs (h : ofSpecs specs = some fs) (hp : fs.Packs) :
    Aligned 0 (specCounts specs) ∧ Whole (specCounts specs) := by
  have hg := ontoFirst_specCounts specs
  have hfields := ofSpecs_fields h
  have hpos : ∀ f ∈ fs.fields, 0 < f.width := fun f hf => layout_width (hfields ▸ hf)
  have hin : ∀ f ∈ fs.fields, f.InWord ∧ f.width < 32 := by
    intro f hf
    obtain ⟨i, hi⟩ := List.mem_iff_getElem?.mp hf
    obtain ⟨hlt, hend, -⟩ := place_of_packs hp hi (Nat.sub_lt (hpos f hf) Nat.one_pos)
    have := hpos f hf
    simp only [Field.InWord]
    omega
  have hplaces : Cursor.places ⟨0, 0⟩ fs.moves = fs.fields := by
    have hwidth : (Cursor.places ⟨0, 0⟩ fs.moves).map Field.width = fs.fields.map Field.width := by
      rw [moves_eq h, hfields]
      exact places_layout_width _ _ _
    have hlen : (Cursor.places ⟨0, 0⟩ fs.moves).length = fs.fields.length := by
      simpa using congrArg List.length hwidth
    refine List.ext_getElem hlen fun i hi hi' => ?_
    obtain ⟨-, -, g, hgi, hmaj, hmin⟩ := place_of_packs hp (List.getElem?_eq_getElem hi')
      (hpos _ (List.getElem_mem hi'))
    obtain ⟨_, rfl⟩ := List.getElem?_eq_some_iff.mp hgi
    have hw : (Cursor.places ⟨0, 0⟩ fs.moves)[i].width = fs.fields[i].width := by
      have := congrArg (fun l => l[i]?) hwidth
      simpa [hi, hi'] using this
    exact Field.ext hw hmaj hmin
  rw [hfields] at hin
  refine ⟨(aligned_iff _ _).mpr hin, ?_⟩
  rw [moves_eq h, hfields] at hplaces
  exact (places_eq_layout hg fun f hf => (hin f hf).1).mp hplaces

/-- What is packed is read back iff every spec fits where it starts and nothing follows
an ontology that takes part of a word only. -/
theorem packs_iff_whole (h : ofSpecs specs = some fs) :
    fs.Packs ↔ Aligned 0 (specCounts specs) ∧ Whole (specCounts specs) :=
  ⟨whole_of_packs h, fun ⟨ha, hw⟩ => packs_of_whole h ha hw⟩

end Main

/-- A continuous variable of one word, and a discrete one. -/
theorem packs_contin_disc :
    ∃ fs, ofSpecs ([.disc 2, .contin 0 1 1 16] : List (Spec Nat)) = some fs ∧ fs.Packs := by
  obtain ⟨fs, h⟩ : ∃ fs, ofSpecs ([.disc 2, .contin 0 1 1 16] : List (Spec Nat)) = some fs :=
    ⟨_, rfl⟩
  refine ⟨fs, h, (packs_iff_whole h).mpr ⟨⟨?_, ?_, trivial⟩, ?_, ?_, trivial⟩⟩
  · exact .inr (.inr ⟨by decide, by decide⟩)
  · exact .inr (.inr ⟨by decide, by decide⟩)
  · exact fun hp => absurd hp.1 (by decide)
  · exact fun hp => absurd hp.1 (by decide)

/-- The bit after an ontology of four bits is packed into the second word; the layout
has it in the first, the only one. -/
theorem bit_packed_past_layout :
    Spec.SizeRestricted ([.onto 2 3, .disc 2] : List (Spec Nat)) ∧
    ∃ fs, ofSpecs ([.onto 2 3, .disc 2] : List (Spec Nat)) = some fs ∧ fs.packedWidth = 1 ∧
      (fs.pack [0, 0, 1]).map Prod.fst = some 2 ∧ ¬ fs.Packs := by
  have hpack : ((⟨[⟨2, 0, 0⟩, ⟨2, 0, 2⟩, ⟨1, 0, 4⟩], [(.onto 2 3, 1), (.disc 2, 1)]⟩ :
      FieldSet Nat).pack [0, 0, 1]).map Prod.fst = some 2 := by decide +kernel
  refine ⟨by decide, ⟨[⟨2, 0, 0⟩, ⟨2, 0, 2⟩, ⟨1, 0, 4⟩], [(.onto 2 3, 1), (.disc 2, 1)]⟩, rfl, rfl,
    hpack, fun h => ?_⟩
  obtain ⟨words, hpack', -⟩ := h [0, 0, 1]
    (.cons (by decide) (.cons (by decide) (.cons (by decide) .nil)))
  have hwords : 2 = 1 := Option.some.inj
    (hpack.symm.trans (congrArg (Option.map Prod.fst) hpack'))
  cases hwords

end FieldSet

end OpenCog.Moses
