import OpenCog.Comboreduct.ActionSoundness

/-! The rules for sequences: flattening, and erasing children that do nothing or are not reached. -/
namespace OpenCog.Comboreduct

open Util Outcomes

variable {A P X W E : Type} {M : World A P X W E}

/-! ## Children as a list -/

section Siblings
variable {f f' : Forest (ActionVertex A P X)}

theorem meanings_eq_map (f : Forest (ActionVertex A P X)) :
    (actionLanguage M).meanings f =
      (siblings f).map fun t => (actionLanguage M).meaning t.root t.children := by
  induction f with
  | nil => rfl
  | cons v c n _ ihn => rw [meanings_cons, siblings, List.map_cons, ihn]

theorem typed_iff : (actionLanguage M).Typed f ↔ ∀ t ∈ siblings f,
    t.root.Takes ((actionLanguage M).meanings t.children) ∧
      (actionLanguage M).Typed t.children := by
  induction f with
  | nil => simp [Language.Typed, siblings]
  | cons v c n _ ihn =>
    rw [Language.Typed, ihn, siblings, List.forall_mem_cons, and_assoc]
    rfl

@[simp] theorem ofSiblings_siblings {α : Type} (f : Forest (Vertex α)) :
    ofSiblings (siblings f) = f := by
  induction f with
  | nil => rfl
  | cons v c n _ ihn => rw [siblings, ofSiblings, ihn]

/-- Some of the children, in their order. -/
theorem lowers_sublist {α : Type} {w : Vertex α → Nat} (hw : ∀ v, 0 < w v)
    {f f' : Forest (Vertex α)} (h : (siblings f').Sublist (siblings f)) : Lowers w f' f := by
  induction f generalizing f' with
  | nil =>
    have hnil := List.sublist_nil.mp h
    rw [← ofSiblings_siblings f', hnil]
    exact .refl _
  | cons v c n _ ihn =>
    rw [siblings] at h
    cases hs : siblings f' with
    | nil =>
      rw [← ofSiblings_siblings f', hs]
      refine .inr ?_
      have := hw v
      simp only [ofSiblings, Less, leafCount, weight]
      omega
    | cons t ts =>
      rw [hs] at h
      rcases List.sublist_cons_iff.mp h with h | ⟨r, hr, h⟩
      · rw [← hs] at h
        exact (ihn h).trans (.inr (less_next hw))
      · obtain ⟨rfl, rfl⟩ := List.cons.inj hr
        rw [← ofSiblings_siblings f', hs, ofSiblings]
        have hts : Lowers w (ofSiblings ts) n := ihn (by rwa [siblings_ofSiblings])
        exact hts.next

/-- The actions that some of the children of a sequence are. -/
theorem typed_sublist {c c' : Forest (ActionVertex A P X)}
    (ht : ∀ m ∈ (actionLanguage M).meanings c, m.IsAction) (hc : (actionLanguage M).Typed c)
    (hsub : (siblings c').Sublist (siblings c)) :
    (∀ m ∈ (actionLanguage M).meanings c', m.IsAction) ∧ (actionLanguage M).Typed c' := by
  refine ⟨fun m hm => ht m ?_, typed_iff.mpr fun t h => typed_iff.mp hc t (hsub.subset h)⟩
  rw [meanings_eq_map] at hm ⊢
  exact (hsub.map _).subset hm

/-- A sequence that some children are erased from, without a change to what it means. -/
theorem keeps_sublist {v : ActionVertex A P X} {c c' : Forest (ActionVertex A P X)}
    (hv : ∀ ms : List (Meaning W E), v.Takes ms ↔ ∀ m ∈ ms, m.IsAction)
    (ht : v.Takes ((actionLanguage M).meanings c)) (hc : (actionLanguage M).Typed c)
    (hsub : (siblings c').Sublist (siblings c))
    (hsame : (actionLanguage M).meaning v c' = (actionLanguage M).meaning v c) :
    (actionLanguage M).Keeps actionWeight v c v c' := by
  obtain ⟨ht', hc'⟩ := typed_sublist ((hv _).mp ht) hc hsub
  exact ⟨(lowers_sublist actionWeight_pos hsub).below actionWeight_pos, hsame, (hv _).mpr ht', hc'⟩

end Siblings

/-! ## Longer sequences -/

/-- The node may take over what a child with its operator has below it. -/
def Flattens (M : World A P X W E) (v : ActionVertex A P X) : Prop :=
  ∀ ls ms ns : List (Meaning W E),
    v.meaning M (ls ++ v.meaning M ms :: ns) = v.meaning M (ls ++ ms ++ ns) ∧
    (v.Takes (ls ++ v.meaning M ms :: ns) → v.Takes ms → v.Takes (ls ++ ms ++ ns))

theorem forall_mem_flatten {D : Type} {p : D → Prop} {ls ms ns : List D} {d : D}
    (h : ∀ m ∈ ls ++ d :: ns, p m) (hms : ∀ m ∈ ms, p m) : ∀ m ∈ ls ++ ms ++ ns, p m := by
  simp only [List.mem_append, List.mem_cons] at h ⊢
  rintro m ((hm | hm) | hm)
  · exact h m (.inl hm)
  · exact hms m hm
  · exact h m (.inr (.inr hm))

theorem isAssociative_flattens {alwaysSucceeds : A → Bool} {associative : X → Bool}
    (hM : M.Lawful alwaysSucceeds associative) {v : ActionVertex A P X}
    (hv : isAssociative (isAssociativeOp associative) v = true) : Flattens M v := by
  intro ls ms ns
  cases v with
  | logicalAnd =>
    refine ⟨congrArg Meaning.condition (funext fun w => ?_), forall_mem_flatten⟩
    simp [Vertex.meaning, Meaning.holds, List.all_append]
  | logicalOr =>
    refine ⟨congrArg Meaning.condition (funext fun w => ?_), forall_mem_flatten⟩
    simp [Vertex.meaning, Meaning.holds, List.any_append]
  | logicalTrue => cases hv
  | logicalFalse => cases hv
  | argument a => cases hv
  | other s =>
    cases s with
    | sequentialAnd =>
      refine ⟨congrArg Meaning.action ?_, forall_mem_flatten⟩
      simp only [List.map_append, List.map_cons, andSeq_append, andSeq_cons, branch_branch,
        branch_done_false, Vertex.meaning, ActionOp.meaning, Meaning.runs]
    | sequentialOr =>
      refine ⟨congrArg Meaning.action ?_, forall_mem_flatten⟩
      simp only [List.map_append, List.map_cons, orSeq_append, orSeq_cons, branch_branch,
        branch_done_true, Vertex.meaning, ActionOp.meaning, Meaning.runs]
    | sequentialExec =>
      refine ⟨congrArg Meaning.action ?_, forall_mem_flatten⟩
      simp only [List.map_append, List.map_cons, execSeq_append, execSeq_cons, branch_branch,
        Vertex.meaning, ActionOp.meaning, Meaning.runs]
    | other x => exact ⟨hM.flatten x hv ls ms ns, fun _ _ => trivial⟩
    | _ => cases hv

variable [DecidableEq A] [DecidableEq P] [DecidableEq X]

theorem levelChildren_lowers_of {w : ActionVertex A P X → Nat} (hw : ∀ v, 0 < w v)
    (v : ActionVertex A P X) (c : Forest (ActionVertex A P X)) :
    Lowers w (levelChildren v c) c := by
  fun_induction levelChildren v c with
  | case1 => exact .refl _
  | case2 c n ih =>
    refine ih.trans (.inr ?_)
    have := hw v
    simp only [Less, leafCount, weight, leafCount_append, weight_append]
    omega
  | case3 u c n hne ih => exact ih.next

/-- `ls` is what the children before mean. -/
theorem levelChildren_meanings {v : ActionVertex A P X} (hv : Flattens M v)
    (c : Forest (ActionVertex A P X)) (ls : List (Meaning W E))
    (ht : v.Takes (ls ++ (actionLanguage M).meanings c)) (hc : (actionLanguage M).Typed c) :
    v.meaning M (ls ++ (actionLanguage M).meanings (levelChildren v c)) =
        v.meaning M (ls ++ (actionLanguage M).meanings c) ∧
      v.Takes (ls ++ (actionLanguage M).meanings (levelChildren v c)) ∧
      (actionLanguage M).Typed (levelChildren v c) := by
  fun_induction levelChildren v c generalizing ls with
  | case1 => exact ⟨rfl, ht, hc⟩
  | case2 c n ih =>
    obtain ⟨hvc, hcc, hn⟩ := hc
    obtain ⟨hflat, htakes⟩ := hv ls ((actionLanguage M).meanings c) ((actionLanguage M).meanings n)
    have happend : ls ++ (actionLanguage M).meanings (c.append n) =
        ls ++ (actionLanguage M).meanings c ++ (actionLanguage M).meanings n := by
      rw [Language.meanings_append, List.append_assoc]
    obtain ⟨hsame, hrest⟩ := ih ls (by rw [happend]; exact htakes ht hvc)
      (Language.typed_append hcc hn)
    refine ⟨?_, hrest⟩
    rw [hsame, happend, ← hflat]
    rfl
  | case3 u c n hne ih =>
    obtain ⟨hu, hcc, hn⟩ := hc
    have hcons : ∀ f, ls ++ (actionLanguage M).meanings (.cons u c f) =
        (ls ++ [(actionLanguage M).meaning u c]) ++ (actionLanguage M).meanings f :=
      fun f => List.append_cons _ _ _
    rw [hcons] at ht
    obtain ⟨hsame, htakes, htyped⟩ := ih _ ht hn
    rw [hcons, hcons]
    exact ⟨hsame, htakes, hu, hcc, htyped⟩

theorem sound_level {alwaysSucceeds : A → Bool} {associative : X → Bool}
    (hM : M.Lawful alwaysSucceeds associative) :
    (actionLanguage M).Sound actionWeight
      (level (isAssociativeOp (P := P) associative)) := by
  intro v c ht hc
  refine ⟨v, _, rfl, ?_⟩
  split
  · rename_i hv
    obtain ⟨hsame, htakes, htyped⟩ :=
      levelChildren_meanings (isAssociative_flattens hM hv) c [] ht hc
    exact ⟨(levelChildren_lowers_of actionWeight_pos v c).below actionWeight_pos, hsame, htakes,
      htyped⟩
  · exact .refl ht hc

/-! ## Constants -/

end OpenCog.Comboreduct
