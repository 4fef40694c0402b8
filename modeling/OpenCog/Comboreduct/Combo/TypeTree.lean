/-! The types of combo programs and `inherit_type_tree`. -/
namespace OpenCog.Comboreduct.Combo

/-- The type nodes without children, but for the two special ones. `argument n` is the input
`#(n + 1)`. -/
inductive Elementary where
  | boolean
  | contin
  | actionResult
  | definiteObject
  | actionDefiniteObject
  | indefiniteObject
  | message
  | actionSymbol
  | wildCard
  | ann
  | argument (n : Nat)
  deriving DecidableEq

/-- A lambda has its output, and an `arg_list` the one type of its elements. -/
inductive TypeTree where
  | lambda (inputs : List TypeTree) (output : TypeTree)
  | application (children : List TypeTree)
  | union (types : List TypeTree)
  | argList (type : TypeTree)
  | elementary (n : Elementary)
  | unknown
  | illFormed

namespace TypeTree

def isUnknown : TypeTree → Bool
  | unknown => true
  | _ => false

def isUnion : TypeTree → Bool
  | union _ => true
  | _ => false

def inheritTypeTree : TypeTree → TypeTree → Bool
  -- all types of the union inherit, or one of them is inherited from
  | union ts, t => ts.attach.all fun s => inheritTypeTree s.1 t
  | t, union ts => ts.attach.any fun s => inheritTypeTree t s.1
  | lambda is₁ o₁, lambda is₂ o₂ =>
    is₁.length = is₂.length &&
      (is₁.zip is₂).attach.all
        (fun p => inheritTypeTree p.1.2 p.1.1 || p.1.2.isUnknown) &&
      inheritTypeTree o₁ o₂
  | application _, _ => false
  | argList t₁, argList t₂ => inheritTypeTree t₁ t₂
  | illFormed, _ => false
  | _, illFormed => false
  | _, unknown => true
  | elementary n₁, elementary n₂ => n₁ = n₂
  | _, _ => false
termination_by t₁ t₂ => sizeOf t₁ + sizeOf t₂
decreasing_by
  · have := List.sizeOf_lt_of_mem s.2
    simp only [union.sizeOf_spec]
    omega
  · have := List.sizeOf_lt_of_mem s.2
    simp only [union.sizeOf_spec]
    omega
  · obtain ⟨⟨a, b⟩, h⟩ := p
    have ha := List.sizeOf_lt_of_mem (List.of_mem_zip h).1
    have hb := List.sizeOf_lt_of_mem (List.of_mem_zip h).2
    simp only [lambda.sizeOf_spec]
    omega
  · simp only [lambda.sizeOf_spec]
    omega
  · simp only [argList.sizeOf_spec]
    omega

variable {a b c t : TypeTree} {ts is is₁ is₂ : List TypeTree} {o o₁ o₂ : TypeTree}

theorem union_inherits :
    inheritTypeTree (union ts) t = true ↔ ∀ s ∈ ts, inheritTypeTree s t = true := by
  rw [inheritTypeTree]
  simp only [List.all_eq_true, List.mem_attach, forall_const, Subtype.forall]

theorem inherits_union (ha : a.isUnion = false) :
    inheritTypeTree a (union ts) = true ↔ ∃ s ∈ ts, inheritTypeTree a s = true := by
  rw [inheritTypeTree]
  · simp only [List.any_eq_true, List.mem_attach, true_and, Subtype.exists, exists_prop]
  · rintro ts rfl
    cases ha

theorem lambda_inherits :
    inheritTypeTree (lambda is₁ o₁) (lambda is₂ o₂) = true ↔
      is₁.length = is₂.length ∧
      (∀ (k : Nat) (s₁ s₂ : TypeTree), is₁[k]? = some s₁ → is₂[k]? = some s₂ →
        inheritTypeTree s₂ s₁ = true ∨ s₂.isUnknown = true) ∧
      inheritTypeTree o₁ o₂ = true := by
  rw [inheritTypeTree]
  simp only [Bool.and_eq_true, decide_eq_true_eq, List.all_eq_true, List.mem_attach, forall_const,
    Subtype.forall, Bool.or_eq_true, and_assoc]
  refine and_congr_right fun _ => and_congr_left fun _ => ⟨fun h k s₁ s₂ h₁ h₂ => ?_, ?_⟩
  · exact h (s₁, s₂) (List.mem_of_getElem? (List.getElem?_zip_eq_some.mpr ⟨h₁, h₂⟩))
  · rintro h ⟨s₁, s₂⟩ hp
    obtain ⟨k, hk⟩ := List.mem_iff_getElem?.mp hp
    obtain ⟨h₁, h₂⟩ := List.getElem?_zip_eq_some.mp hk
    exact h k s₁ s₂ h₁ h₂

theorem argList_inherits :
    inheritTypeTree (argList a) (argList b) = inheritTypeTree a b := by
  rw [inheritTypeTree]

/-- No application, unknown or ill-formed node, and no empty union. -/
inductive Plain : TypeTree → Prop
  | lambda {is : List TypeTree} {o : TypeTree} :
      (∀ i ∈ is, Plain i) → Plain o → Plain (lambda is o)
  | union {ts : List TypeTree} : ts ≠ [] → (∀ t ∈ ts, Plain t) → Plain (union ts)
  | argList {t : TypeTree} : Plain t → Plain (argList t)
  | elementary (n : Elementary) : Plain (elementary n)

theorem Plain.of_mem_union (h : Plain (TypeTree.union ts)) (ht : t ∈ ts) : Plain t := by
  cases h with
  | union _ hts => exact hts t ht

theorem Plain.isUnknown (h : Plain t) : t.isUnknown = false := by
  cases h <;> rfl

/-! ## Shapes below each other -/

theorem lambda_inherits_shape (h : inheritTypeTree (lambda is o) b = true) (hb : Plain b)
    (hu : b.isUnion = false) : ∃ is' o', b = lambda is' o' := by
  cases hb with
  | lambda _ _ => exact ⟨_, _, rfl⟩
  | union _ _ => cases hu
  | argList _ => simp [inheritTypeTree] at h
  | elementary n => simp [inheritTypeTree] at h

theorem argList_inherits_shape (h : inheritTypeTree (argList t) b = true) (hb : Plain b)
    (hu : b.isUnion = false) : ∃ t', b = argList t' := by
  cases hb with
  | lambda _ _ => simp [inheritTypeTree] at h
  | union _ _ => cases hu
  | argList _ => exact ⟨_, rfl⟩
  | elementary n => simp [inheritTypeTree] at h

theorem elementary_inherits_shape {n : Elementary}
    (h : inheritTypeTree (elementary n) b = true) (hb : Plain b) (hu : b.isUnion = false) :
    b = elementary n := by
  cases hb with
  | lambda _ _ => simp [inheritTypeTree] at h
  | union _ _ => cases hu
  | argList _ => simp [inheritTypeTree] at h
  | elementary m =>
    simp only [inheritTypeTree, decide_eq_true_eq] at h
    rw [h]

theorem inherits_union_of_mem (ha : Plain a) (ht : t ∈ ts) (h : inheritTypeTree a t = true) :
    inheritTypeTree a (union ts) = true := by
  induction ha with
  | union _ _ ih =>
    rw [union_inherits] at h ⊢
    exact fun u hu => ih u hu (h u hu)
  | _ => exact (inherits_union rfl).mpr ⟨t, ht, h⟩

/-! ## The preorder -/

theorem inherits_refl (ha : Plain a) : inheritTypeTree a a = true := by
  induction ha with
  | lambda _ _ ihi iho =>
    refine lambda_inherits.mpr ⟨rfl, fun k s₁ s₂ h₁ h₂ => .inl ?_, iho⟩
    obtain rfl := Option.some.inj (h₁.symm.trans h₂)
    exact ihi s₁ (List.mem_of_getElem? h₁)
  | union _ hts ih =>
    exact union_inherits.mpr fun t ht => inherits_union_of_mem (hts t ht) ht (ih t ht)
  | argList _ ih => exact argList_inherits.trans ih
  | elementary n => simp [inheritTypeTree]

/-- Transitivity for types that are small together. -/
def TransUpTo (n : Nat) : Prop :=
  ∀ a b c, sizeOf a + sizeOf b + sizeOf c ≤ n → Plain a → Plain b → Plain c →
    inheritTypeTree a b = true → inheritTypeTree b c = true → inheritTypeTree a c = true

theorem TransUpTo.lambda {n : Nat} {is₃ : List TypeTree} {o₃ : TypeTree} (ih : TransUpTo n)
    (hsize : sizeOf (lambda is₁ o₁) + sizeOf (lambda is₂ o₂) + sizeOf (lambda is₃ o₃) ≤ n + 1)
    (h₁ : Plain (.lambda is₁ o₁)) (h₂ : Plain (.lambda is₂ o₂)) (h₃ : Plain (.lambda is₃ o₃))
    (h₁₂ : inheritTypeTree (.lambda is₁ o₁) (.lambda is₂ o₂) = true)
    (h₂₃ : inheritTypeTree (.lambda is₂ o₂) (.lambda is₃ o₃) = true) :
    inheritTypeTree (.lambda is₁ o₁) (.lambda is₃ o₃) = true := by
  simp only [lambda.sizeOf_spec] at hsize
  cases h₁ with | lambda hi₁ ho₁ =>
  cases h₂ with | lambda hi₂ ho₂ =>
  cases h₃ with | lambda hi₃ ho₃ =>
  obtain ⟨hlen₁₂, hin₁₂, hout₁₂⟩ := lambda_inherits.mp h₁₂
  obtain ⟨hlen₂₃, hin₂₃, hout₂₃⟩ := lambda_inherits.mp h₂₃
  refine lambda_inherits.mpr ⟨hlen₁₂.trans hlen₂₃, fun k s₁ s₃ hs₁ hs₃ => .inl ?_,
    ih _ _ _ (by omega) ho₁ ho₂ ho₃ hout₁₂ hout₂₃⟩
  -- the inputs go the other way
  obtain ⟨hk, -⟩ := List.getElem?_eq_some_iff.mp hs₁
  have hs₂ : is₂[k]? = some (is₂[k]) := List.getElem?_eq_getElem _
  have hm₁ := List.mem_of_getElem? hs₁
  have hm₂ := List.mem_of_getElem? hs₂
  have hm₃ := List.mem_of_getElem? hs₃
  have hsize₁ := List.sizeOf_lt_of_mem hm₁
  have hsize₂ := List.sizeOf_lt_of_mem hm₂
  have hsize₃ := List.sizeOf_lt_of_mem hm₃
  have h₂₁ := (hin₁₂ k _ _ hs₁ hs₂).resolve_right (by simp [(hi₂ _ hm₂).isUnknown])
  have h₃₂ := (hin₂₃ k _ _ hs₂ hs₃).resolve_right (by simp [(hi₃ _ hm₃).isUnknown])
  exact ih _ _ _ (by omega) (hi₃ _ hm₃) (hi₂ _ hm₂) (hi₁ _ hm₁) h₃₂ h₂₁

theorem sizeOf_pos (a : TypeTree) : 0 < sizeOf a := by
  cases a <;> simp only [sizeOf, _sizeOf_1] <;> omega

theorem trans_up_to (n : Nat) : TransUpTo n := by
  induction n with
  | zero =>
    intro a b c hsize
    have := sizeOf_pos a
    omega
  | succ n ih =>
    intro a b c hsize ha hb hc hab hbc
    by_cases hua : a.isUnion = true
    · cases ha with
      | union _ hts =>
        refine union_inherits.mpr fun t ht => ?_
        have hlt := List.sizeOf_lt_of_mem ht
        simp only [union.sizeOf_spec] at hsize
        exact ih t b c (by omega) (hts t ht) hb hc (union_inherits.mp hab t ht) hbc
      | _ => cases hua
    rw [Bool.not_eq_true] at hua
    by_cases hub : b.isUnion = true
    · cases hb with
      | union _ hts =>
        obtain ⟨t, ht, hat⟩ := (inherits_union hua).mp hab
        have hlt := List.sizeOf_lt_of_mem ht
        simp only [union.sizeOf_spec] at hsize
        exact ih a t c (by omega) ha (hts t ht) hc hat (union_inherits.mp hbc t ht)
      | _ => cases hub
    rw [Bool.not_eq_true] at hub
    by_cases huc : c.isUnion = true
    · cases hc with
      | union _ hts =>
        obtain ⟨t, ht, hbt⟩ := (inherits_union hub).mp hbc
        have hlt := List.sizeOf_lt_of_mem ht
        simp only [union.sizeOf_spec] at hsize
        exact inherits_union_of_mem ha ht (ih a b t (by omega) ha hb (hts t ht) hab hbt)
      | _ => cases huc
    rw [Bool.not_eq_true] at huc
    cases ha with
    | lambda his ho =>
      obtain ⟨is', o', rfl⟩ := lambda_inherits_shape hab hb hub
      obtain ⟨is'', o'', rfl⟩ := lambda_inherits_shape hbc hc huc
      exact ih.lambda hsize (.lambda his ho) hb hc hab hbc
    | union _ _ => cases hua
    | argList ht =>
      obtain ⟨t', rfl⟩ := argList_inherits_shape hab hb hub
      obtain ⟨t'', rfl⟩ := argList_inherits_shape hbc hc huc
      rw [argList_inherits] at hab hbc ⊢
      cases hb with | argList hb =>
      cases hc with | argList hc =>
      simp only [argList.sizeOf_spec] at hsize
      exact ih _ _ _ (by omega) ht hb hc hab hbc
    | elementary n =>
      obtain rfl := elementary_inherits_shape hab hb hub
      exact hbc

theorem inherits_trans (ha : Plain a) (hb : Plain b) (hc : Plain c)
    (hab : inheritTypeTree a b = true) (hbc : inheritTypeTree b c = true) :
    inheritTypeTree a c = true :=
  trans_up_to _ a b c (Nat.le_refl _) ha hb hc hab hbc

/-- `inherit_type_tree` is a preorder on the plain types. -/
theorem inherits_preorder :
    (∀ a, Plain a → inheritTypeTree a a = true) ∧
    (∀ a b c, Plain a → Plain b → Plain c → inheritTypeTree a b = true →
      inheritTypeTree b c = true → inheritTypeTree a c = true) :=
  ⟨fun _ ha => inherits_refl ha, fun _ _ _ ha hb hc hab hbc => inherits_trans ha hb hc hab hbc⟩

/-- A function of booleans or numbers into booleans is one of booleans into either. -/
theorem inherits_preorder_functions :
    inheritTypeTree
      (lambda [union [elementary .boolean, elementary .contin]] (elementary .boolean))
      (lambda [elementary .boolean] (union [elementary .boolean, elementary .contin])) = true :=
  have hunion : Plain (union [elementary .boolean, elementary .contin]) :=
    .union (by simp) (by simp [Plain.elementary])
  inherits_preorder.2 _ (lambda [elementary .boolean] (elementary .boolean)) _
    (.lambda (by simpa using hunion) (.elementary _))
    (.lambda (by simp [Plain.elementary]) (.elementary _))
    (.lambda (by simp [Plain.elementary]) hunion)
    (by simp [inheritTypeTree]) (by simp [inheritTypeTree])

end TypeTree

end OpenCog.Comboreduct.Combo
