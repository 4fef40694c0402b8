import OpenCog.Comboreduct.ResultSoundness

/-! What is evaluated at the same instant as a condition may be replaced by the value that the
condition has then. -/
namespace OpenCog.Comboreduct

open Util Outcomes

variable {A P X W E : Type} {M : World A P X W E} {p : W → Prop}

/-- Two meanings that cannot be told apart where `p` holds. -/
inductive Meaning.AgreeWhere (p : W → Prop) : Meaning W E → Meaning W E → Prop
  | same (m : Meaning W E) : AgreeWhere p m m
  | action {a b : Program W} (h : ∀ w, p w → a w = b w) : AgreeWhere p (.action a) (.action b)
  | condition {h k : W → Bool} (e : ∀ w, p w → h w = k w) : AgreeWhere p (.condition h) (.condition k)

open Meaning (AgreeWhere)

/-- So it is for the first of several meanings, or for all of them. -/
inductive Meaning.AgreeFrom (p : W → Prop) : Bool → List (Meaning W E) → List (Meaning W E) → Prop
  | nil {all : Bool} : AgreeFrom p all [] []
  | first {m m' : Meaning W E} (h : AgreeWhere p m' m) (ms : List (Meaning W E)) :
      AgreeFrom p false (m' :: ms) (m :: ms)
  | all {m m' : Meaning W E} {ms ms' : List (Meaning W E)} (h : AgreeWhere p m' m) (hs : AgreeFrom p true ms' ms) :
      AgreeFrom p true (m' :: ms') (m :: ms)

open Meaning (AgreeFrom)

theorem Meaning.AgreeFrom.refl (all : Bool) (ms : List (Meaning W E)) : AgreeFrom p all ms ms := by
  cases all with
  | false =>
    cases ms with
    | nil => exact .nil
    | cons m ms => exact .first (.same m) ms
  | true =>
    induction ms with
    | nil => exact .nil
    | cons m ms ih => exact .all (.same m) ih

theorem Meaning.AgreeWhere.of_action {m' : Meaning W E} {a : Program W} (h : AgreeWhere p m' (.action a)) :
    ∃ a', m' = .action a' ∧ ∀ w, p w → a' w = a w := by
  cases h with
  | same => exact ⟨a, rfl, fun _ _ => rfl⟩
  | action h => exact ⟨_, rfl, h⟩

theorem Meaning.AgreeWhere.of_condition {m' : Meaning W E} {k : W → Bool} (h : AgreeWhere p m' (.condition k)) :
    ∃ k', m' = .condition k' ∧ ∀ w, p w → k' w = k w := by
  cases h with
  | same => exact ⟨k, rfl, fun _ _ => rfl⟩
  | condition h => exact ⟨_, rfl, h⟩

/-- A sequence whose first action is another one that does the same where `p` holds. -/
theorem Meaning.AgreeFrom.sequence (seq : List (Program W) → Program W) {ms ms' : List (Meaning W E)}
    (hseq : ∀ a a' as w, a' w = a w → seq (a' :: as) w = seq (a :: as) w)
    (h : AgreeFrom p false ms' ms) (ht : ∀ m ∈ ms, m.IsAction) :
    (∀ m ∈ ms', m.IsAction) ∧
      AgreeWhere p (.action (seq (ms'.map Meaning.runs)) : Meaning W E)
        (.action (seq (ms.map Meaning.runs))) := by
  cases h with
  | nil => exact ⟨ht, .same _⟩
  | first h ms =>
    obtain ⟨⟨a, rfl⟩, hms⟩ := List.forall_mem_cons.mp ht
    obtain ⟨a', rfl, ha⟩ := h.of_action
    exact ⟨List.forall_mem_cons.mpr ⟨⟨a', rfl⟩, hms⟩, .action fun w hw => hseq _ _ _ w (ha w hw)⟩

/-! ## Substitution -/

/-- What the substitution leaves agrees with what was there wherever the condition has the value
that is put in its place. -/
structure Substituted (M : World A P X W E) (p : W → Prop) (all : Bool)
    (f f' : Forest (ActionVertex A P X)) : Prop where
  agree : AgreeFrom p all ((actionLanguage M).meanings f') ((actionLanguage M).meanings f)
  typed : (actionLanguage M).Typed f'
  lowers : Lowers actionWeight f' f

section Nodes
variable {v v' : ActionVertex A P X} {c c' n n' f : Forest (ActionVertex A P X)} {all : Bool}

theorem Substituted.refl (all : Bool) (hf : (actionLanguage M).Typed f) :
    Substituted M p all f f := ⟨.refl _ _, hf, .refl f⟩

/-- A node and what is beside it. -/
theorem Substituted.cons (hnode : Substituted M p false (.cons v c .nil) (.cons v' c' .nil))
    (hn : Substituted M p true n n') (hall : all = false → n' = n) :
    Substituted M p all (.cons v c n) (.cons v' c' n') := by
  have hagree : AgreeWhere p ((actionLanguage M).meaning v' c') ((actionLanguage M).meaning v c) := by
    cases hnode.agree with
    | first h _ => exact h
  obtain ⟨ht, hc, -⟩ := hnode.typed
  refine ⟨?_, ⟨ht, hc, hn.typed⟩, hnode.lowers.node.trans hn.lowers.next⟩
  cases all with
  | false =>
    obtain rfl := hall rfl
    exact .first hagree _
  | true => exact .all hagree hn.agree

/-- A node that is gone through. -/
theorem Substituted.node (hc : Substituted M p all c c')
    (hv : v.Takes ((actionLanguage M).meanings c))
    (hnode : ∀ ms ms', AgreeFrom p all ms' ms → v.Takes ms →
      v.Takes ms' ∧ AgreeWhere p (v.meaning M ms') (v.meaning M ms)) :
    Substituted M p false (.cons v c .nil) (.cons v c' .nil) := by
  obtain ⟨htakes, hagree⟩ := hnode _ _ hc.agree hv
  exact ⟨.first hagree _, ⟨htakes, hc.typed, trivial⟩, hc.lowers.below actionWeight_pos⟩

theorem actionBooleanIf_agrees (ms ms' : List (Meaning W E)) (h : AgreeFrom p true ms' ms)
    (ht : (Vertex.other .actionBooleanIf : ActionVertex A P X).Takes ms) :
    (Vertex.other .actionBooleanIf : ActionVertex A P X).Takes ms' ∧
      AgreeWhere p ((Vertex.other .actionBooleanIf : ActionVertex A P X).meaning M ms')
        ((Vertex.other .actionBooleanIf : ActionVertex A P X).meaning M ms) := by
  obtain ⟨k, a, b, rfl⟩ := ht
  cases h with
  | all hk h =>
    cases h with
    | all ha h =>
      cases h with
      | all hb h =>
        cases h
        obtain ⟨k', rfl, hk'⟩ := hk.of_condition
        obtain ⟨a', rfl, ha'⟩ := ha.of_action
        obtain ⟨b', rfl, hb'⟩ := hb.of_action
        refine ⟨⟨k', a', b', rfl⟩, .action fun w hw => ?_⟩
        funext r w'
        show (if k' w = true then a' else b') w r w' = (if k w = true then a else b) w r w'
        rw [hk' w hw]
        split_ifs
        · rw [ha' w hw]
        · rw [hb' w hw]

theorem actionActionIf_agrees (ms ms' : List (Meaning W E)) (h : AgreeFrom p false ms' ms)
    (ht : (Vertex.other .actionActionIf : ActionVertex A P X).Takes ms) :
    (Vertex.other .actionActionIf : ActionVertex A P X).Takes ms' ∧
      AgreeWhere p ((Vertex.other .actionActionIf : ActionVertex A P X).meaning M ms')
        ((Vertex.other .actionActionIf : ActionVertex A P X).meaning M ms) := by
  obtain ⟨q, a, b, rfl⟩ := ht
  cases h with
  | first hq _ =>
    obtain ⟨q', rfl, hq'⟩ := hq.of_action
    exact ⟨⟨q', a, b, rfl⟩, .action fun w hw => branch_congr_at (hq' w hw) _ _⟩

end Nodes

variable [DecidableEq A] [DecidableEq P] [DecidableEq X] {cond : Subtree (ActionOp A P X)}
  {sub v v' : ActionVertex A P X} {c c' n n' f : Forest (ActionVertex A P X)} {all : Bool}

theorem substituteCond_cons
    (hnode : substituteCond cond sub false (.cons v c .nil) = some (.cons v' c' .nil))
    (hnext : (if all = true then substituteCond cond sub true n else some n) = some n') :
    substituteCond cond sub all (.cons v c n) = some (.cons v' c' n') := by
  obtain ⟨t, hat, heq⟩ := Option.bind_eq_some_iff.mp hnode
  refine Option.bind_eq_some_iff.mpr ⟨t, hat, ?_⟩
  cases heq
  rw [hnext]
  rfl

section Cond
variable (hweight : actionWeight sub = 1) (htakes : sub.Takes ([] : List (Meaning W E)))
  (hcond : AgreeWhere p (sub.meaning M []) ((actionLanguage M).meaning cond.root cond.children))
include hweight htakes hcond

theorem substituteCond_node (hv : v.Takes ((actionLanguage M).meanings c))
    (hc : (actionLanguage M).Typed c)
    (ih : ∀ all, ∃ c', substituteCond cond sub all c = some c' ∧ Substituted M p all c c') :
    ∃ v' c', substituteCond cond sub false (.cons v c .nil) = some (.cons v' c' .nil) ∧
      Substituted M p false (.cons v c .nil) (.cons v' c' .nil) := by
  have hself : Substituted M p false (.cons v c .nil) (.cons v c .nil) :=
    .refl false ⟨hv, hc, trivial⟩
  have hlength : ∀ {x y z : Meaning W E}, (actionLanguage M).meanings c = [x, y, z] →
      (siblings c).length = 3 := by
    intro x y z h
    rw [meanings_eq_map] at h
    simpa using congrArg List.length h
  cases v with
  | other s =>
    cases s with
    | perception q =>
      by_cases heq : (⟨.other (.perception q), c⟩ : Subtree _) = cond
      · subst heq
        refine ⟨sub, .nil, by simp [substituteCond], .first hcond _, ⟨htakes, trivial, trivial⟩, .inr ?_⟩
        have hperception : actionWeight (.other (.perception q) : ActionVertex A P X) = 2 := rfl
        simp only [Less, leafCount, weight, hweight, hperception]
        omega
      · exact ⟨_, _, by simp [substituteCond, heq], hself⟩
    | sequentialAnd =>
      obtain ⟨c', hc', hs⟩ := ih false
      refine ⟨_, c', by simp [substituteCond, hc'], hs.node hv fun ms ms' h ht => ?_⟩
      exact AgreeFrom.sequence andSeq (fun _ _ _ _ h => branch_congr_at h _ _) h ht
    | sequentialOr =>
      obtain ⟨c', hc', hs⟩ := ih false
      refine ⟨_, c', by simp [substituteCond, hc'], hs.node hv fun ms ms' h ht => ?_⟩
      exact AgreeFrom.sequence orSeq (fun _ _ _ _ h => branch_congr_at h _ _) h ht
    | sequentialExec =>
      obtain ⟨c', hc', hs⟩ := ih false
      refine ⟨_, c', by simp [substituteCond, hc'], hs.node hv fun ms ms' h ht => ?_⟩
      exact AgreeFrom.sequence execSeq (fun _ _ _ _ h => branch_congr_at h _ _) h ht
    | actionBooleanIf =>
      obtain ⟨c', hc', hs⟩ := ih true
      obtain ⟨k, a, b, hms⟩ := id hv
      exact ⟨_, c', by simp [substituteCond, hlength hms, hc'], hs.node hv actionBooleanIf_agrees⟩
    | actionActionIf =>
      obtain ⟨c', hc', hs⟩ := ih false
      obtain ⟨k, a, b, hms⟩ := id hv
      exact ⟨_, c', by simp [substituteCond, hlength hms, hc'], hs.node hv actionActionIf_agrees⟩
    | _ => exact ⟨_, _, rfl, hself⟩
  | _ => exact ⟨_, _, rfl, hself⟩

/-- The substitution has a result, which agrees with the tree. -/
theorem substituteCond_keeps (all : Bool) (hf : (actionLanguage M).Typed f) :
    ∃ f', substituteCond cond sub all f = some f' ∧ Substituted M p all f f' := by
  induction f generalizing all with
  | nil => exact ⟨.nil, rfl, .refl all trivial⟩
  | cons v c n ihc ihn =>
    obtain ⟨hv, hc, hn⟩ := hf
    obtain ⟨v', c', hnode, hs⟩ :=
      substituteCond_node hweight htakes hcond hv hc fun all => ihc all hc
    cases all with
    | false =>
      exact ⟨.cons v' c' n, substituteCond_cons hnode rfl, hs.cons (.refl true hn) fun _ => rfl⟩
    | true =>
      obtain ⟨n', hn', hsn⟩ := ihn true hn
      exact ⟨.cons v' c' n', substituteCond_cons hnode hn', hs.cons hsn fun h => by cases h⟩

end Cond

/-! ## The rules -/

omit [DecidableEq A] [DecidableEq P] [DecidableEq X] in
theorem Lowers.append {w : ActionVertex A P X → Nat} {g f' g' : Forest (ActionVertex A P X)}
    (hf : Lowers w f' f) (hg : Lowers w g' g) : Lowers w (f'.append g') (f.append g) := by
  rcases hf with rfl | hf
  · rcases hg with rfl | hg
    · exact .refl _
    · right
      simp only [Less, leafCount_append, weight_append] at hg ⊢
      omega
  · right
    rcases hg with rfl | hg
    · simp only [Less, leafCount_append, weight_append] at hf ⊢
      omega
    · simp only [Less, leafCount_append, weight_append] at hf hg ⊢
      omega

variable (M) in
/-- Where the condition has a value, it may be replaced by it. -/
theorem substituteCond_action (cond : Subtree (ActionOp A P X)) (sub : ActionVertex A P X) (r : Bool)
    {h : W → Bool} {a : Program W} {b : ActionVertex A P X}
    (hweight : actionWeight sub = 1) (hsub : sub.meaning M [] = .condition fun _ => r)
    (htakes : sub.Takes ([] : List (Meaning W E)))
    (hcond : (actionLanguage M).meaning cond.root cond.children = .condition h)
    (hb : (actionLanguage M).meaning b c = .action a)
    (ht : b.Takes ((actionLanguage M).meanings c)) (hc : (actionLanguage M).Typed c) :
    ∃ f' a', substituteCond cond sub false (.cons b c .nil) = some f' ∧
      (actionLanguage M).meanings f' = [.action a'] ∧ (∀ w, h w = r → a' w = a w) ∧
      (actionLanguage M).Typed f' ∧ Lowers actionWeight f' (.cons b c .nil) := by
  have hagree : Meaning.AgreeWhere (fun w => h w = r) (sub.meaning M [])
      ((actionLanguage M).meaning cond.root cond.children) := by
    rw [hsub, hcond]
    exact .condition fun w hw => hw.symm
  obtain ⟨f', hf', hs⟩ := substituteCond_keeps hweight htakes hagree false
    (f := .cons b c .nil) ⟨ht, hc, trivial⟩
  have hfirst := hs.agree
  rw [meanings_cons, hb] at hfirst
  cases hms : (actionLanguage M).meanings f' with
  | nil =>
    rw [hms] at hfirst
    cases hfirst
  | cons m' ms =>
    rw [hms] at hfirst
    cases hfirst with
    | first hm _ =>
      obtain ⟨a', rfl, ha⟩ := hm.of_action
      exact ⟨f', a', hf', hms, ha, hs.typed, hs.lowers⟩

theorem sound_reduceActionBooleanIfSubCond :
    (actionLanguage M).Sound actionWeight
      (reduceActionBooleanIfSubCond (A := A) (P := P) (X := X)) := by
  intro v c ht hc
  by_cases hv : v = .other .actionBooleanIf
  · subst hv
    obtain ⟨h, a, b, hms⟩ := id ht
    obtain ⟨cond, cc, b1, c1, b2, c2, rfl, hcond, hb1, hb2⟩ := meanings_eq_three hms
    obtain ⟨htc, hcc, ht1, hc1, ht2, hc2, -⟩ := id hc
    obtain ⟨f1, a', hf1, hms1, ha, htf1, hlow1⟩ := substituteCond_action M ⟨cond, cc⟩ .logicalTrue true
      rfl rfl trivial hcond hb1 ht1 hc1
    obtain ⟨f2, b', hf2, hms2, hb, htf2, hlow2⟩ := substituteCond_action M ⟨cond, cc⟩ .logicalFalse false
      rfl rfl trivial hcond hb2 ht2 hc2
    have hnew : (actionLanguage M).meanings (.cons cond cc (f1.append f2)) =
        [.condition h, .action a', .action b'] := by
      rw [meanings_cons, hcond, Language.meanings_append, hms1, hms2]
      rfl
    refine ⟨.other .actionBooleanIf, .cons cond cc (f1.append f2), ?_, ?_, ?_, ⟨h, a', b', hnew⟩, htc, hcc,
      Language.typed_append htf1 htf2⟩
    · simp only [reduceActionBooleanIfSubCond, hf1, hf2, Option.bind_eq_bind, Option.bind_some]
    · exact (hlow1.append hlow2).next.below actionWeight_pos
    · rw [meaning_of hnew, meaning_of hms]
      exact congrArg Meaning.action (test_congr ha hb)
  · refine ⟨v, c, ?_, .refl ht hc⟩
    unfold reduceActionBooleanIfSubCond
    split <;> simp_all

theorem sound_reduceBooleanWhileSubCond :
    (actionLanguage M).Sound actionWeight
      (reduceBooleanWhileSubCond (A := A) (P := P) (X := X)) := by
  intro v c ht hc
  by_cases hv : v = .other .booleanWhile
  · subst hv
    obtain ⟨h, a, hms⟩ := id ht
    obtain ⟨cond, cc, b, d, rfl, hcond, hb⟩ := meanings_eq_two hms
    obtain ⟨htc, hcc, htb, hd, -⟩ := id hc
    obtain ⟨f, a', hf, hmsf, ha, htf, hlow⟩ := substituteCond_action M ⟨cond, cc⟩ .logicalTrue true
      rfl rfl trivial hcond hb htb hd
    have hnew : (actionLanguage M).meanings (.cons cond cc f) = [.condition h, .action a'] := by
      rw [meanings_cons, hcond, hmsf]
    refine ⟨.other .booleanWhile, .cons cond cc f, ?_, hlow.next.below actionWeight_pos, ?_, ⟨h, a', hnew⟩, htc, hcc, htf⟩
    · simp only [reduceBooleanWhileSubCond, hf, Option.bind_eq_bind, Option.bind_some]
    · rw [meaning_of hnew, meaning_of hms]
      exact congrArg Meaning.action (whileLoop_congr ha)
  · refine ⟨v, c, ?_, .refl ht hc⟩
    unfold reduceBooleanWhileSubCond
    split <;> simp_all

end OpenCog.Comboreduct
