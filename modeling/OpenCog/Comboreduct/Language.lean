import OpenCog.Comboreduct.Lowering

/-! Rules that keep what a tree means, where a node means something given what its children mean.
A loop of such rules that also lower a measure ends, at a tree with the same meaning. -/
namespace OpenCog.Comboreduct

open Util

variable {V D : Type}

/-- What a node means, and when it is given what it asks for. -/
structure Language (V D : Type) where
  node : V → List D → D
  typed : V → List D → Prop

namespace Language

variable (L : Language V D) (w : V → Nat)

def meanings : Forest V → List D
  | .nil => []
  | .cons v c n => L.node v (meanings c) :: meanings n

def meaning (v : V) (c : Forest V) : D := L.node v (L.meanings c)

def Typed : Forest V → Prop
  | .nil => True
  | .cons v c n => L.typed v (L.meanings c) ∧ Typed c ∧ Typed n

/-- The node may be replaced: the tree gets lower or stays as it is. -/
structure Keeps (v : V) (c : Forest V) (v' : V) (c' : Forest V) : Prop where
  lowers : Lowers w (.cons v' c' .nil) (.cons v c .nil)
  meaning : L.meaning v' c' = L.meaning v c
  typed : L.typed v' (L.meanings c')
  below : L.Typed c'

/-- The rule has a result at every node of a well typed tree. -/
def Sound (r : Rule V) : Prop :=
  ∀ v c, L.typed v (L.meanings c) → L.Typed c → ∃ v' c', r v c = some (v', c') ∧ L.Keeps w v c v' c'

/-- The rules one after the other, each of them downwards. -/
def passes (rules : List (Rule V)) (fuel : Nat) (tr : Forest V) : Option (Forest V) :=
  rules.foldlM (fun tr r => downwards (fun _ => true) r fuel tr) tr

variable {L w} {f g f' : Forest V} {v : V} {c : Forest V}

theorem Keeps.refl (ht : L.typed v (L.meanings c)) (hc : L.Typed c) : L.Keeps w v c v c :=
  ⟨.refl _, rfl, ht, hc⟩

theorem meanings_append (f g : Forest V) :
    L.meanings (f.append g) = L.meanings f ++ L.meanings g := by
  induction f with
  | nil => rfl
  | cons v c n _ ihn => rw [Forest.append, meanings, ihn, meanings, List.cons_append]

theorem typed_append (hf : L.Typed f) (hg : L.Typed g) : L.Typed (f.append g) := by
  induction f with
  | nil => exact hg
  | cons v c n _ ihn => exact ⟨hf.1, hf.2.1, ihn hf.2.2⟩

theorem Sound.downwards (hw : ∀ v, 0 < w v) {r : Rule V} (hr : L.Sound w r) (hf : L.Typed f) :
    ∃ f', Downwards (fun _ => true) r f f' ∧ Lowers w f' f ∧ L.meanings f' = L.meanings f ∧
      L.Typed f' := by
  induction f using less_wellFounded (w := w) |>.induction with
  | _ f ih =>
  cases f with
  | nil => exact ⟨.nil, .nil, .refl _, rfl, trivial⟩
  | cons v c n =>
    obtain ⟨htyped, hc, hn⟩ := hf
    obtain ⟨v', c', hat, hk⟩ := hr v c htyped hc
    have hless : Less w c' (.cons v c n) := by
      rcases hk.lowers.node (n := n) with h | h
      · rw [← h]
        exact less_children hw
      · exact (less_children hw).trans h
    obtain ⟨c'', hbelow, hlow, hsame, htc⟩ := ih c' hless hk.below
    obtain ⟨n', hnext, hlow', hsame', htn⟩ := ih n (less_next hw) hn
    refine ⟨_, .cons hat hbelow hnext, ((hlow.below hw).trans hk.lowers.node).trans hlow'.next, ?_,
      ?_, htc, htn⟩
    · have hmeaning := hk.meaning
      rw [Language.meaning, Language.meaning] at hmeaning
      rw [meanings, meanings, hsame, hsame', hmeaning]
    · rw [hsame]
      exact hk.typed

theorem passes_sound (hw : ∀ v, 0 < w v) {rules : List (Rule V)} (hr : ∀ r ∈ rules, L.Sound w r)
    (hf : L.Typed f) :
    ∃ f', (∃ enough, ∀ fuel ≥ enough, passes rules fuel f = some f') ∧ Lowers w f' f ∧
      L.meanings f' = L.meanings f ∧ L.Typed f' := by
  induction rules generalizing f with
  | nil => exact ⟨f, ⟨0, fun _ _ => rfl⟩, .refl _, rfl, hf⟩
  | cons r rules ih =>
    obtain ⟨f₁, ⟨k, hk⟩, hlow, hsame, ht⟩ := (hr r List.mem_cons_self).downwards hw hf
    obtain ⟨f', ⟨m, hm⟩, hlow', hsame', ht'⟩ := ih (fun r h => hr r (List.mem_cons_of_mem _ h)) ht
    refine ⟨f', ⟨max k m, fun fuel hfuel => ?_⟩, hlow'.trans hlow, hsame'.trans hsame, ht'⟩
    rw [passes, List.foldlM_cons, hk fuel (by omega), Option.bind_eq_bind, Option.bind_some]
    exact hm fuel (by omega)

/-- A loop of rules that keep the meaning ends, at a tree with the same meaning that none of its
rules changes. -/
theorem iterative_sound [DecidableEq V] (hw : ∀ v, 0 < w v) {rules : List (Rule V)}
    (hr : ∀ r ∈ rules, L.Sound w r) (hf : L.Typed f) :
    ∃ f', L.meanings f' = L.meanings f ∧ L.Typed f' ∧ ∃ enough, ∀ fuel ≥ enough,
      passes rules fuel f' = some f' ∧
      ∀ rounds ≥ enough, iterative (passes rules fuel) rounds f = some f' := by
  induction f using (less_wellFounded (w := w)).induction with
  | _ f ih =>
  obtain ⟨f₁, ⟨k, hrun⟩, hlow, hsame, ht⟩ := passes_sound hw hr hf
  rcases hlow with rfl | hless
  · refine ⟨f₁, rfl, hf, k + 1, fun fuel hfuel => ⟨hrun fuel (by omega), fun rounds hrounds => ?_⟩⟩
    cases rounds with
    | zero => omega
    | succ rounds =>
      rw [iterative, hrun fuel (by omega), Option.bind_eq_bind, Option.bind_some, if_pos rfl]
      rfl
  · obtain ⟨f', hsame', ht', m, hrest⟩ := ih f₁ hless ht
    refine ⟨f', hsame'.trans hsame, ht', max k m + 1, fun fuel hfuel => ?_⟩
    obtain ⟨hfix, hloop⟩ := hrest fuel (by omega)
    refine ⟨hfix, fun rounds hrounds => ?_⟩
    cases rounds with
    | zero => omega
    | succ rounds =>
      have hne : f₁ ≠ f := fun h => Less.irrefl (h ▸ hless)
      rw [iterative, hrun fuel (by omega), Option.bind_eq_bind, Option.bind_some, if_neg hne]
      exact hloop rounds (by omega)

end Language

end OpenCog.Comboreduct
