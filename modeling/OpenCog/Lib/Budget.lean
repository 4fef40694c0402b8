import Mathlib.Data.List.Forall2

/-! Runs that may stop: what a run yields, and runs on a budget. More budget changes nothing
but a run that was out of it; a run ends if some budget is enough. -/
namespace Budget

variable {ε α β : Type} {A : ε → Prop} {P Q : α → Prop} {R : β → Prop} {r : Except ε α}
  {f : α → Except ε β}

/-! ## What a run yields -/

/-- The result has the property, and a run without one has stopped in an allowed way. -/
def Yields (A : ε → Prop) (r : Except ε α) (P : α → Prop) : Prop :=
  match r with
  | .ok a => P a
  | .error e => A e

theorem Yields.pure {a : α} (h : P a) : Yields A (Pure.pure a : Except ε α) P := h

theorem Yields.bind (h : Yields A r P) (k : ∀ a, P a → Yields A (f a) R) :
    Yields A (r >>= f) R := by
  cases r with
  | error e => exact h
  | ok a => exact k a h

theorem Yields.map {g : α → β} (h : Yields A r fun a => R (g a)) : Yields A (r.map g) R := by
  cases r with
  | error e => exact h
  | ok a => exact h

theorem Yields.imp (h : Yields A r P) (k : ∀ a, P a → Q a) : Yields A r Q := by
  cases r with
  | error e => exact h
  | ok a => exact k a h

theorem Yields.of_ok {a : α} (h : Yields A (.ok a) P) : P a := h

theorem Yields.mapM {S : α → β → Prop} {l : List α} (h : ∀ x ∈ l, Yields A (f x) (S x)) :
    Yields A (l.mapM f) fun m => List.Forall₂ S l m := by
  induction l with
  | nil => exact .nil
  | cons x l ih =>
    rw [List.mapM_cons]
    refine (h x List.mem_cons_self).bind fun y hy => ?_
    refine (ih fun z hz => h z (List.mem_cons_of_mem x hz)).bind fun m hm => ?_
    exact .cons hy hm

/-! ## Budgets -/

variable {out : ε} {a b c : Except ε α} {F : Nat → Except ε α} {G : α → Nat → Except ε β}

/-- `b` is `a`, unless `a` was out of budget. -/
def Refines (out : ε) (a b : Except ε α) : Prop := a = .error out ∨ a = b

theorem Refines.refl (a : Except ε α) : Refines out a a := .inr rfl

theorem Refines.trans (h : Refines out a b) (k : Refines out b c) : Refines out a c := by
  rcases h with h | rfl
  · exact .inl h
  · exact k

theorem Refines.bind {g : α → Except ε β} (h : Refines out a b)
    (k : ∀ x, Refines out (f x) (g x)) : Refines out (a >>= f) (b >>= g) := by
  rcases h with rfl | rfl
  · exact .inl rfl
  · cases a with
    | error e => exact .inr rfl
    | ok x => exact k x

/-- The runs with more and more budget. -/
def Grows (out : ε) (F : Nat → Except ε α) : Prop := ∀ n, Refines out (F n) (F (n + 1))

theorem Grows.le (h : Grows out F) {n m : Nat} (hnm : n ≤ m) : Refines out (F n) (F m) := by
  induction hnm with
  | refl => exact .refl _
  | step _ ih => exact ih.trans (h _)

def Ends (out : ε) (F : Nat → Except ε α) : Prop := ∃ n, F n ≠ .error out

theorem Ends.stable (h : Ends out F) (hF : Grows out F) :
    ∃ n r, r ≠ .error out ∧ ∀ m, n ≤ m → F m = r := by
  obtain ⟨n, hn⟩ := h
  refine ⟨n, F n, hn, fun m hm => ?_⟩
  exact ((hF.le hm).resolve_left hn).symm

theorem Ends.of_succ (h : Ends out fun n => F (n + 1)) : Ends out F := by
  obtain ⟨n, hn⟩ := h
  exact ⟨n + 1, hn⟩

theorem Ends.const (h : a ≠ .error out) : Ends out fun _ => a := ⟨0, h⟩

theorem Ends.bind (h : Ends out F) (hF : Grows out F) (hG : ∀ x, Grows out (G x))
    (k : ∀ x n, F n = .ok x → Ends out (G x)) : Ends out fun n => F n >>= fun x => G x n := by
  obtain ⟨n, hn⟩ := h
  cases hx : F n with
  | error e =>
    refine ⟨n, ?_⟩
    simp only [hx]
    intro he
    exact hn (hx.trans (congrArg Except.error (Except.error.inj he)))
  | ok x =>
    obtain ⟨m, hm⟩ := k x n hx
    refine ⟨max n m, ?_⟩
    have hF' := (hF.le (Nat.le_max_left n m)).resolve_left hn
    have hG' := ((hG x).le (Nat.le_max_right n m)).resolve_left hm
    simp only [← hF', hx]
    rw [hG'] at hm
    exact hm

end Budget
