import Mathlib

/-! Multi-valued and single-valued indices as functions of their key, and the
fold rules for computations that may fail. -/
namespace Index

variable {κ α : Type} [DecidableEq κ] [DecidableEq α]

def insertAt (idx : κ → List α) (v : α) (k : κ) : κ → List α :=
  Function.update idx k ((idx k).insert v)

def removeAt (idx : κ → List α) (v : α) (k : κ) : κ → List α :=
  Function.update idx k ((idx k).filter (· ≠ v))

/-- Insertion into a map that keeps an existing entry. -/
def mapInsert (m : κ → Option α) (k : κ) (v : α) : κ → Option α :=
  Function.update m k (some ((m k).getD v))

def mapErase (m : κ → Option α) (k : κ) : κ → Option α := Function.update m k none

theorem mem_insertAt {idx : κ → List α} {v w : α} {k j : κ} :
    w ∈ insertAt idx v k j ↔ w ∈ idx j ∨ j = k ∧ w = v := by
  unfold insertAt
  by_cases e : j = k
  · subst e; simp [or_comm]
  · simp [e]

theorem mem_removeAt {idx : κ → List α} {v w : α} {k j : κ} :
    w ∈ removeAt idx v k j ↔ w ∈ idx j ∧ ¬ (j = k ∧ w = v) := by
  unfold removeAt
  by_cases e : j = k
  · subst e; simp
  · simp [e]

theorem mem_foldl_insertAt {ks : List κ} {idx : κ → List α} {v w : α} {j : κ} :
    w ∈ ks.foldl (insertAt · v ·) idx j ↔ w ∈ idx j ∨ j ∈ ks ∧ w = v := by
  induction ks generalizing idx with
  | nil => simp
  | cons k ks ih =>
    rw [List.foldl_cons, ih, mem_insertAt, List.mem_cons]
    tauto

theorem mem_foldl_removeAt {ks : List κ} {idx : κ → List α} {v w : α} {j : κ} :
    w ∈ ks.foldl (removeAt · v ·) idx j ↔ w ∈ idx j ∧ ¬ (j ∈ ks ∧ w = v) := by
  induction ks generalizing idx with
  | nil => simp
  | cons k ks ih =>
    rw [List.foldl_cons, ih, mem_removeAt, List.mem_cons]
    tauto

end Index

namespace Fold

variable {σ α : Type}

/-- A fold whose steps all succeed under an invariant succeeds and keeps it.
The invariant also sees the elements still to be visited. -/
theorem foldlM_some {f : σ → α → Option σ} (P : List α → σ → Prop) (xs : List α) (s : σ)
    (start : P xs s) (step : ∀ x rest s, P (x :: rest) s → ∃ s', f s x = some s' ∧ P rest s') :
    ∃ s', xs.foldlM f s = some s' ∧ P [] s' := by
  induction xs generalizing s with
  | nil => exact ⟨s, rfl, start⟩
  | cons x xs ih =>
    obtain ⟨s₁, h₁, p₁⟩ := step x xs s start
    obtain ⟨s₂, h₂, p₂⟩ := ih s₁ p₁
    refine ⟨s₂, ?_, p₂⟩
    rw [List.foldlM_cons, h₁]
    exact h₂

/-- The same for steps that need to know of their element only that it is in the list. -/
theorem foldlM_of_mem {f : σ → α → Option σ} (P : σ → Prop) (xs : List α) {s : σ} (start : P s)
    (step : ∀ x ∈ xs, ∀ s, P s → ∃ s', f s x = some s' ∧ P s') :
    ∃ s', xs.foldlM f s = some s' ∧ P s' := by
  obtain ⟨s', h, p, -⟩ := foldlM_some (fun rest s => P s ∧ ∀ x ∈ rest, x ∈ xs) xs s
    ⟨start, fun x hx => hx⟩ fun x rest s ⟨p, hsub⟩ => by
      obtain ⟨s', h, p'⟩ := step x (hsub x List.mem_cons_self) s p
      exact ⟨s', h, p', fun y hy => hsub y (List.mem_cons_of_mem x hy)⟩
  exact ⟨s', h, p⟩

/-- What every step that succeeds keeps, a fold that succeeds keeps. -/
theorem foldlM_keeps {f : σ → α → Option σ} (P : σ → Prop)
    (step : ∀ s x s', P s → f s x = some s' → P s') (xs : List α) {s s' : σ} (start : P s)
    (h : xs.foldlM f s = some s') : P s' := by
  induction xs generalizing s with
  | nil =>
    obtain rfl := Option.some.inj h
    exact start
  | cons x xs ih =>
    rw [List.foldlM_cons] at h
    obtain ⟨s₁, h₁, h⟩ := Option.bind_eq_some_iff.mp h
    exact ih (step s x s₁ start h₁) h

/-- Each step that a fold takes meets a condition on the state before it. -/
def AllAlong (f : σ → α → Option σ) (ok : σ → α → Prop) : List α → σ → Prop
  | [], _ => True
  | x :: xs, s => ok s x ∧ ∀ s', f s x = some s' → AllAlong f ok xs s'

end Fold
