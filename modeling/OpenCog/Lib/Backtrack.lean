import Mathlib

/-! Loops of calls on a state, in the style of `foreach` with a callback: a call
that returns true ends the loop, one that returns false lets it go on. A call may
also crash, or spend a bound put on its recursion. -/
namespace Backtrack

inductive Outcome where
  | yes | no | crashed | spent
  deriving DecidableEq

variable {σ α β : Type}

/-- Calls `f` on the elements in turn while it returns false. -/
def foreach (f : α → σ → σ × Outcome) : List α → σ → σ × Outcome
  | [], s => (s, .no)
  | a :: as, s =>
    match f a s with
    | (s', .no) => foreach f as s'
    | r => r

/-- Calls `f` on corresponding elements; an element without a partner is a null
pointer. -/
def foreachPair (f : α → β → σ → σ × Outcome) : List α → List β → σ → σ × Outcome
  | [], [], s => (s, .no)
  | a :: as, b :: bs, s =>
    match f a b s with
    | (s', .no) => foreachPair f as bs s'
    | r => r
  | _, _, s => (s, .crashed)

theorem foreach_cons (f : α → σ → σ × Outcome) (a : α) (as : List α) (s : σ) :
    foreach f (a :: as) s = if (f a s).2 = .no then foreach f as (f a s).1 else f a s := by
  rw [foreach]
  split
  · rename_i s' h
    simp [h]
  · rename_i h
    rw [if_neg]
    intro hn
    exact h (f a s).1 (Prod.ext rfl hn)

theorem foreachPair_cons (f : α → β → σ → σ × Outcome) (a : α) (as : List α) (b : β) (bs : List β)
    (s : σ) : foreachPair f (a :: as) (b :: bs) s =
      if (f a b s).2 = .no then foreachPair f as bs (f a b s).1 else f a b s := by
  rw [foreachPair]
  split
  · rename_i s' h
    simp [h]
  · rename_i h
    rw [if_neg]
    intro hn
    exact h (f a b s).1 (Prod.ext rfl hn)

/-- `P` holds before every call, `K` of every result. -/
theorem foreach_rule {f : α → σ → σ × Outcome} {P : σ → Prop} {K : σ × Outcome → Prop} {as : List α}
    (hcall : ∀ a ∈ as, ∀ s, P s → K (f a s) ∧ ((f a s).2 = .no → P (f a s).1))
    (hdone : ∀ s, P s → K (s, .no)) {s : σ} (hs : P s) :
    K (foreach f as s) ∧ ((foreach f as s).2 = .no → P (foreach f as s).1) := by
  induction as generalizing s with
  | nil => exact ⟨hdone s hs, fun _ => hs⟩
  | cons a as ih =>
    obtain ⟨hk, hp⟩ := hcall a List.mem_cons_self s hs
    rw [foreach_cons]
    by_cases hn : (f a s).2 = .no
    · rw [if_pos hn]
      exact ih (fun b hb => hcall b (List.mem_cons_of_mem a hb)) (hp hn)
    · rw [if_neg hn]
      exact ⟨hk, hp⟩

/-- A loop asks its callback only about states of which `P` holds. -/
theorem foreach_congr {f f' : α → σ → σ × Outcome} {P : σ → Prop} {as : List α}
    (hcall : ∀ a ∈ as, ∀ s, P s → f' a s = f a s ∧ ((f a s).2 = .no → P (f a s).1)) {s : σ}
    (hs : P s) : foreach f' as s = foreach f as s := by
  induction as generalizing s with
  | nil => rfl
  | cons a as ih =>
    obtain ⟨he, hp⟩ := hcall a List.mem_cons_self s hs
    rw [foreach_cons, foreach_cons, he]
    split
    · next hn => exact ih (fun b hb => hcall b (List.mem_cons_of_mem a hb)) (hp hn)
    · rfl

/-- Two results that end alike: `Q` relates the states, and `R` those that are gone on with. -/
structure Simulates (R Q : σ → σ → Prop) (r r' : σ × Outcome) : Prop where
  outcome : r'.2 = r.2
  states : Q r.1 r'.1
  goesOn : r.2 = .no → R r.1 r'.1

theorem Simulates.mono {R R' Q : σ → σ → Prop} {r r' : σ × Outcome} (h : Simulates R Q r r')
    (hR : ∀ s s', R s s' → R' s s') : Simulates R' Q r r' :=
  ⟨h.outcome, h.states, fun hn => hR _ _ (h.goesOn hn)⟩

/-- Loops whose calls end alike end alike. -/
theorem foreach_simulates {R Q : σ → σ → Prop} {f f' : α → σ → σ × Outcome} {as : List α}
    (hcall : ∀ a ∈ as, ∀ s s', R s s' → Simulates R Q (f a s) (f' a s'))
    (hdone : ∀ s s', R s s' → Q s s') {s s' : σ} (hs : R s s') :
    Simulates R Q (foreach f as s) (foreach f' as s') := by
  induction as generalizing s s' with
  | nil => exact ⟨rfl, hdone s s' hs, fun _ => hs⟩
  | cons a as ih =>
    have hfirst := hcall a List.mem_cons_self s s' hs
    rw [foreach_cons, foreach_cons, hfirst.outcome]
    split
    · next hn => exact ih (fun b hb => hcall b (List.mem_cons_of_mem a hb)) (hfirst.goesOn hn)
    · exact hfirst

theorem foreachPair_simulates {R Q : σ → σ → Prop} {f f' : α → β → σ → σ × Outcome} {as : List α}
    {bs : List β} (hcall : ∀ a ∈ as, ∀ b s s', R s s' → Simulates R Q (f a b s) (f' a b s'))
    (hdone : ∀ s s', R s s' → Q s s') {s s' : σ} (hs : R s s') :
    Simulates R Q (foreachPair f as bs s) (foreachPair f' as bs s') := by
  induction as generalizing bs s s' with
  | nil =>
    cases bs with
    | nil => exact ⟨rfl, hdone s s' hs, fun _ => hs⟩
    | cons b bs => exact ⟨rfl, hdone s s' hs, fun h => by cases h⟩
  | cons a as ih =>
    cases bs with
    | nil => exact ⟨rfl, hdone s s' hs, fun h => by cases h⟩
    | cons b bs =>
      have hfirst := hcall a List.mem_cons_self b s s' hs
      rw [foreachPair_cons, foreachPair_cons, hfirst.outcome]
      split
      · next hn => exact ih (fun x hx => hcall x (List.mem_cons_of_mem a hx)) (hfirst.goesOn hn)
      · exact hfirst

/-- If every call returns false, then so does the loop, and what one of the calls
brings about and the others keep holds in the end. -/
theorem foreach_reaches {f : α → σ → σ × Outcome} {P M : σ → Prop} {as : List α}
    (hcall : ∀ a ∈ as, ∀ s, P s → (f a s).2 = .no ∧ P (f a s).1)
    (hkeep : ∀ a ∈ as, ∀ s, P s → M s → M (f a s).1) {a : α} (ha : a ∈ as)
    (hreach : ∀ s, P s → M (f a s).1) {s : σ} (hs : P s) : M (foreach f as s).1 := by
  have hrest : ∀ bs : List α, (∀ b ∈ bs, b ∈ as) → ∀ s, P s → M s → M (foreach f bs s).1 := by
    intro bs
    induction bs with
    | nil => exact fun _ _ _ hm => hm
    | cons b bs ih =>
      intro hbs s hs hm
      have hb := hbs b List.mem_cons_self
      obtain ⟨hn, hp⟩ := hcall b hb s hs
      rw [foreach_cons, if_pos hn]
      exact ih (fun x hx => hbs x (List.mem_cons_of_mem b hx)) _ hp (hkeep b hb s hs hm)
  induction as generalizing s with
  | nil => cases ha
  | cons b as ih =>
    obtain ⟨hn, hp⟩ := hcall b List.mem_cons_self s hs
    rw [foreach_cons, if_pos hn]
    rcases List.mem_cons.mp ha with rfl | ha
    · exact hrest as (fun x hx => List.mem_cons_of_mem a hx) _ hp (hreach s hs)
    · exact ih (fun x hx => hcall x (List.mem_cons_of_mem b hx))
        (fun x hx => hkeep x (List.mem_cons_of_mem b hx)) ha hp
        (fun bs hbs => hrest bs fun x hx => List.mem_cons_of_mem b (hbs x hx))

/-- If every call on corresponding elements returns false and keeps `P`, then so
does the loop. -/
theorem foreachPair_reaches {f : α → β → σ → σ × Outcome} {P : σ → Prop} {as : List α} {bs : List β}
    (hlen : as.length = bs.length)
    (hcall : ∀ a b, (a, b) ∈ as.zip bs → ∀ s, P s → ∃ s', f a b s = (s', .no) ∧ P s') {s : σ}
    (hs : P s) : ∃ s', foreachPair f as bs s = (s', .no) ∧ P s' := by
  induction as generalizing bs s with
  | nil =>
    cases bs with
    | nil => exact ⟨s, rfl, hs⟩
    | cons b bs => cases hlen
  | cons a as ih =>
    cases bs with
    | nil => cases hlen
    | cons b bs =>
      rw [List.zip_cons_cons] at hcall
      obtain ⟨s', hf, hs'⟩ := hcall a b List.mem_cons_self s hs
      rw [foreachPair_cons, hf]
      exact ih (Nat.succ.inj hlen) (fun x y h => hcall x y (List.mem_cons_of_mem _ h)) hs'

/-- Lists of one length never leave an element without a partner. -/
theorem foreachPair_avoids {f : α → β → σ → σ × Outcome} {o : Outcome} (hno : o ≠ .no)
    {as : List α} {bs : List β} (hlen : o = .crashed → as.length = bs.length)
    (hcall : ∀ a ∈ as, ∀ b ∈ bs, ∀ s, (f a b s).2 ≠ o) (s : σ) : (foreachPair f as bs s).2 ≠ o := by
  induction as generalizing bs s with
  | nil =>
    cases bs with
    | nil => exact Ne.symm hno
    | cons b bs => exact fun h => by cases hlen h.symm
  | cons a as ih =>
    cases bs with
    | nil => exact fun h => by cases hlen h.symm
    | cons b bs =>
      rw [foreachPair_cons]
      split
      · exact ih (fun h => Nat.succ.inj (hlen h))
          (fun x hx y hy => hcall x (List.mem_cons_of_mem a hx) y (List.mem_cons_of_mem b hy)) _
      · exact hcall a List.mem_cons_self b List.mem_cons_self s

/-! ## The calls a body makes -/

open Classical in
/-- The callback with one answer changed. -/
noncomputable def answering (f : α → σ → σ × Outcome) (a : α) (s : σ) (r : σ × Outcome) :
    α → σ → σ × Outcome :=
  fun b t => if b = a ∧ t = s then r else f b t

/-- The body calls `f` on `a` in the state `s`: its result depends on the answer. -/
def Calls (body : (α → σ → σ × Outcome) → σ × Outcome) (f : α → σ → σ × Outcome) (a : α) (s : σ) :
    Prop :=
  ∃ r, body (answering f a s r) ≠ body f

/-- If the answers in states with `P` determine the result, then `P` holds at every call. -/
theorem Calls.holds {body : (α → σ → σ × Outcome) → σ × Outcome} {f : α → σ → σ × Outcome}
    {P : σ → Prop} (hbody : ∀ f', (∀ a s, P s → f' a s = f a s) → body f' = body f) {a : α} {s : σ}
    (h : Calls body f a s) : P s := by
  obtain ⟨r, hr⟩ := h
  by_contra hs
  apply hr
  apply hbody
  intro b t ht
  apply if_neg
  rintro ⟨-, rfl⟩
  exact hs ht

end Backtrack
