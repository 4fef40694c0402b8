import OpenCog.Lib.Outcomes

/-! Machines that go step by step through what programs do. A configuration passes through a
program when its runs go on from the exits of the program, with what the program does done. -/
namespace Outcomes

/-- A machine, with the world it acts on, the configurations in which it has ended, and those in
which nothing has gone wrong. -/
structure Machine (C W : Type) where
  step : C → C → Prop
  world : C → W
  final : C → Prop
  ok : C → Prop
  stops : ∀ c d, final c → ¬ step c d
  final_ok : ∀ c, final c → ok c

namespace Machine

variable {C W : Type} (m : Machine C W)

inductive Run : Nat → C → C → Prop
  | refl (c : C) : Run 0 c c
  | step {n : Nat} {c d e : C} (h : m.step c d) (rest : Run n d e) : Run (n + 1) c e

/-- Every run to its end comes to an exit of the program, `k` steps later or more, and every way
to go through the program is one that the machine may take. Nothing goes wrong before an exit. -/
structure Passes (k : Nat) (c : C) (a : Program W) (exit : Bool → C → Prop) : Prop where
  sound : ∀ n f, m.Run n c f → m.final f →
    ∃ q d n', n' + k ≤ n ∧ a (m.world c) q (m.world d) ∧ exit q d ∧ m.Run n' d f
  complete : ∀ q w, a (m.world c) q w → ∃ n d, m.Run n c d ∧ exit q d ∧ m.world d = w
  safe : ∀ n f, m.Run n c f → m.ok f ∨ ∃ q d n', n' + k ≤ n ∧ exit q d ∧ m.Run n' d f

variable {m} {n k k' : Nat} {c d e f : C} {a a' b b' : Program W} {exit mid : Bool → C → Prop}

theorem Run.trans (h : m.Run n c d) (h' : m.Run k d e) : ∃ l, m.Run l c e := by
  induction h with
  | refl c => exact ⟨k, h'⟩
  | step h _ ih =>
    obtain ⟨l, hl⟩ := ih h'
    exact ⟨l + 1, .step h hl⟩

/-- The program has been gone through. -/
theorem Passes.here {q : Bool} (h : exit q c) : m.Passes 0 c (done q) exit where
  sound n f hrun _ := ⟨q, c, n, Nat.le_refl n, ⟨rfl, rfl⟩, h, hrun⟩
  complete q' w h' := by
    obtain ⟨rfl, rfl⟩ := h'
    exact ⟨0, c, .refl c, h, rfl⟩
  safe n f hrun := .inr ⟨q, c, n, Nat.le_refl n, h, hrun⟩

theorem Passes.le (h : m.Passes k c a exit) (hk : k' ≤ k) : m.Passes k' c a exit where
  sound n f hrun hf := by
    obtain ⟨q, d, n', hn, ha, hd, hrest⟩ := h.sound n f hrun hf
    exact ⟨q, d, n', by omega, ha, hd, hrest⟩
  complete := h.complete
  safe n f hrun := (h.safe n f hrun).imp_right fun ⟨q, d, n', hn, hd, hrest⟩ =>
    ⟨q, d, n', by omega, hd, hrest⟩

theorem Passes.congr (h : m.Passes k c a exit) (ha : a' (m.world c) = a (m.world c)) :
    m.Passes k c a' exit where
  sound := by
    rw [ha]
    exact h.sound
  complete := by
    rw [ha]
    exact h.complete
  safe := h.safe

theorem Passes.exit_congr (h : m.Passes k c a mid) (he : ∀ q d, mid q d → exit q d) :
    m.Passes k c a exit where
  sound n f hrun hf := by
    obtain ⟨q, d, n', hn, ha, hd, hrest⟩ := h.sound n f hrun hf
    exact ⟨q, d, n', hn, ha, he q d hd, hrest⟩
  complete q w ha := by
    obtain ⟨n, d, hrun, hd, hw⟩ := h.complete q w ha
    exact ⟨n, d, hrun, he q d hd, hw⟩
  safe n f hrun := (h.safe n f hrun).imp_right fun ⟨q, d, n', hn, hd, hrest⟩ =>
    ⟨q, d, n', hn, he q d hd, hrest⟩

/-- A step that the machine can only take in one way, without an effect. -/
theorem Passes.move (hok : m.ok c) (hstep : ∀ e, m.step c e ↔ e = d) (hworld : m.world d = m.world c)
    (h : m.Passes k d a exit) : m.Passes (k + 1) c a exit where
  sound n f hrun hf := by
    cases hrun with
    | refl => exact absurd ((hstep d).mpr rfl) (m.stops _ d hf)
    | step hs hrest =>
      obtain rfl := (hstep _).mp hs
      obtain ⟨q, e, n', hn, ha, he, hrun⟩ := h.sound _ f hrest hf
      rw [hworld] at ha
      exact ⟨q, e, n', by omega, ha, he, hrun⟩
  complete q w ha := by
    rw [← hworld] at ha
    obtain ⟨n, e, hrun, he, hw⟩ := h.complete q w ha
    exact ⟨n + 1, e, .step ((hstep d).mpr rfl) hrun, he, hw⟩
  safe n f hrun := by
    cases hrun with
    | refl => exact .inl hok
    | step hs hrest =>
      obtain rfl := (hstep _).mp hs
      refine (h.safe _ f hrest).imp_right fun ⟨q, e, n', hn, he, hrun⟩ => ?_
      exact ⟨q, e, n', by omega, he, hrun⟩

/-- A step with an effect. -/
theorem Passes.act (hok : m.ok c) (hc : ¬ m.final c)
    (hsound : ∀ d, m.step c d → ∃ q, a (m.world c) q (m.world d) ∧ exit q d)
    (hcomplete : ∀ q w, a (m.world c) q w → ∃ d, m.step c d ∧ exit q d ∧ m.world d = w) :
    m.Passes 1 c a exit where
  sound n f hrun hf := by
    cases hrun with
    | refl => exact absurd hf hc
    | step hs hrest =>
      obtain ⟨q, ha, hq⟩ := hsound _ hs
      exact ⟨q, _, _, Nat.le_refl _, ha, hq, hrest⟩
  complete q w ha := by
    obtain ⟨d, hs, hq, hw⟩ := hcomplete q w ha
    exact ⟨1, d, .step hs (.refl d), hq, hw⟩
  safe n f hrun := by
    cases hrun with
    | refl => exact .inl hok
    | step hs hrest =>
      obtain ⟨q, -, hq⟩ := hsound _ hs
      exact .inr ⟨q, _, _, Nat.le_refl _, hq, hrest⟩

/-- What follows success, and what follows failure. -/
theorem Passes.branch (h : m.Passes k c a mid)
    (hnext : ∀ q d, mid q d → m.Passes 0 d (if q = true then b else b') exit) :
    m.Passes k c (branch a b b') exit where
  sound n f hrun hf := by
    obtain ⟨q, d, n', hn, ha, hd, hrest⟩ := h.sound n f hrun hf
    obtain ⟨r, e, n'', hn', hb, he, hrest'⟩ := (hnext q d hd).sound n' f hrest hf
    exact ⟨r, e, n'', by omega, ⟨q, _, ha, hb⟩, he, hrest'⟩
  complete r w h' := by
    obtain ⟨q, x, ha, hb⟩ := h'
    obtain ⟨n, d, hrun, hd, rfl⟩ := h.complete q x ha
    obtain ⟨n', e, hrun', he, hw⟩ := (hnext q d hd).complete r w hb
    obtain ⟨l, hl⟩ := hrun.trans hrun'
    exact ⟨l, e, hl, he, hw⟩
  safe n f hrun := by
    rcases h.safe n f hrun with hok | ⟨q, d, n', hn, hd, hrest⟩
    · exact .inl hok
    · refine ((hnext q d hd).safe n' f hrest).imp_right fun ⟨r, e, n'', hn', he, hrest'⟩ => ?_
      exact ⟨r, e, n'', by omega, he, hrest'⟩

/-- A loop, from the configurations at its head. -/
theorem Passes.loop {head : C → Prop}
    (h : ∀ c, head c → m.Passes 1 c a fun q d => if q = true then head d else exit false d)
    (hc : head c) : m.Passes 0 c (Loop a) exit where
  sound n f hrun hf := by
    induction n using Nat.strong_induction_on generalizing c with
    | _ n ih =>
    obtain ⟨q, d, n', hn, ha, hd, hrest⟩ := (h c hc).sound n f hrun hf
    cases q with
    | true =>
      obtain ⟨r, e, n'', hn', hl, he, hrest'⟩ := ih n' (by omega) hd hrest
      exact ⟨r, e, n'', by omega, .again ha hl, he, hrest'⟩
    | false => exact ⟨false, d, n', by omega, .stop ha, hd, hrest⟩
  complete q w hl := by
    generalize hw : m.world c = x at hl
    induction hl generalizing c with
    | stop ha =>
      subst hw
      exact (h c hc).complete false _ ha
    | again ha _ ih =>
      subst hw
      obtain ⟨n, d, hrun, hd, hx⟩ := (h c hc).complete true _ ha
      obtain ⟨n', e, hrun', he, hw⟩ := ih hd hx
      obtain ⟨l, hl⟩ := hrun.trans hrun'
      exact ⟨l, e, hl, he, hw⟩
  safe n f hrun := by
    induction n using Nat.strong_induction_on generalizing c with
    | _ n ih =>
    rcases (h c hc).safe n f hrun with hok | ⟨q, d, n', hn, hd, hrest⟩
    · exact .inl hok
    · cases q with
      | true =>
        refine (ih n' (by omega) hd hrest).imp_right fun ⟨r, e, n'', hn', he, hrest'⟩ => ?_
        exact ⟨r, e, n'', by omega, he, hrest'⟩
      | false => exact .inr ⟨false, d, n', by omega, hd, hrest⟩

/-- A loop with a condition. -/
theorem Passes.whileLoop {head : C → Prop} {test : W → Bool}
    (hexit : ∀ c, head c → test (m.world c) = false → m.Passes 0 c (done true) exit)
    (h : ∀ c, head c → test (m.world c) = true →
      m.Passes 1 c a fun q d => if q = true then head d else exit false d)
    (hc : head c) : m.Passes 0 c (WhileLoop test a) exit where
  sound n f hrun hf := by
    induction n using Nat.strong_induction_on generalizing c with
    | _ n ih =>
    cases hw : test (m.world c) with
    | false =>
      obtain ⟨q, d, n', hn, ⟨rfl, hsame⟩, hd, hrest⟩ := (hexit c hc hw).sound n f hrun hf
      refine ⟨true, d, n', hn, ?_, hd, hrest⟩
      rw [hsame]
      exact .exit hw
    | true =>
      obtain ⟨q, d, n', hn, ha, hd, hrest⟩ := (h c hc hw).sound n f hrun hf
      cases q with
      | true =>
        obtain ⟨r, e, n'', hn', hl, he, hrest'⟩ := ih n' (by omega) hd hrest
        exact ⟨r, e, n'', by omega, .again hw ha hl, he, hrest'⟩
      | false => exact ⟨false, d, n', by omega, .stop hw ha, hd, hrest⟩
  complete q w hl := by
    generalize hw : m.world c = x at hl
    induction hl generalizing c with
    | exit ht =>
      subst hw
      exact (hexit c hc ht).complete true _ ⟨rfl, rfl⟩
    | stop ht ha =>
      subst hw
      exact (h c hc ht).complete false _ ha
    | again ht ha _ ih =>
      subst hw
      obtain ⟨n, d, hrun, hd, hx⟩ := (h c hc ht).complete true _ ha
      obtain ⟨n', e, hrun', he, hw⟩ := ih hd hx
      obtain ⟨l, hl⟩ := hrun.trans hrun'
      exact ⟨l, e, hl, he, hw⟩
  safe n f hrun := by
    induction n using Nat.strong_induction_on generalizing c with
    | _ n ih =>
    cases hw : test (m.world c) with
    | false => exact (hexit c hc hw).safe n f hrun
    | true =>
      rcases (h c hc hw).safe n f hrun with hok | ⟨q, d, n', hn, hd, hrest⟩
      · exact .inl hok
      · cases q with
        | true =>
          refine (ih n' (by omega) hd hrest).imp_right fun ⟨r, e, n'', hn', he, hrest'⟩ => ?_
          exact ⟨r, e, n'', by omega, he, hrest'⟩
        | false => exact .inr ⟨false, d, n', by omega, hd, hrest⟩

/-- A program whose exits are final is what the machine does. -/
theorem Passes.ends (h : m.Passes k c a exit) (hfinal : ∀ q d, exit q d → m.final d)
    (hone : ∀ q r d, exit q d → exit r d → q = r) (q : Bool) (w : W) :
    (∃ n d, m.Run n c d ∧ exit q d ∧ m.world d = w) ↔ a (m.world c) q w := by
  refine ⟨?_, h.complete q w⟩
  rintro ⟨n, d, hrun, hd, rfl⟩
  obtain ⟨r, e, n', -, ha, he, hrest⟩ := h.sound n d hrun (hfinal q d hd)
  cases hrest with
  | refl =>
    obtain rfl := hone q r _ hd he
    exact ha
  | step hs _ => exact absurd hs (m.stops _ _ (hfinal r e he))

end Machine

end Outcomes
