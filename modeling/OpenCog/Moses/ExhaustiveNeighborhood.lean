import OpenCog.Moses.RawValues

/-! All neighbours at a distance: the recursion over the raw fields writes each legal instance at
that distance once, if the number of values it takes for a discrete variable is right. -/
namespace OpenCog.Moses

open Util ContinSpec

namespace FieldSet

variable {C : Type} {fs : FieldSet C} {inst inst₁ inst₂ inst' t : Instance}
  {bound : Nat → Nat} {fuel n start idx num v : Nat} {c : Spec C} {out out₁ out₂ out₃ : List Instance}

/-! ## One call -/

/-- The raw field `start` is one of the variable `idx`. -/
structure In (fs : FieldSet C) (start idx : Nat) (c : Spec C) : Prop where
  idx_eq : fs.rawToContinIdx start = some idx
  spec : fs.contin[idx]? = some c
  lo : fs.continToRawIdx idx ≤ start
  hi : start < fs.continToRawIdx idx + c.depth

theorem In.end_eq (h : fs.In start idx c) :
    start + c.depth - (start - fs.continToRawIdx idx) = fs.continToRawIdx idx + c.depth := by
  have := h.lo
  omega

theorem In.end_le (h : fs.In start idx c) : fs.continToRawIdx idx + c.depth ≤ fs.discStart :=
  (continToRawIdx_add_le h.spec).2

theorem In.start_lt (h : fs.In start idx c) : start < fs.discStart :=
  Nat.lt_of_lt_of_le h.hi h.end_le

theorem Plain.mem_block (hp : fs.Plain) (h : start < fs.discStart) : ∃ idx c, fs.In start idx c := by
  obtain ⟨idx, c, hidx, hc, hlo, hhi⟩ := hp.block h
  exact ⟨idx, c, hidx, hc, hlo, hhi⟩

theorem Plain.nContin_eq (hp : fs.Plain) : fs.nContin = fs.discStart := by
  rw [nContin, hp.ontoZero, Nat.sub_zero]

theorem Plain.kinds (hp : fs.Plain) : fs.discStart + fs.nDisc + fs.nbool = fs.rawSize := by
  have hle : fs.nbool ≤ fs.discAndBits.length := List.countP_le_length
  have := hp.size
  unfold nDisc
  omega

theorem vary_zero : fs.varyNKnobs (fuel + 1) inst 0 start = some [inst] := rfl

section Call
variable (hp : fs.Plain) (hn : n ≠ 0)
include hp hn

theorem vary_stop (hin : fs.In start idx c)
    (hat : fs.CanonicalAt inst (fs.continToRawIdx idx) c.depth num)
    (hv : fs.getRaw inst start = some stop)
    (h₁ : fs.varyNKnobs fuel inst n (fs.continToRawIdx idx + c.depth) = some out₁)
    (hset₁ : fs.setRaw inst start left = some inst₁)
    (h₂ : fs.varyNKnobs fuel inst₁ (n - 1) (start + 1) = some out₂)
    (hset₂ : fs.setRaw inst₁ start right = some inst₂)
    (h₃ : fs.varyNKnobs fuel inst₂ (n - 1) (start + 1) = some out₃) :
    fs.varyNKnobs (fuel + 1) inst n start = some (out₁ ++ (out₂ ++ out₃)) := by
  have hnum : fs.countNBeforeStop inst idx = some num := by
    rw [countNBeforeStop, hin.spec, Option.bind_some, hat.beforeStop_eq]
  unfold varyNKnobs
  rw [if_neg hn, hp.ontoZero, hp.nContin_eq, if_neg (Nat.not_lt_zero _), Nat.zero_add,
    if_pos hin.start_lt]
  simp only [hin.idx_eq, hin.spec, hnum, hv, hin.end_eq, h₁, hset₁, h₂, hset₂, h₃,
    Option.bind_eq_bind, Option.bind_some, if_true]

theorem vary_step (hin : fs.In start idx c)
    (hat : fs.CanonicalAt inst (fs.continToRawIdx idx) c.depth num)
    (hv : fs.getRaw inst start = some v) (hvs : v ≠ stop) {v' : Nat} (hswitch : switchLR v = some v')
    (h₁ : fs.varyNKnobs fuel inst n (start + 1) = some out₁)
    (hset₁ : fs.setRaw inst start v' = some inst₁)
    (h₂ : fs.varyNKnobs fuel inst₁ (n - 1) (start + 1) = some out₂)
    (hstop : num - (start - fs.continToRawIdx idx) ≤ n →
      fs.stopAll (num - (start - fs.continToRawIdx idx)) start inst₁ = some inst₂ ∧
      fs.varyNKnobs fuel inst₂ (n - (num - (start - fs.continToRawIdx idx)))
        (fs.continToRawIdx idx + c.depth) = some out₃) :
    fs.varyNKnobs (fuel + 1) inst n start = some (out₁ ++ (out₂ ++
      if num - (start - fs.continToRawIdx idx) ≤ n then out₃ else [])) := by
  have hnum : fs.countNBeforeStop inst idx = some num := by
    rw [countNBeforeStop, hin.spec, Option.bind_some, hat.beforeStop_eq]
  unfold varyNKnobs
  rw [if_neg hn, hp.ontoZero, hp.nContin_eq, if_neg (Nat.not_lt_zero _), Nat.zero_add,
    if_pos hin.start_lt]
  simp only [hin.idx_eq, hin.spec, hnum, hv, hin.end_eq, h₁, hset₁, h₂, hswitch,
    Option.bind_eq_bind, Option.bind_some, if_neg hvs]
  by_cases hle : num - (start - fs.continToRawIdx idx) ≤ n
  · obtain ⟨hall, h₃⟩ := hstop hle
    simp only [if_pos hle, hall, h₃, Option.bind_some]
  · simp only [if_neg hle, List.append_nil]

theorem vary_disc {j : Nat} (hj : j < fs.nDisc) {r : Nat}
    (hv : fs.getRaw inst (fs.discStart + j) = some v)
    (h₁ : fs.varyNKnobs fuel inst n (fs.discStart + j + 1) = some out₁)
    (hr : fs.arity (fs.discStart + j) = some r)
    (h₂ : fs.varyDisc (fun inst => fs.varyNKnobs fuel inst (n - 1) (fs.discStart + j + 1))
      (fs.discStart + j) v (List.range' 1 (r - 1)) inst = some out₂) :
    fs.varyNKnobs (fuel + 1) inst n (fs.discStart + j) = some (out₁ ++ out₂) := by
  unfold varyNKnobs
  rw [if_neg hn, hp.ontoZero, hp.nContin_eq, if_neg (Nat.not_lt_zero _), Nat.zero_add,
    if_neg (by omega), if_pos (by omega)]
  simp only [hv, h₁, hr, h₂, Option.bind_eq_bind, Option.bind_some]

theorem vary_bit {k : Nat} (hk : k < fs.nbool)
    (h₁ : fs.varyNKnobs fuel inst n (fs.discStart + fs.nDisc + k + 1) = some out₁)
    (hset : fs.flipBit inst k = some inst₁)
    (h₂ : fs.varyNKnobs fuel inst₁ (n - 1) (fs.discStart + fs.nDisc + k + 1) = some out₂) :
    fs.varyNKnobs (fuel + 1) inst n (fs.discStart + fs.nDisc + k) = some (out₁ ++ out₂) := by
  unfold varyNKnobs
  rw [if_neg hn, hp.ontoZero, hp.nContin_eq, if_neg (Nat.not_lt_zero _), Nat.zero_add,
    if_neg (by omega), if_neg (by omega), if_pos (by omega)]
  simp only [Nat.add_sub_cancel_left, h₁, hset, h₂, Option.bind_eq_bind, Option.bind_some]

theorem vary_end (h : fs.rawSize ≤ start) : fs.varyNKnobs (fuel + 1) inst n start = some [] := by
  have hkinds := hp.kinds
  unfold varyNKnobs
  rw [if_neg hn, hp.ontoZero, hp.nContin_eq, if_neg (Nat.not_lt_zero _), Nat.zero_add,
    if_neg (by omega), if_neg (by omega), if_neg (by omega)]

end Call

/-! ## What a call has to write -/

/-- Legal, as the instance before a raw field, and with so many changes from it on. -/
structure Target (fs : FieldSet C) (bound : Nat → Nat) (inst : Instance) (n start : Nat)
    (t : Instance) : Prop where
  legal : fs.LegalBy bound t
  before : ∀ i < start, fs.getRaw t i = fs.getRaw inst i
  dist : fs.distFrom inst t start = n

theorem target_keep (hs : start < fs.rawSize) : fs.Target bound inst n (start + 1) t ↔
    fs.Target bound inst n start t ∧ fs.getRaw t start = fs.getRaw inst start := by
  constructor
  · intro h
    have hsame := h.before start (Nat.lt_succ_self _)
    refine ⟨⟨h.legal, fun i hi => h.before i (Nat.lt_succ_of_lt hi), ?_⟩, hsame⟩
    rw [distFrom_succ hs, if_pos hsame.symm, Nat.zero_add, h.dist]
  · rintro ⟨h, hsame⟩
    refine ⟨h.legal, fun i hi => ?_, ?_⟩
    · rcases Nat.lt_succ_iff_lt_or_eq.mp hi with hi | rfl
      · exact h.before i hi
      · exact hsame
    · have hdist := h.dist
      rwa [distFrom_succ hs, if_pos hsame.symm, Nat.zero_add] at hdist

theorem target_change (hs : start < fs.rawSize) (hn : n ≠ 0) (hw : fs.Wrote inst inst' start v)
    (hv : fs.getRaw inst start ≠ some v) : fs.Target bound inst' (n - 1) (start + 1) t ↔
      fs.Target bound inst n start t ∧ fs.getRaw t start = some v := by
  have hrest : fs.distFrom inst' t (start + 1) = fs.distFrom inst t (start + 1) :=
    distFrom_congr fun i hi => hw.other i (by omega)
  constructor
  · intro h
    have hself := h.before start (Nat.lt_succ_self _)
    rw [hw.self] at hself
    refine ⟨⟨h.legal, fun i hi => ?_, ?_⟩, hself⟩
    · rw [h.before i (Nat.lt_succ_of_lt hi), hw.other i (by omega)]
    · rw [distFrom_succ hs, if_neg (by rw [hself]; exact hv), ← hrest, h.dist]
      omega
  · rintro ⟨h, hself⟩
    refine ⟨h.legal, fun i hi => ?_, ?_⟩
    · rcases Nat.lt_succ_iff_lt_or_eq.mp hi with hi | rfl
      · rw [h.before i hi, hw.other i (by omega)]
      · rw [hself, hw.self]
    · have hdist := h.dist
      rw [distFrom_succ hs, if_neg (by rw [hself]; exact hv)] at hdist
      rw [hrest]
      omega

/-- From a stop on, a canonical encoding has only stops. -/
theorem stops_from (hl : fs.LegalBy bound t) (hin : fs.In start idx c)
    (hstop : fs.getRaw t start = some stop) {i : Nat} (hlo : start ≤ i)
    (hhi : i < fs.continToRawIdx idx + c.depth) : fs.getRaw t i = some stop := by
  obtain ⟨num, hat⟩ := hl.block hin.spec
  have hb := hin.lo
  have hle : num ≤ start - fs.continToRawIdx idx := by
    refine (hat.stop_iff (by have := hin.hi; omega)).mp ?_
    rwa [Nat.add_sub_cancel' hb]
  have := hat.stops (i - fs.continToRawIdx idx) (by omega) (by omega)
  rwa [Nat.add_sub_cancel' (by omega)] at this

/-- What changes when the rest of a continuous variable is stops. -/
theorem dist_stops (hp : fs.Plain) (hin : fs.In start idx c)
    (hat : fs.CanonicalAt inst (fs.continToRawIdx idx) c.depth num)
    (hstops : ∀ i, start ≤ i → i < fs.continToRawIdx idx + c.depth → fs.getRaw t i = some stop) :
    fs.distFrom inst t start = (num - (start - fs.continToRawIdx idx)) +
      fs.distFrom inst t (fs.continToRawIdx idx + c.depth) := by
  have hlo := hin.lo
  have hhi := hin.hi
  have hend := hin.end_le
  have hsize := hp.size
  have hnum := hat.le
  have hval : ∀ p, start + p = fs.continToRawIdx idx + (start - fs.continToRawIdx idx + p) := by
    intro p
    omega
  rw [distFrom_differ (k := num - (start - fs.continToRawIdx idx)) (by omega)]
  · congr 1
    rw [distFrom_same (k := fs.continToRawIdx idx + c.depth -
      (start + (num - (start - fs.continToRawIdx idx)))) (by omega)]
    · congr 1
      omega
    · intro p hp'
      rw [hstops _ (by omega) (by omega), Nat.add_assoc, hval]
      exact hat.stops _ (by omega) (by omega)
  · intro p hp'
    rw [hstops _ (by omega) (by omega), hval]
    exact hat.ne_stop (by omega)

theorem target_stops (hp : fs.Plain) (hin : fs.In start idx c)
    (hat : fs.CanonicalAt inst (fs.continToRawIdx idx) c.depth num)
    (hle : num - (start - fs.continToRawIdx idx) ≤ n)
    (hstops : ∀ i, start ≤ i → i < fs.continToRawIdx idx + c.depth → fs.getRaw inst' i = some stop)
    (hother : ∀ i, i < start ∨ fs.continToRawIdx idx + c.depth ≤ i →
      fs.getRaw inst' i = fs.getRaw inst i) :
    fs.Target bound inst' (n - (num - (start - fs.continToRawIdx idx)))
        (fs.continToRawIdx idx + c.depth) t ↔
      fs.Target bound inst n start t ∧ fs.getRaw t start = some stop := by
  have hhi := hin.hi
  have hrest : fs.distFrom inst' t (fs.continToRawIdx idx + c.depth) =
      fs.distFrom inst t (fs.continToRawIdx idx + c.depth) :=
    distFrom_congr fun i hi => hother i (.inr hi)
  constructor
  · intro h
    have hall : ∀ i, start ≤ i → i < fs.continToRawIdx idx + c.depth →
        fs.getRaw t i = some stop := by
      intro i hi hi'
      rw [h.before i hi', hstops i hi hi']
    refine ⟨⟨h.legal, fun i hi => ?_, ?_⟩, hall start le_rfl hhi⟩
    · rw [h.before i (by omega), hother i (.inl hi)]
    · rw [dist_stops hp hin hat hall, ← hrest, h.dist]
      omega
  · rintro ⟨h, hstop⟩
    have hall := fun i hi hi' => stops_from h.legal hin hstop (i := i) hi hi'
    refine ⟨h.legal, fun i hi => ?_, ?_⟩
    · by_cases hlt : i < start
      · rw [h.before i hlt, hother i (.inl hlt)]
      · rw [hall i (by omega) hi, hstops i (by omega) hi]
    · have hdist := h.dist
      rw [dist_stops hp hin hat hall] at hdist
      rw [hrest]
      omega

theorem target_far (hp : fs.Plain) (hin : fs.In start idx c)
    (hat : fs.CanonicalAt inst (fs.continToRawIdx idx) c.depth num)
    (hlt : n < num - (start - fs.continToRawIdx idx)) (h : fs.Target bound inst n start t) :
    fs.getRaw t start ≠ some stop := by
  intro hstop
  have hdist := h.dist
  rw [dist_stops hp hin hat fun i hi hi' => stops_from h.legal hin hstop hi hi'] at hdist
  omega

/-! ## Where a call is made -/

/-- The fields of the same variable before this one are no stops. -/
def Front (fs : FieldSet C) (inst : Instance) (start : Nat) : Prop :=
  ∀ idx c, fs.contin[idx]? = some c → fs.continToRawIdx idx ≤ start →
    start < fs.continToRawIdx idx + c.depth →
    ∀ i, fs.continToRawIdx idx ≤ i → i < start → fs.getRaw inst i ≠ some stop

theorem Front.zero : fs.Front inst 0 := fun _ _ _ _ _ _ _ hi => absurd hi (Nat.not_lt_zero _)

theorem Front.of_le (h : fs.discStart ≤ start) : fs.Front inst start := by
  intro idx c hc _ hhi
  have := (continToRawIdx_add_le hc).2
  omega

theorem Front.after (hin : fs.In start idx c) :
    fs.Front inst (fs.continToRawIdx idx + c.depth) := by
  intro idx' c' hc' hlo hhi i hi hi'
  rcases Nat.lt_trichotomy idx idx' with h | rfl | h
  · have := continToRawIdx_le hin.spec h
    omega
  · obtain rfl := Option.some.inj (hin.spec.symm.trans hc')
    omega
  · have := continToRawIdx_le hc' h
    omega

theorem Front.next (h : fs.Front inst start)
    (hother : ∀ i < start, fs.getRaw inst' i = fs.getRaw inst i)
    (hv : fs.getRaw inst' start ≠ some stop) : fs.Front inst' (start + 1) := by
  intro idx c hc hlo hhi i hi hi'
  rcases Nat.lt_succ_iff_lt_or_eq.mp hi' with hlt | rfl
  · rw [hother i hlt]
    exact h idx c hc (by omega) (by omega) i hi hlt
  · exact hv

theorem Front.le_num (h : fs.Front inst start) (hin : fs.In start idx c)
    (hat : fs.CanonicalAt inst (fs.continToRawIdx idx) c.depth num) :
    start - fs.continToRawIdx idx ≤ num := by
  by_contra hlt
  have hhi := hin.hi
  exact h idx c hin.spec hin.lo hhi (fs.continToRawIdx idx + num) (by omega) (by omega)
    (hat.stops num le_rfl (by omega))

theorem Wrote.trans {i u : Nat} (h : fs.Wrote inst inst₁ i u) (h' : fs.Wrote inst₁ inst₂ i v) :
    fs.Wrote inst inst₂ i v :=
  ⟨h'.length, h'.self, fun j hj => (h'.other j hj).trans (h.other j hj)⟩

theorem LegalBy.contin_value (h : fs.LegalBy bound inst) (hin : fs.In start idx c) :
    fs.getRaw inst start = some stop ∨ fs.getRaw inst start = some left ∨
      fs.getRaw inst start = some right := by
  obtain ⟨num, hat⟩ := h.block hin.spec
  have hlo := hin.lo
  have hhi := hin.hi
  have hval : fs.continToRawIdx idx + (start - fs.continToRawIdx idx) = start := by omega
  by_cases hlt : start - fs.continToRawIdx idx < num
  · exact .inr (hval ▸ hat.steps _ hlt)
  · exact .inl (hval ▸ hat.stops _ (Nat.not_lt.mp hlt) (by omega))

structure CallAt (fs : FieldSet C) (bound : Nat → Nat) (inst : Instance) (start : Nat) : Prop where
  legal : fs.LegalBy bound inst
  front : fs.Front inst start
  le : start ≤ fs.rawSize

theorem CallAt.next (h : fs.CallAt bound inst start) (hlt : start < fs.rawSize)
    (hl : fs.LegalBy bound inst') (hw : fs.Wrote inst inst' start v) (hv : v ≠ stop) :
    fs.CallAt bound inst' (start + 1) :=
  ⟨hl, h.front.next (fun i hi => hw.other i (by omega))
    (by rw [hw.self]; exact fun e => hv (Option.some.inj e)), hlt⟩

/-- Two instances are made of one with a stop, which is the first one of the variable. -/
structure AtStop (fs : FieldSet C) (bound : Nat → Nat) (inst inst₁ inst₂ : Instance)
    (start idx : Nat) (c : Spec C) (num : Nat) : Prop where
  canonical : fs.CanonicalAt inst (fs.continToRawIdx idx) c.depth num
  num_eq : start - fs.continToRawIdx idx = num
  set₁ : fs.setRaw inst start left = some inst₁
  set₂ : fs.setRaw inst₁ start right = some inst₂
  wrote₁ : fs.Wrote inst inst₁ start left
  wrote₂ : fs.Wrote inst inst₂ start right
  skip : fs.CallAt bound inst (fs.continToRawIdx idx + c.depth)
  call₁ : fs.CallAt bound inst₁ (start + 1)
  call₂ : fs.CallAt bound inst₂ (start + 1)

theorem CallAt.at_stop (h : fs.CallAt bound inst start) (hp : fs.Plain) (hin : fs.In start idx c)
    (hv : fs.getRaw inst start = some stop) :
    ∃ num inst₁ inst₂, fs.AtStop bound inst inst₁ inst₂ start idx c num := by
  obtain ⟨num, hat⟩ := h.legal.block hin.spec
  have hlo := hin.lo
  have hhi := hin.hi
  have hend := hin.end_le
  have hsize := hp.size
  have hval : fs.continToRawIdx idx + (start - fs.continToRawIdx idx) = start := by omega
  have hnum : start - fs.continToRawIdx idx = num :=
    Nat.le_antisymm (h.front.le_num hin hat) ((hat.stop_iff (by omega)).mp (hval.symm ▸ hv))
  obtain ⟨inst₁, hset₁, hw₁⟩ :=
    hp.writable hin.spec num (by omega) inst h.legal.length left (by decide)
  obtain ⟨inst₂, hset₂, hw₂⟩ := hp.writable hin.spec num (by omega) inst₁ hw₁.length right (by decide)
  have hcan₁ := hat.extend (by omega) hw₁ (.inl rfl)
  have hcan₂ := hcan₁.flip (Nat.lt_succ_self num) hw₂ (.inr rfl)
  have hstart : fs.continToRawIdx idx + num = start := by omega
  rw [hstart] at hset₁ hset₂ hw₁ hw₂
  have hl₁ := h.legal.contin_changed hw₁.length hin.spec (fun i hi => hw₁.other i (by omega)) hcan₁
  have hl₂ := hl₁.contin_changed hw₂.length hin.spec (fun i hi => hw₂.other i (by omega)) hcan₂
  exact ⟨num, inst₁, inst₂, hat, hnum, hset₁, hset₂, hw₁, hw₁.trans hw₂,
    ⟨h.legal, .after hin, by omega⟩, h.next (by omega) hl₁ hw₁ (by decide),
    h.next (by omega) hl₂ (hw₁.trans hw₂) (by decide)⟩

/-- Two instances are made of one with a step: the other step, and stops from here on. -/
structure AtStep (fs : FieldSet C) (bound : Nat → Nat) (inst inst₁ inst₂ : Instance)
    (start idx : Nat) (c : Spec C) (num v v' : Nat) : Prop where
  canonical : fs.CanonicalAt inst (fs.continToRawIdx idx) c.depth num
  lt : start - fs.continToRawIdx idx < num
  value : fs.getRaw inst start = some v
  steps : v = left ∧ v' = right ∨ v = right ∧ v' = left
  set₁ : fs.setRaw inst start v' = some inst₁
  wrote₁ : fs.Wrote inst inst₁ start v'
  keep : fs.CallAt bound inst (start + 1)
  call₁ : fs.CallAt bound inst₁ (start + 1)
  set₂ : fs.stopAll (num - (start - fs.continToRawIdx idx)) start inst₁ = some inst₂
  stops : ∀ i, start ≤ i → i < fs.continToRawIdx idx + c.depth → fs.getRaw inst₂ i = some stop
  other : ∀ i, i < start ∨ fs.continToRawIdx idx + c.depth ≤ i →
    fs.getRaw inst₂ i = fs.getRaw inst i
  call₂ : fs.CallAt bound inst₂ (fs.continToRawIdx idx + c.depth)

theorem AtStep.switch {v' : Nat} (h : fs.AtStep bound inst inst₁ inst₂ start idx c num v v') :
    switchLR v = some v' ∧ v ≠ stop ∧ v' ≠ stop ∧ v ≠ v' := by
  rcases h.steps with ⟨rfl, rfl⟩ | ⟨rfl, rfl⟩
  · exact ⟨rfl, by decide, by decide, by decide⟩
  · exact ⟨rfl, by decide, by decide, by decide⟩

theorem CallAt.at_step (h : fs.CallAt bound inst start) (hp : fs.Plain) (hin : fs.In start idx c)
    (hv : fs.getRaw inst start ≠ some stop) :
    ∃ num v v' inst₁ inst₂, fs.AtStep bound inst inst₁ inst₂ start idx c num v v' := by
  obtain ⟨num, hat⟩ := h.legal.block hin.spec
  have hlo := hin.lo
  have hhi := hin.hi
  have hend := hin.end_le
  have hsize := hp.size
  have hle := hat.le
  have hval : fs.continToRawIdx idx + (start - fs.continToRawIdx idx) = start := by omega
  have hrel : start - fs.continToRawIdx idx < num := by
    by_contra hge
    exact hv (hval ▸ (hat.stop_iff (by omega)).mpr (Nat.not_lt.mp hge))
  obtain ⟨v, v', hv', hsteps⟩ : ∃ v v', fs.getRaw inst start = some v ∧
      (v = left ∧ v' = right ∨ v = right ∧ v' = left) := by
    rcases h.legal.contin_value hin with e | e | e
    · exact absurd e hv
    · exact ⟨left, right, e, .inl ⟨rfl, rfl⟩⟩
    · exact ⟨right, left, e, .inr ⟨rfl, rfl⟩⟩
  have hstep : v' = left ∨ v' = right := by
    rcases hsteps with ⟨-, e⟩ | ⟨-, e⟩
    · exact .inr e
    · exact .inl e
  obtain ⟨inst₁, hset₁, hw₁⟩ := hp.writable hin.spec (start - fs.continToRawIdx idx) (by omega) inst
    h.legal.length v' (by rcases hstep with rfl | rfl <;> decide)
  have hcan₁ := hat.flip hrel hw₁ hstep
  rw [hval] at hset₁ hw₁
  have hl₁ := h.legal.contin_changed hw₁.length hin.spec (fun i hi => hw₁.other i (by omega)) hcan₁
  obtain ⟨inst₂, hall, hlen₂, hstops, hother⟩ := stopAll_spec (hp.writable hin.spec).stoppable
    (p := start - fs.continToRawIdx idx) (m := num - (start - fs.continToRawIdx idx)) (by omega)
    hw₁.length
  rw [hval] at hall hother
  have hother' : ∀ i, i < start ∨ start + (num - (start - fs.continToRawIdx idx)) ≤ i →
      fs.getRaw inst₂ i = fs.getRaw inst i := by
    intro i hi
    rw [hother i hi, hw₁.other i (by omega)]
  have hcan₂ : fs.CanonicalAt inst₂ (fs.continToRawIdx idx) c.depth
      (start - fs.continToRawIdx idx) := by
    refine ⟨by omega, fun p hp' => ?_, fun p hp' hp'' => ?_⟩
    · rw [hother' _ (by omega)]
      exact hat.steps p (by omega)
    · by_cases hin' : p < num
      · exact hstops p hp' (by omega)
      · rw [hother' _ (by omega)]
        exact hat.stops p (by omega) hp''
  have hl₂ := h.legal.contin_changed hlen₂ hin.spec (fun i hi => hother' i (by omega)) hcan₂
  have hstop₂ : fs.getRaw inst₂ start = some stop := hval ▸ hstops _ le_rfl (by omega)
  exact ⟨num, v, v', inst₁, inst₂, hat, hrel, hv', hsteps, hset₁, hw₁,
    ⟨h.legal, h.front.next (fun _ _ => rfl) hv, by omega⟩,
    h.next (by omega) hl₁ hw₁ (by rcases hstep with rfl | rfl <;> decide), hall,
    fun i hi hi' => stops_from hl₂ hin hstop₂ hi hi', fun i hi => hother' i (by omega),
    ⟨hl₂, .after hin, by omega⟩⟩

/-! ## The steps of the induction -/

/-- The calls with so much fuel write what they have to. -/
def Listed (fs : FieldSet C) (bound : Nat → Nat) (fuel : Nat) : Prop :=
  ∀ inst n start, fs.CallAt bound inst start → fs.rawSize - start < fuel →
    ∃ out, fs.varyNKnobs fuel inst n start = some out ∧
      Listing fs.raws (fs.Target bound inst n start) out

theorem ne_of_values {x y : Nat} (hs : start < fs.rawSize) (hxy : x ≠ y) {a b : Instance}
    (ha : fs.getRaw a start = some x) (hb : fs.getRaw b start = some y) : fs.raws a ≠ fs.raws b := by
  intro e
  have := raws_eq_iff.mp e start hs
  rw [ha, hb] at this
  exact hxy (Option.some.inj this)

/-- The values of the loop are those below the bound, without the one the variable has. -/
theorem mem_values {b x : Nat} (hvb : v < b) :
    x ∈ (List.range' 1 (b - 1)).map (fun i => if v = i then 0 else i) ↔ x < b ∧ x ≠ v := by
  rw [List.mem_map]
  constructor
  · rintro ⟨i, hi, rfl⟩
    have := List.mem_range'_1.mp hi
    split
    · omega
    · next hne => exact ⟨by omega, fun e => hne e.symm⟩
  · rintro ⟨hx, hne⟩
    by_cases hz : x = 0
    · exact ⟨v, List.mem_range'_1.mpr (by omega), by rw [if_pos rfl, hz]⟩
    · exact ⟨x, List.mem_range'_1.mpr (by omega), if_neg (Ne.symm hne)⟩

theorem nodup_values (v b : Nat) :
    ((List.range' 1 (b - 1)).map fun i => if v = i then 0 else i).Nodup := by
  refine List.Nodup.map_on (fun x hx y hy e => ?_) (List.nodup_range' ..)
  have := List.mem_range'_1.mp hx
  have := List.mem_range'_1.mp hy
  by_cases h₁ : v = x
  · by_cases h₂ : v = y
    · omega
    · rw [if_pos h₁, if_neg h₂] at e
      omega
  · by_cases h₂ : v = y
    · rw [if_neg h₁, if_pos h₂] at e
      omega
    · rwa [if_neg h₁, if_neg h₂] at e

section Steps
variable (hp : fs.Plain) (ih : fs.Listed bound fuel) (hn : n ≠ 0) (hcall : fs.CallAt bound inst start)
  (hfuel : fs.rawSize - start < fuel + 1)
include hp ih hn hcall hfuel

theorem listed_stop (hin : fs.In start idx c) (hv : fs.getRaw inst start = some stop) :
    ∃ out, fs.varyNKnobs (fuel + 1) inst n start = some out ∧
      Listing fs.raws (fs.Target bound inst n start) out := by
  obtain ⟨num, inst₁, inst₂, hat⟩ := hcall.at_stop hp hin hv
  have hlo := hin.lo
  have hhi := hin.hi
  have hend := hin.end_le
  have hlt : start < fs.rawSize := hat.call₁.le
  obtain ⟨out₁, h₁, hlist₁⟩ := ih inst n _ hat.skip (by omega)
  obtain ⟨out₂, h₂, hlist₂⟩ := ih inst₁ (n - 1) _ hat.call₁ (by omega)
  obtain ⟨out₃, h₃, hlist₃⟩ := ih inst₂ (n - 1) _ hat.call₂ (by omega)
  have hskip : ∀ t, fs.Target bound inst n (fs.continToRawIdx idx + c.depth) t ↔
      fs.Target bound inst n start t ∧ fs.getRaw t start = some stop := by
    intro t
    have hmoved : fs.Target bound inst (n - (num - (start - fs.continToRawIdx idx)))
        (fs.continToRawIdx idx + c.depth) t ↔
        fs.Target bound inst n start t ∧ fs.getRaw t start = some stop :=
      target_stops hp hin hat.canonical (by rw [hat.num_eq]; omega)
        (fun i hi hi' => stops_from hcall.legal hin hv hi hi') (fun _ _ => rfl)
    rwa [hat.num_eq, Nat.sub_self, Nat.sub_zero] at hmoved
  refine ⟨_, vary_stop hp hn hin hat.canonical hv h₁ hat.set₁ h₂ hat.set₂ h₃, ?_⟩
  have hl₂₃ := (hlist₂.congr fun t => target_change hlt hn hat.wrote₁ (by rw [hv]; decide)).append
    (hlist₃.congr fun t => target_change hlt hn hat.wrote₂ (by rw [hv]; decide))
    fun a b ha hb => ne_of_values hlt (by decide) ha.2 hb.2
  refine ((hlist₁.congr hskip).append hl₂₃ fun a b ha hb => ?_).congr fun t => ?_
  · rcases hb with hb | hb
    · exact ne_of_values hlt (by decide) ha.2 hb.2
    · exact ne_of_values hlt (by decide) ha.2 hb.2
  · rw [← and_or_left, ← and_or_left]
    exact and_iff_left_of_imp fun h => h.legal.contin_value hin

theorem listed_step (hin : fs.In start idx c) (hv : fs.getRaw inst start ≠ some stop) :
    ∃ out, fs.varyNKnobs (fuel + 1) inst n start = some out ∧
      Listing fs.raws (fs.Target bound inst n start) out := by
  obtain ⟨num, v, v', inst₁, inst₂, hat⟩ := hcall.at_step hp hin hv
  obtain ⟨hswitch, hvs, hvs', hne⟩ := hat.switch
  have hhi := hin.hi
  have hlt : start < fs.rawSize := hat.call₁.le
  obtain ⟨out₁, h₁, hlist₁⟩ := ih inst n _ hat.keep (by omega)
  obtain ⟨out₂, h₂, hlist₂⟩ := ih inst₁ (n - 1) _ hat.call₁ (by omega)
  obtain ⟨out₃, h₃, hlist₃⟩ := ih inst₂ (n - (num - (start - fs.continToRawIdx idx))) _ hat.call₂
    (by omega)
  refine ⟨_, vary_step hp hn hin hat.canonical hat.value hvs hswitch h₁ hat.set₁ h₂
    (fun _ => ⟨hat.set₂, h₃⟩), ?_⟩
  have hlist₁' := hlist₁.congr fun t => target_keep (t := t) hlt
  have hlist₂' := hlist₂.congr fun t => target_change (t := t) hlt hn hat.wrote₁
    (by rw [hat.value]; exact fun e => hne (Option.some.inj e))
  rw [hat.value] at hlist₁'
  have hvalues : ∀ t, fs.LegalBy bound t → fs.getRaw t start = some v ∨
      (fs.getRaw t start = some v' ∨ fs.getRaw t start = some stop) := by
    intro t ht
    have := ht.contin_value hin
    rcases hat.steps with ⟨rfl, rfl⟩ | ⟨rfl, rfl⟩
    · tauto
    · tauto
  by_cases hfar : num - (start - fs.continToRawIdx idx) ≤ n
  · rw [if_pos hfar]
    have hlist₃' := hlist₃.congr fun t =>
      target_stops (t := t) hp hin hat.canonical hfar hat.stops hat.other
    have hl₂₃ := hlist₂'.append hlist₃' fun a b ha hb => ne_of_values hlt hvs' ha.2 hb.2
    refine (hlist₁'.append hl₂₃ fun a b ha hb => ?_).congr fun t => ?_
    · rcases hb with hb | hb
      · exact ne_of_values hlt hne ha.2 hb.2
      · exact ne_of_values hlt hvs ha.2 hb.2
    · rw [← and_or_left, ← and_or_left]
      exact and_iff_left_of_imp fun h => hvalues t h.legal
  · rw [if_neg hfar, List.append_nil]
    refine (hlist₁'.append hlist₂' fun a b ha hb => ne_of_values hlt hne ha.2 hb.2).congr
      fun t => ?_
    rw [← and_or_left]
    refine and_iff_left_of_imp fun h => ?_
    have hnot := target_far hp hin hat.canonical (by omega) h
    have := hvalues t h.legal
    tauto

/-- How many values are tried for a discrete variable, the one it has included. -/
def offered (fs : FieldSet C) (j : Nat) : Option Nat :=
  if fs.nDisc ≤ j then some 2 else fs.arity (fs.discStart + j)

omit hp ih hn hcall hfuel in
/-- The loop over the values, which leave the rest of the instance as it is. -/
theorem varyDisc_listing {next : Instance → Option (List Instance)} {i : Nat}
    {S : Nat → Instance → Prop} {base : Instance} {is : List Nat}
    (hstep : ∀ x ∈ is.map (fun i => if v = i then 0 else i), ∀ inst,
      inst.length = fs.packedWidth → (∀ k, k ≠ i → fs.getRaw inst k = fs.getRaw base k) →
      ∃ inst', fs.setRaw inst i x = some inst' ∧ inst'.length = fs.packedWidth ∧
        (∀ k, k ≠ i → fs.getRaw inst' k = fs.getRaw base k) ∧
        ∃ out, next inst' = some out ∧ Listing fs.raws (S x) out)
    (hnodup : (is.map fun i => if v = i then 0 else i).Nodup)
    (hdis : ∀ x y a b, S x a → S y b → x ≠ y → fs.raws a ≠ fs.raws b)
    (hlen : inst.length = fs.packedWidth) (hbase : ∀ k, k ≠ i → fs.getRaw inst k = fs.getRaw base k) :
    ∃ out, fs.varyDisc next i v is inst = some out ∧
      Listing fs.raws (fun t => ∃ x ∈ is.map (fun i => if v = i then 0 else i), S x t) out := by
  induction is generalizing inst with
  | nil => exact ⟨[], rfl, .nil fun t ⟨_, hx, _⟩ => by cases hx⟩
  | cons j is ihs =>
    obtain ⟨hj, hnodup⟩ := List.nodup_cons.mp hnodup
    obtain ⟨inst', hset, hlen', hbase', out, hnext, hlist⟩ :=
      hstep _ List.mem_cons_self inst hlen hbase
    obtain ⟨rest, hrest, hlist'⟩ :=
      ihs (fun x hx => hstep x (List.mem_cons_of_mem _ hx)) hnodup hlen' hbase'
    refine ⟨out ++ rest, ?_, ?_⟩
    · rw [varyDisc, hset, Option.bind_some, hnext, Option.bind_some, hrest, Option.map_some]
    · refine (hlist.append hlist' fun a b ha hb => ?_).congr fun t => ?_
      · obtain ⟨y, hy, hb⟩ := hb
        exact hdis _ y a b ha hb fun e => hj (e ▸ hy)
      · rw [List.map_cons, List.exists_mem_cons_iff]

variable (ho : ∀ j < fs.discAndBits.length,
  fs.offered j = some (bound j) ∧ bound j ≤ fs.capacity j) (hr : fs.Readable)
include ho hr

theorem listed_disc {j : Nat} (hj : j < fs.nDisc) (hstart : start = fs.discStart + j) :
    ∃ out, fs.varyNKnobs (fuel + 1) inst n start = some out ∧
      Listing fs.raws (fs.Target bound inst n start) out := by
  subst hstart
  have hsize := hp.size
  have hndisc := hp.nDisc_add
  have hjl : j < fs.discAndBits.length := by omega
  have hlt : fs.discStart + j < fs.rawSize := by omega
  obtain ⟨v, hvb, hv⟩ := hcall.legal.disc j hjl
  obtain ⟨hoff, hcap⟩ := ho j hjl
  rw [offered, if_neg (by omega)] at hoff
  have hmem := fun x => mem_values (x := x) hvb
  obtain ⟨out₁, h₁, hlist₁⟩ := ih inst n (fs.discStart + j + 1)
    ⟨hcall.legal, .of_le (by omega), hlt⟩ (by omega)
  have hvaried : ∃ out, fs.varyDisc
      (fun inst => fs.varyNKnobs fuel inst (n - 1) (fs.discStart + j + 1))
      (fs.discStart + j) v (List.range' 1 (bound j - 1)) inst = some out ∧
      Listing fs.raws (fun t => ∃ x ∈ (List.range' 1 (bound j - 1)).map
          (fun i => if v = i then 0 else i),
        fs.Target bound inst n (fs.discStart + j) t ∧
          fs.getRaw t (fs.discStart + j) = some x) out := varyDisc_listing
    (fun x hx inst' hlen hbase => by
      obtain ⟨hxb, hxv⟩ := (hmem x).mp hx
      obtain ⟨inst'', hset, hw⟩ := hp.write_disc hr hjl hlen x
      rw [Nat.mod_eq_of_lt (by omega)] at hw
      have hw' : fs.Wrote inst inst'' (fs.discStart + j) x :=
        ⟨hw.length, hw.self, fun k hk => (hw.other k hk).trans (hbase k hk)⟩
      obtain ⟨out, hout, hlist⟩ := ih inst'' (n - 1) (fs.discStart + j + 1)
        ⟨hcall.legal.disc_changed hxb hw', .of_le (by omega), hlt⟩ (by omega)
      exact ⟨inst'', hset, hw'.length, hw'.other, out, hout, hlist.congr fun t =>
        target_change hlt hn hw' (by rw [hv]; exact fun e => hxv (Option.some.inj e).symm)⟩)
    (nodup_values v _) (fun x y a b ha hb hxy => ne_of_values hlt hxy ha.2 hb.2) hcall.legal.length
    (fun _ _ => rfl)
  obtain ⟨out₂, h₂, hlist₂⟩ := hvaried
  refine ⟨_, vary_disc hp hn hj hv h₁ hoff h₂, ?_⟩
  have hlist₁' := hlist₁.congr fun t => target_keep (t := t) hlt
  rw [hv] at hlist₁'
  refine (hlist₁'.append hlist₂ fun a b ha hb => ?_).congr fun t => ?_
  · obtain ⟨x, hx, hb⟩ := hb
    exact ne_of_values hlt (Ne.symm ((hmem x).mp hx).2) ha.2 hb.2
  · constructor
    · rintro (h | ⟨_, _, h⟩)
      · exact h.1
      · exact h.1
    · intro h
      obtain ⟨y, hyb, hy⟩ := h.legal.disc j hjl
      by_cases e : y = v
      · exact .inl ⟨h, e ▸ hy⟩
      · exact .inr ⟨y, (hmem y).mpr ⟨hyb, e⟩, h, hy⟩

omit hr in
theorem listed_bit {k : Nat} (hk : k < fs.nbool) (hstart : start = fs.discStart + fs.nDisc + k) :
    ∃ out, fs.varyNKnobs (fuel + 1) inst n start = some out ∧
      Listing fs.raws (fs.Target bound inst n start) out := by
  subst hstart
  have hsize := hp.size
  have hndisc := hp.nDisc_add
  have hjl : fs.nDisc + k < fs.discAndBits.length := by omega
  have hlt : fs.discStart + fs.nDisc + k < fs.rawSize := by omega
  obtain ⟨v, hvb, hv⟩ := hcall.legal.disc _ hjl
  obtain ⟨hoff, -⟩ := ho _ hjl
  rw [offered, if_pos (Nat.le_add_right ..)] at hoff
  have hbound := Option.some.inj hoff
  rw [← Nat.add_assoc] at hv
  obtain ⟨hv2, inst₁, hset, hw⟩ := hp.flip hk hcall.legal.length hv
  have hl₁ := hcall.legal.disc_changed (j := fs.nDisc + k) (v := 1 - v) (by omega)
    (by rw [← Nat.add_assoc]; exact hw)
  obtain ⟨out₁, h₁, hlist₁⟩ := ih inst n (fs.discStart + fs.nDisc + k + 1)
    ⟨hcall.legal, .of_le (by omega), hlt⟩ (by omega)
  obtain ⟨out₂, h₂, hlist₂⟩ := ih inst₁ (n - 1) (fs.discStart + fs.nDisc + k + 1)
    ⟨hl₁, .of_le (by omega), hlt⟩ (by omega)
  refine ⟨_, vary_bit hp hn hk h₁ hset h₂, ?_⟩
  have hne : v ≠ 1 - v := by omega
  have hlist₁' := hlist₁.congr fun t => target_keep (t := t) hlt
  have hlist₂' := hlist₂.congr fun t => target_change (t := t) hlt hn hw
    (by rw [hv]; exact fun e => hne (Option.some.inj e))
  rw [hv] at hlist₁'
  refine (hlist₁'.append hlist₂' fun a b ha hb => ne_of_values hlt hne ha.2 hb.2).congr fun t => ?_
  rw [← and_or_left]
  refine and_iff_left_of_imp fun h => ?_
  obtain ⟨y, hyb, hy⟩ := h.legal.disc _ hjl
  rw [← Nat.add_assoc] at hy
  rw [hy, Option.some_inj, Option.some_inj]
  omega

end Steps

/-- The recursion writes what it has to, with the values it tries. -/
theorem vary_listed (hp : fs.Plain) (hr : fs.Readable) (ho : ∀ j < fs.discAndBits.length,
    fs.offered j = some (bound j) ∧ bound j ≤ fs.capacity j) (fuel : Nat) :
    fs.Listed bound fuel := by
  induction fuel with
  | zero => exact fun _ _ _ _ hfuel => absurd hfuel (Nat.not_lt_zero _)
  | succ fuel ih =>
    intro inst n start hcall hfuel
    have hle := hcall.le
    have hsize := hp.size
    have hndisc := hp.nDisc_add
    by_cases hn : n = 0
    · subst hn
      refine ⟨[inst], vary_zero, .singleton ⟨hcall.legal, fun _ _ => rfl, ?_⟩ fun t ht => ?_⟩
      · exact distFrom_eq_zero.mpr fun _ _ _ => rfl
      · refine raws_eq_iff.mpr fun i hi => ?_
        by_cases hlt : i < start
        · exact ht.before i hlt
        · exact (distFrom_eq_zero.mp ht.dist i (Nat.not_lt.mp hlt) hi).symm
    · by_cases hend : start = fs.rawSize
      · refine ⟨[], vary_end hp hn (Nat.le_of_eq hend.symm), .nil fun t ht => hn ?_⟩
        rw [← ht.dist, hend]
        exact distFrom_eq_zero.mpr fun i hi hi' => by omega
      · by_cases hD : start < fs.discStart
        · obtain ⟨idx, c, hin⟩ := hp.mem_block hD
          by_cases hv : fs.getRaw inst start = some stop
          · exact listed_stop hp ih hn hcall hfuel hin hv
          · exact listed_step hp ih hn hcall hfuel hin hv
        · by_cases hj : start - fs.discStart < fs.nDisc
          · exact listed_disc hp ih hn hcall hfuel ho hr hj (by omega)
          · exact listed_bit hp ih hn hcall hfuel ho (k := start - fs.discStart - fs.nDisc)
              (by omega) (by omega)

/-! ## Exactness -/

/-- How many values a discrete variable has. -/
def valuesAt (fs : FieldSet C) (j : Nat) : Nat := (fs.discAndBits[j]?.map Spec.values).getD 0

/-- Canonical encodings and legal discrete values. -/
def Legal (fs : FieldSet C) (inst : Instance) : Prop := fs.LegalBy fs.valuesAt inst

/-- From every legal centre and at every distance the legal instances at that distance are
written, each once; instances are what is read from their raw fields. -/
def Exact (fs : FieldSet C) : Prop :=
  ∀ center, fs.Legal center → ∀ n, ∃ out,
    (∀ room, out.length ≤ room → fs.generateAllInNeighborhood n room center = some out) ∧
    Listing fs.raws (fun t => fs.Legal t ∧ fs.hammingDistance center t = n) out

/-- For every discrete variable as many values are tried as it has, of those that its field
holds. -/
def RightValues (fs : FieldSet C) : Prop :=
  ∀ j < fs.discAndBits.length, fs.offered j = some (min (fs.valuesAt j) (fs.capacity j))

theorem LegalBy.readable (hp : fs.Plain) (h : fs.LegalBy bound inst) : fs.Readable := by
  intro f hf
  obtain ⟨i, hi⟩ := List.mem_iff_getElem?.mp hf
  have hlt : i < fs.rawSize := (List.getElem?_eq_some_iff.mp hi).1
  have hsize := hp.size
  by_cases hD : i < fs.discStart
  · obtain ⟨g, hg, hwidth, -⟩ := hp.contin i hD
    obtain rfl := Option.some.inj (hi.symm.trans hg)
    rw [hwidth]
    decide
  · obtain ⟨v, -, hv⟩ := h.disc (i - fs.discStart) (by omega)
    rw [Nat.add_sub_cancel' (Nat.not_lt.mp hD), getRaw, hi, Option.bind_some] at hv
    obtain ⟨x, -, hx⟩ := Option.bind_eq_some_iff.mp hv
    by_contra hw
    rw [if_neg hw] at hx
    cases hx

theorem LegalBy.mono {bound' : Nat → Nat} (h : fs.LegalBy bound inst)
    (hb : ∀ j < fs.discAndBits.length, ∀ v < bound j,
      fs.getRaw inst (fs.discStart + j) = some v → v < bound' j) : fs.LegalBy bound' inst := by
  refine ⟨h.length, h.contin, fun j hj => ?_⟩
  obtain ⟨v, hvb, hv⟩ := h.disc j hj
  exact ⟨v, hb j hj v hvb hv, hv⟩

theorem target_zero : fs.Target bound inst n 0 t ↔
    fs.LegalBy bound t ∧ fs.hammingDistance inst t = n := by
  rw [hammingDistance_eq]
  exact ⟨fun h => ⟨h.legal, h.dist⟩, fun h => ⟨h.1, fun _ hi => absurd hi (Nat.not_lt_zero _), h.2⟩⟩

theorem exact_of_rightValues (hp : fs.Plain) (h : fs.Readable → fs.RightValues) : fs.Exact := by
  intro center hl n
  have hr := hl.readable hp
  let bound := fun j => min (fs.valuesAt j) (fs.capacity j)
  have hiff : ∀ t, fs.LegalBy bound t ↔ fs.Legal t := by
    intro t
    constructor
    · exact fun ht => ht.mono fun j _ v hv _ => Nat.lt_of_lt_of_le hv (Nat.min_le_left ..)
    · intro ht
      refine ht.mono fun j hj v hvb hv => ?_
      obtain ⟨v', hv', hread⟩ := hp.read_disc hr hj ht.length
      obtain rfl := Option.some.inj (hv.symm.trans hread)
      exact Nat.lt_min.mpr ⟨hvb, hv'⟩
  obtain ⟨out, hout, hlist⟩ := vary_listed hp hr
    (fun j hj => ⟨h hr j hj, Nat.min_le_right ..⟩) (fs.rawSize + 1) center n 0
    ⟨(hiff center).mpr hl, .zero, Nat.zero_le _⟩ (Nat.lt_succ_self _)
  refine ⟨out, fun room hroom => ?_, hlist.congr fun t => ?_⟩
  · rw [generateAllInNeighborhood, if_pos hl.length, hout, Option.bind_some, if_pos hroom]
  · rw [target_zero, hiff]

/-! ## The values that are tried can be seen at distance one from the instance of zeros -/

def zeros (fs : FieldSet C) : Instance := List.replicate fs.packedWidth 0

theorem read_zeros (hp : fs.Plain) (hr : fs.Readable) {i : Nat} (hi : i < fs.rawSize) :
    fs.getRaw fs.zeros i = some 0 := by
  obtain ⟨f, hf⟩ : ∃ f, fs.fields[i]? = some f := ⟨_, List.getElem?_eq_getElem hi⟩
  have hmem := List.mem_of_getElem? hf
  have hmaj := majorOffset_lt hp.successive.before hp.successive.minor hmem
  have hx : fs.zeros[f.majorOffset]? = some 0 := by
    rw [zeros, List.getElem?_replicate, if_pos hmaj]
  rw [getRaw_eq hf hx (hr f hmem)]
  simp [BitField.get]

theorem zeros_legalBy (hp : fs.Plain) (hr : fs.Readable)
    (hpos : ∀ j < fs.discAndBits.length, 0 < bound j) : fs.LegalBy bound fs.zeros := by
  have hsize := hp.size
  refine ⟨List.length_replicate, fun idx hidx => ?_, fun j hj => ?_⟩
  · refine ⟨_, 0, List.getElem?_eq_getElem hidx, Nat.zero_le _, nofun, fun p _ hp' => ?_⟩
    have := (continToRawIdx_add_le (List.getElem?_eq_getElem hidx)).2
    exact read_zeros hp hr (by omega)
  · exact ⟨0, hpos j hj, read_zeros hp hr (by omega)⟩

theorem hammingDistance_wrote {i : Nat} (hi : i < fs.rawSize) (hw : fs.Wrote inst inst' i v)
    (hv : fs.getRaw inst i ≠ some v) : fs.hammingDistance inst inst' = 1 := by
  have hrest : fs.distFrom inst inst' (i + 1) = 0 :=
    distFrom_eq_zero.mpr fun k hk _ => (hw.other k (by omega)).symm
  rw [hammingDistance_eq, distFrom_same (k := i) (by omega) fun p hp => by
    rw [hw.other _ (by omega)], Nat.zero_add, distFrom_succ hi, hrest, hw.self, if_neg hv]

/-- What one pass of the loop over the values writes is among what the loop writes. -/
theorem mem_varyDisc {next : Instance → Option (List Instance)} {x : Nat} {is : List Nat}
    (hp : fs.Plain) (hr : fs.Readable) {j : Nat} (hj : j < fs.discAndBits.length)
    (hlen : inst.length = fs.packedWidth)
    (h : fs.varyDisc next (fs.discStart + j) v is inst = some out)
    (hx : x ∈ is) : ∃ inst' rest, fs.Wrote inst inst' (fs.discStart + j)
        ((if v = x then 0 else x) % fs.capacity j) ∧ next inst' = some rest ∧ ∀ w ∈ rest, w ∈ out := by
  induction is generalizing inst out with
  | nil => cases hx
  | cons k is ih =>
    obtain ⟨inst', hset, hw⟩ := hp.write_disc hr hj hlen (if v = k then 0 else k)
    rw [varyDisc, hset, Option.bind_some] at h
    obtain ⟨first, hnext, h⟩ := Option.bind_eq_some_iff.mp h
    obtain ⟨rest, hrest, rfl⟩ := Option.map_eq_some_iff.mp h
    rcases List.mem_cons.mp hx with rfl | hx
    · exact ⟨inst', first, hw, hnext, fun w hw => List.mem_append_left _ hw⟩
    · obtain ⟨inst'', rest', hw', hnext', hsub⟩ := ih hw.length hrest hx
      exact ⟨inst'', rest', ⟨hw'.length, hw'.self, fun k hk => (hw'.other k hk).trans (hw.other k hk)⟩,
        hnext', fun w hw => List.mem_append_right _ (hsub w hw)⟩

/-- Every value offered for a discrete variable is written to it, cut to the field. -/
def Tries (fs : FieldSet C) (j : Nat) (out : List Instance) : Prop :=
  ∃ r, fs.offered j = some r ∧ ∀ x, 1 ≤ x → x < r →
    ∃ w ∈ out, fs.Wrote fs.zeros w (fs.discStart + j) (x % fs.capacity j)

theorem Tries.mono {j : Nat} {out' : List Instance} (h : fs.Tries j out)
    (hsub : ∀ w ∈ out, w ∈ out') : fs.Tries j out' := by
  obtain ⟨r, hoff, hall⟩ := h
  refine ⟨r, hoff, fun x hx hxr => ?_⟩
  obtain ⟨w, hw, hwrote⟩ := hall x hx hxr
  exact ⟨w, hsub w hw, hwrote⟩

theorem length_zeros (fs : FieldSet C) : fs.zeros.length = fs.packedWidth := List.length_replicate

/-- A call on the zeros passes a continuous variable, which is all stops. -/
theorem vary_skips (hp : fs.Plain) (hr : fs.Readable) (hD : start < fs.discStart)
    (h : fs.varyNKnobs (fuel + 1) fs.zeros 1 start = some out) :
    ∃ next skipped, next ≤ fs.discStart ∧ fs.varyNKnobs fuel fs.zeros 1 next = some skipped ∧
      ∀ w ∈ skipped, w ∈ out := by
  have hsize := hp.size
  obtain ⟨idx, c, hin⟩ := hp.mem_block hD
  obtain ⟨num, hat⟩ := (show fs.LegalBy (fun _ => 1) fs.zeros from
    zeros_legalBy hp hr fun _ _ => Nat.one_pos).block hin.spec
  have hnum : fs.countNBeforeStop fs.zeros idx = some num := by
    rw [countNBeforeStop, hin.spec, Option.bind_some, hat.beforeStop_eq]
  have hv : fs.getRaw fs.zeros start = some stop := read_zeros hp hr (by omega)
  unfold varyNKnobs at h
  rw [if_neg Nat.one_ne_zero, hp.ontoZero, hp.nContin_eq, if_neg (Nat.not_lt_zero _),
    Nat.zero_add, if_pos hD] at h
  simp only [hin.idx_eq, hin.spec, hnum, hv, hin.end_eq, Option.bind_eq_bind, Option.bind_some,
    if_true] at h
  obtain ⟨skipped, hskip, h⟩ := Option.bind_eq_some_iff.mp h
  obtain ⟨_, -, h⟩ := Option.bind_eq_some_iff.mp h
  obtain ⟨_, -, h⟩ := Option.bind_eq_some_iff.mp h
  obtain ⟨_, -, h⟩ := Option.bind_eq_some_iff.mp h
  obtain ⟨_, -, h⟩ := Option.bind_eq_some_iff.mp h
  obtain rfl := Option.some.inj h
  exact ⟨_, skipped, hin.end_le, hskip, fun w hw => List.mem_append_left _ hw⟩

/-- A call on the zeros passes a discrete variable, or writes its values. -/
theorem vary_values (hp : fs.Plain) (hr : fs.Readable) {i : Nat} (hi : i < fs.nDisc)
    (h : fs.varyNKnobs (fuel + 1) fs.zeros 1 (fs.discStart + i) = some out) :
    (∃ kept, fs.varyNKnobs fuel fs.zeros 1 (fs.discStart + i + 1) = some kept ∧
      ∀ w ∈ kept, w ∈ out) ∧ fs.Tries i out := by
  have hsize := hp.size
  have hndisc := hp.nDisc_add
  have hv : fs.getRaw fs.zeros (fs.discStart + i) = some 0 := read_zeros hp hr (by omega)
  unfold varyNKnobs at h
  rw [if_neg Nat.one_ne_zero, hp.ontoZero, hp.nContin_eq, if_neg (Nat.not_lt_zero _),
    Nat.zero_add, if_neg (by omega), if_pos (by omega), hv] at h
  simp only [Option.bind_eq_bind, Option.bind_some] at h
  obtain ⟨kept, hkept, h⟩ := Option.bind_eq_some_iff.mp h
  obtain ⟨r, har, h⟩ := Option.bind_eq_some_iff.mp h
  obtain ⟨varied, hvaried, h⟩ := Option.bind_eq_some_iff.mp h
  obtain rfl := Option.some.inj h
  refine ⟨⟨kept, hkept, fun w hw => List.mem_append_left _ hw⟩, r,
    by rw [offered, if_neg (by omega), har], fun x hx hxr => ?_⟩
  obtain ⟨inst', rest, hw, hnext, hsub⟩ := mem_varyDisc (x := x) hp hr (by omega) fs.length_zeros
    hvaried (List.mem_range'_1.mpr ⟨hx, by omega⟩)
  rw [if_neg (by omega)] at hw
  cases fuel with
  | zero => cases hnext
  | succ fuel =>
    obtain rfl := Option.some.inj hnext
    exact ⟨inst', List.mem_append_right _ (hsub _ List.mem_cons_self), hw⟩

/-- A call on the zeros passes a bit, or flips it. -/
theorem vary_flips (hp : fs.Plain) (hr : fs.Readable) {k : Nat} (hk : k < fs.nbool)
    (h : fs.varyNKnobs (fuel + 1) fs.zeros 1 (fs.discStart + (fs.nDisc + k)) = some out) :
    (∃ kept, fs.varyNKnobs fuel fs.zeros 1 (fs.discStart + (fs.nDisc + k) + 1) = some kept ∧
      ∀ w ∈ kept, w ∈ out) ∧ fs.Tries (fs.nDisc + k) out := by
  have hsize := hp.size
  have hndisc := hp.nDisc_add
  have hv : fs.getRaw fs.zeros (fs.discStart + (fs.nDisc + k)) = some 0 :=
    read_zeros hp hr (by omega)
  rw [← Nat.add_assoc] at h hv ⊢
  unfold varyNKnobs at h
  rw [if_neg Nat.one_ne_zero, hp.ontoZero, hp.nContin_eq, if_neg (Nat.not_lt_zero _),
    Nat.zero_add, if_neg (by omega), if_neg (by omega), if_pos (by omega)] at h
  simp only [Option.bind_eq_bind, Nat.add_sub_cancel_left] at h
  obtain ⟨kept, hkept, h⟩ := Option.bind_eq_some_iff.mp h
  obtain ⟨inst', hflip, h⟩ := Option.bind_eq_some_iff.mp h
  obtain ⟨flipped, hflipped, h⟩ := Option.bind_eq_some_iff.mp h
  obtain rfl := Option.some.inj h
  obtain ⟨-, inst'', hflip', hw⟩ := hp.flip (v := 0) hk fs.length_zeros hv
  rw [hflip'] at hflip
  obtain rfl := Option.some.inj hflip
  refine ⟨⟨kept, hkept, fun w hw => List.mem_append_left _ hw⟩, 2,
    by rw [offered, if_pos (by omega)], fun x hx hxr => ?_⟩
  obtain rfl : x = 1 := by omega
  cases fuel with
  | zero => cases hflipped
  | succ fuel =>
    obtain rfl := Option.some.inj hflipped
    rw [hp.capacity_bit hk, ← Nat.add_assoc]
    exact ⟨inst'', List.mem_append_right _ List.mem_cons_self, hw⟩

theorem tried_of_vary (hp : fs.Plain) (hr : fs.Readable) {j : Nat}
    (hj : j < fs.discAndBits.length) (hstart : start ≤ fs.discStart + j)
    (h : fs.varyNKnobs fuel fs.zeros 1 start = some out) : fs.Tries j out := by
  induction fuel generalizing start out with
  | zero => cases h
  | succ fuel ih =>
    have hndisc := hp.nDisc_add
    by_cases hD : start < fs.discStart
    · obtain ⟨next, skipped, hle, hskip, hsub⟩ := vary_skips hp hr hD h
      exact (ih (by omega) hskip).mono hsub
    obtain ⟨i, rfl⟩ := Nat.exists_eq_add_of_le (Nat.not_lt.mp hD)
    obtain ⟨⟨kept, hkept, hsub⟩, htries⟩ : (∃ kept,
        fs.varyNKnobs fuel fs.zeros 1 (fs.discStart + i + 1) = some kept ∧ ∀ w ∈ kept, w ∈ out) ∧
        fs.Tries i out := by
      by_cases hdisc : i < fs.nDisc
      · exact vary_values hp hr hdisc h
      · obtain ⟨k, rfl⟩ := Nat.exists_eq_add_of_le (Nat.not_lt.mp hdisc)
        exact vary_flips hp hr (by omega) h
    by_cases e : i = j
    · exact e ▸ htries
    · exact (ih (by omega) hkept).mono hsub

/-- Something is read as the number of values of a variable. -/
theorem offered_pos (hp : fs.Plain) {j r : Nat} (h : fs.offered j = some r) : 0 < r := by
  unfold offered at h
  split at h
  · obtain rfl := Option.some.inj h
    exact Nat.zero_lt_two
  · unfold arity at h
    rw [hp.noOnto, List.length_nil, if_neg (Nat.not_lt_zero _)] at h
    split at h
    · obtain rfl := Option.some.inj h
      exact Nat.zero_lt_succ 2
    · obtain ⟨s, hs, rfl⟩ := Option.map_eq_some_iff.mp h
      exact (hp.values s (List.mem_of_getElem? hs)).1

theorem valuesAt_pos (hp : fs.Plain) {j : Nat} (hj : j < fs.discAndBits.length) :
    0 < fs.valuesAt j := by
  rw [valuesAt, List.getElem?_eq_getElem hj]
  exact (hp.values _ (List.getElem_mem hj)).1

/-- No value is tried that the field does not hold: it would be written as no change. -/
theorem offered_le_capacity (hp : fs.Plain) (hr : fs.Readable)
    (hvary : fs.varyNKnobs fuel fs.zeros 1 0 = some out)
    (hdist : ∀ w ∈ out, fs.hammingDistance fs.zeros w = 1) {j : Nat}
    (hj : j < fs.discAndBits.length) : ∃ r, fs.offered j = some r ∧ r ≤ fs.capacity j := by
  have hsize := hp.size
  obtain ⟨r, hoff, hall⟩ := tried_of_vary hp hr hj (Nat.zero_le _) hvary
  refine ⟨r, hoff, ?_⟩
  by_contra hlt
  obtain ⟨v, hv, -⟩ := hp.read_disc hr hj fs.length_zeros
  obtain ⟨w, hw, hwrote⟩ := hall (fs.capacity j) (by omega) (by omega)
  rw [Nat.mod_self] at hwrote
  have hsame : fs.hammingDistance fs.zeros w = 0 := by
    rw [hammingDistance_eq, distFrom_eq_zero]
    intro i _ hi
    by_cases e : i = fs.discStart + j
    · rw [e, hwrote.self, read_zeros hp hr (by omega)]
    · exact (hwrote.other i e).symm
  rw [hdist w hw] at hsame
  cases hsame

/-- An instance of zeros with one other value. -/
theorem exists_changed (hp : fs.Plain) (hr : fs.Readable) {j x : Nat}
    (hj : j < fs.discAndBits.length) (hx : 0 < x) (hxc : x < fs.capacity j) :
    ∃ t, fs.Wrote fs.zeros t (fs.discStart + j) x ∧ fs.hammingDistance fs.zeros t = 1 := by
  have hsize := hp.size
  obtain ⟨t, -, hw⟩ := hp.write_disc hr hj fs.length_zeros x
  rw [Nat.mod_eq_of_lt hxc] at hw
  refine ⟨t, hw, hammingDistance_wrote (by omega) hw ?_⟩
  rw [read_zeros hp hr (by omega)]
  exact fun e => Nat.ne_of_lt hx (Option.some.inj e)

/-- A legal instance that reads as a written one holds the value within its bound. -/
theorem lt_of_wrote (hp : fs.Plain) {j x : Nat} {b : Instance} (hj : j < fs.discAndBits.length)
    (hw : fs.Wrote fs.zeros t (fs.discStart + j) x) (hraws : fs.raws b = fs.raws t)
    (hb : fs.LegalBy bound b) : x < bound j := by
  have hsize := hp.size
  obtain ⟨v, hv, hvb⟩ := hb.disc j hj
  rw [raws_eq_iff.mp hraws _ (by omega), hw.self] at hvb
  exact Option.some.inj hvb ▸ hv

theorem vary_of_generate (hgen : fs.generateAllInNeighborhood n out.length inst = some out)
    (hlen : inst.length = fs.packedWidth) :
    fs.varyNKnobs (fs.rawSize + 1) inst n 0 = some out := by
  rw [generateAllInNeighborhood, if_pos hlen] at hgen
  obtain ⟨out', hout, hroom⟩ := Option.bind_eq_some_iff.mp hgen
  split at hroom
  · rw [hout, hroom]
  · cases hroom

theorem rightValues_of_exact (hp : fs.Plain) (hr : fs.Readable) (h : fs.Exact) :
    fs.RightValues := by
  have hlegal : fs.Legal fs.zeros := zeros_legalBy hp hr fun _ hj => valuesAt_pos hp hj
  obtain ⟨out, hgen, hlist⟩ := h fs.zeros hlegal 1
  have hvary := vary_of_generate (hgen out.length le_rfl) hlegal.length
  let bound := fun j => (fs.offered j).getD 0
  have ho : ∀ j < fs.discAndBits.length,
      fs.offered j = some (bound j) ∧ bound j ≤ fs.capacity j ∧ 0 < bound j := by
    intro j hj
    obtain ⟨r, hoff, hle⟩ := offered_le_capacity hp hr hvary (fun w hw => (hlist.sound w hw).2) hj
    have hb : bound j = r := by simp only [bound, hoff, Option.getD_some]
    rw [hb]
    exact ⟨hoff, hle, offered_pos hp hoff⟩
  have hbound : fs.LegalBy bound fs.zeros := zeros_legalBy hp hr fun j hj => (ho j hj).2.2
  obtain ⟨out', hvary', hlist'⟩ := vary_listed hp hr (fun j hj => ⟨(ho j hj).1, (ho j hj).2.1⟩)
    (fs.rawSize + 1) fs.zeros 1 0 ⟨hbound, .zero, Nat.zero_le _⟩ (Nat.lt_succ_self _)
  obtain rfl := Option.some.inj (hvary.symm.trans hvary')
  intro j hj
  obtain ⟨hoff, hcap, hpos⟩ := ho j hj
  rw [hoff]
  -- a value below one of the two numbers and not below the other is listed by only one of them
  refine congrArg some (Nat.le_antisymm (Nat.le_min.mpr ⟨?_, hcap⟩) ?_)
  · by_contra hlt
    obtain ⟨t, hw, hdist⟩ := exists_changed hp hr hj (valuesAt_pos hp hj) (by omega)
    have hlegalt := hbound.disc_changed (by omega) hw
    obtain ⟨b, hraws, hb, -⟩ := hlist'.transfer hlist (target_zero.mpr ⟨hlegalt, hdist⟩)
    exact Nat.lt_irrefl _ (lt_of_wrote hp hj hw hraws hb)
  · by_contra hlt
    obtain ⟨t, hw, hdist⟩ := exists_changed hp hr hj hpos (by omega)
    have hlegalt := LegalBy.disc_changed hlegal (show bound j < fs.valuesAt j by omega) hw
    obtain ⟨b, hraws, hb⟩ := hlist.transfer hlist' ⟨hlegalt, hdist⟩
    exact Nat.lt_irrefl _ (lt_of_wrote hp hj hw hraws hb.legal)

section Main
variable [LinearOrder C] {specs : List (Spec C)}

/-- The enumeration is exact, for every centre and every distance, iff the number of values it
tries is right for every discrete variable; where some raw field cannot be read no instance is
legal. -/
theorem exact_iff_rightValues (h : ofSpecs specs = some fs) (hno : ∀ s ∈ specs, s.which ≠ 0) :
    fs.Exact ↔ (fs.Readable → fs.RightValues) :=
  have hp := plain_of_ofSpecs h hno
  ⟨fun he hr => rightValues_of_exact hp hr he, exact_of_rightValues hp⟩

end Main

/-- What is written does not depend on the room for it. -/
theorem generate_room {room room' : Nat} (h : fs.generateAllInNeighborhood n room inst = some out)
    (hroom : out.length ≤ room') : fs.generateAllInNeighborhood n room' inst = some out := by
  unfold generateAllInNeighborhood at h ⊢
  split at h
  · next hlen =>
    obtain ⟨out', hvary, hle⟩ := Option.bind_eq_some_iff.mp h
    split at hle
    · obtain rfl := Option.some.inj hle
      rw [if_pos hlen, hvary, Option.bind_some, if_pos hroom]
    · cases hle
  · cases h

/-- A continuous variable with one raw field, a variable of four values and a bit. -/
theorem exact_of_one_step :
    ∃ fs, ofSpecs ([.contin 0 1 2 1, .disc 4, .disc 2] : List (Spec Nat)) = some fs ∧ fs.Exact :=
  ⟨_, rfl, (exact_iff_rightValues
    (show ofSpecs ([.contin 0 1 2 1, .disc 4, .disc 2] : List (Spec Nat)) = some _ from rfl)
    (by decide)).mpr fun _ => by unfold RightValues; decide⟩

/-- With two raw fields of a continuous variable the variable of four values is taken for the bit
after it, and only one other value of it is tried. -/
theorem value_not_tried :
    ∃ fs, ofSpecs ([.contin 0 1 2 2, .disc 4, .disc 2] : List (Spec Nat)) = some fs ∧
      fs.Legal [0] ∧ fs.generateAllInNeighborhood 1 4 [0] = some [[64], [16], [1], [2]] ∧
      fs.Legal [32] ∧ fs.hammingDistance [0] [32] = 1 ∧
      fs.raws [32] ∉ ([[64], [16], [1], [2]] : List Instance).map fs.raws ∧ ¬ fs.Exact := by
  obtain ⟨fs, hfs⟩ : ∃ fs, fs = (⟨fieldRun 2 0 2 ++ ([.at 2 4] ++ [.at 1 6]),
    [(.contin 0 1 2 2, 1), (.disc 4, 1), (.disc 2, 1)]⟩ : FieldSet Nat) := ⟨_, rfl⟩
  have h : ofSpecs ([.contin 0 1 2 2, .disc 4, .disc 2] : List (Spec Nat)) = some fs := by
    rw [hfs]
    rfl
  have hlegal : ∀ inst ∈ ([[0], [32]] : List Instance), fs.Legal inst := by
    subst hfs
    intro inst hinst
    simp only [List.mem_cons, List.not_mem_nil, or_false] at hinst
    rcases hinst with rfl | rfl
    · exact ⟨rfl, fun idx hidx => ⟨.contin 0 1 2 2, 0, by
        obtain rfl := Nat.lt_one_iff.mp hidx; rfl, by
        obtain rfl := Nat.lt_one_iff.mp hidx; exact ⟨by decide, by decide, by decide⟩⟩, by decide⟩
    · exact ⟨rfl, fun idx hidx => ⟨.contin 0 1 2 2, 0, by
        obtain rfl := Nat.lt_one_iff.mp hidx; rfl, by
        obtain rfl := Nat.lt_one_iff.mp hidx; exact ⟨by decide, by decide, by decide⟩⟩, by decide⟩
  have hgen : fs.generateAllInNeighborhood 1 4 [0] = some [[64], [16], [1], [2]] := by
    rw [hfs]
    decide +kernel
  have hdist : fs.hammingDistance [0] [32] = 1 := by
    rw [hfs]
    rfl
  have hnot : fs.raws [32] ∉ ([[64], [16], [1], [2]] : List Instance).map fs.raws := by
    have hraws : fs.raws [32] = [some 0, some 0, some 2, some 0] := by rw [hfs]; rfl
    have hall : ([[64], [16], [1], [2]] : List Instance).map fs.raws =
        [[some 0, some 0, some 0, some 1], [some 0, some 0, some 1, some 0],
          [some 1, some 0, some 0, some 0], [some 2, some 0, some 0, some 0]] := by rw [hfs]; rfl
    rw [hraws, hall]
    simp
  refine ⟨fs, h, hlegal _ (by decide), hgen, hlegal _ (by decide), hdist, hnot, fun he => hnot ?_⟩
  obtain ⟨out, hout, hlist⟩ := he [0] (hlegal _ (by decide)) 1
  have hsame := generate_room hgen (Nat.le_add_left 4 out.length)
  rw [hout _ (Nat.le_add_right ..)] at hsame
  exact Option.some.inj hsame ▸ hlist.complete [32] ⟨hlegal _ (by decide), hdist⟩

end FieldSet

end OpenCog.Moses
