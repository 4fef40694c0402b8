import OpenCog.Moses.ExhaustiveNeighborhood

/-! The number of neighbours at a distance, counted before they are written: the same recursion,
where the stops of a continuous variable are counted together. -/
namespace OpenCog.Moses

open Util ContinSpec

theorem plus_eq {a b k : Nat} (h : FieldSet.plus a b = some k) : k = a + b := by
  unfold FieldSet.plus at h
  split at h
  · exact (Option.some.inj h).symm
  · cases h

namespace FieldSet

variable {C : Type} {fs : FieldSet C} {center inst inst₁ inst₂ inst' : Instance}
  {fuel n start idx num k e d : Nat} {c : Spec C}

/-- As many of the stops as there are changes may become steps, two each. -/
theorem countStops_eq {count : Nat → Option Nat} {rem sum : Nat}
    (h : countStops count n rem sum = some k) : (∀ i ≤ rem, ∃ x, count (n - i) = some x) ∧
      k = sum + ∑ i ∈ Finset.range (rem + 1), 2 ^ i * (count (n - i)).getD 0 := by
  induction rem generalizing sum with
  | zero =>
    obtain ⟨x, hx, hk⟩ := Option.bind_eq_some_iff.mp h
    have hx' : count (n - 0) = some x := hx
    refine ⟨fun i hi => ⟨x, by rw [Nat.le_zero.mp hi, hx']⟩, ?_⟩
    rw [plus_eq hk, Finset.sum_range_one, hx', Option.getD_some, pow_zero, Nat.one_mul]
  | succ rem ih =>
    unfold countStops at h
    split at h
    · obtain ⟨x, hx, h⟩ := Option.bind_eq_some_iff.mp h
      obtain ⟨sum', hsum, h⟩ := Option.bind_eq_some_iff.mp h
      obtain ⟨hall, rfl⟩ := ih h
      refine ⟨fun i hi => ?_, ?_⟩
      · rcases Nat.lt_succ_iff_lt_or_eq.mp (Nat.lt_succ_of_le hi) with hlt | rfl
        · exact hall i (Nat.le_of_lt_succ hlt)
        · exact ⟨x, hx⟩
      · rw [plus_eq hsum, Finset.sum_range_succ _ (rem + 1), hx, Option.getD_some]
        omega
    · cases h

/-- With any fuel that is enough, so many instances are written. -/
def Writes (fs : FieldSet C) (inst : Instance) (n start k : Nat) : Prop :=
  ∀ fuel, fs.rawSize - start < fuel →
    ∃ out, fs.varyNKnobs fuel inst n start = some out ∧ out.length = k

theorem Writes.of_succ (h : ∀ fuel, fs.rawSize - start < fuel + 1 →
    ∃ out, fs.varyNKnobs (fuel + 1) inst n start = some out ∧ out.length = k) :
    fs.Writes inst n start k := by
  intro fuel hfuel
  cases fuel with
  | zero => exact absurd hfuel (Nat.not_lt_zero _)
  | succ fuel => exact h fuel hfuel

theorem writes_zero : fs.Writes inst 0 start 1 := .of_succ fun _ _ => ⟨[inst], vary_zero, rfl⟩

theorem Writes.unique (h : fs.Writes inst n start k) (h' : fs.Writes inst n start num) : k = num := by
  obtain ⟨out, hout, rfl⟩ := h _ (Nat.lt_succ_self _)
  obtain ⟨out', hout', rfl⟩ := h' _ (Nat.lt_succ_self _)
  rw [Option.some.inj (hout.symm.trans hout')]

/-! ## The stops of a variable -/

theorem Plain.mem_of_bounds (hp : fs.Plain) (hc : fs.contin[idx]? = some c)
    (hlo : fs.continToRawIdx idx ≤ start) (hhi : start < fs.continToRawIdx idx + c.depth) :
    fs.In start idx c := by
  obtain ⟨idx', c', hin⟩ := hp.mem_block (show start < fs.discStart from
    Nat.lt_of_lt_of_le hhi (continToRawIdx_add_le hc).2)
  obtain rfl := block_unique hin.spec hc hin.lo hin.hi hlo hhi
  obtain rfl := Option.some.inj (hin.spec.symm.trans hc)
  exact hin

/-- The calls from the first stop of a variable on, if those after the variable write `K`: of the
`d` stops that are left some become steps, two each. -/
theorem writes_stops (hp : fs.Plain) (hc : fs.contin[idx]? = some c) {K : Nat → Nat}
    (hend : start + d = fs.continToRawIdx idx + c.depth) (hlo : fs.continToRawIdx idx ≤ start)
    (hcall : fs.CallAt fs.capacity inst start)
    (hstops : ∀ i, start ≤ i → i < fs.continToRawIdx idx + c.depth → fs.getRaw inst i = some stop)
    (hsame : ∀ i, fs.continToRawIdx idx + c.depth ≤ i → fs.getRaw inst i = fs.getRaw center i)
    (hK : ∀ i ≤ min d n, ∀ inst', fs.CallAt fs.capacity inst' (fs.continToRawIdx idx + c.depth) →
      (∀ i, fs.continToRawIdx idx + c.depth ≤ i → fs.getRaw inst' i = fs.getRaw center i) →
      fs.Writes inst' (n - i) (fs.continToRawIdx idx + c.depth) (K (n - i))) :
    fs.Writes inst n start (∑ i ∈ Finset.range (min d n + 1), 2 ^ i * K (n - i)) := by
  induction d generalizing inst n start with
  | zero =>
    rw [Nat.zero_min, Finset.sum_range_one, pow_zero, Nat.one_mul]
    obtain rfl : start = fs.continToRawIdx idx + c.depth := hend
    exact hK 0 (Nat.zero_le _) inst hcall hsame
  | succ d ih =>
    have hin : fs.In start idx c := hp.mem_of_bounds hc hlo (by omega)
    obtain ⟨num, inst₁, inst₂, hat⟩ := hcall.at_stop hp hin (hstops start le_rfl hin.hi)
    have hskip := hK 0 (Nat.zero_le _) inst hat.skip hsame
    cases n with
    | zero =>
      have hone : K 0 = 1 := hskip.unique writes_zero
      rw [Nat.min_zero, Finset.sum_range_one, pow_zero, Nat.one_mul, Nat.zero_sub, hone]
      exact writes_zero
    | succ n =>
      have hrest : ∀ inst' v, fs.Wrote inst inst' start v → fs.CallAt fs.capacity inst' (start + 1) →
          fs.Writes inst' n (start + 1)
            (∑ i ∈ Finset.range (min d n + 1), 2 ^ i * K (n - i)) := by
        intro inst' v hw hcall'
        refine ih (by omega) (by omega) hcall' (fun i hi hi' => ?_) (fun i hi => ?_)
          fun i hi inst'' hcall'' hsame' => ?_
        · rw [hw.other i (by omega)]
          exact hstops i (by omega) hi'
        · rw [hw.other i (by omega)]
          exact hsame i hi
        · have := hK (i + 1) (by omega) inst'' hcall'' hsame'
          rwa [Nat.add_sub_add_right] at this
      refine .of_succ fun fuel hfuel => ?_
      have hhi := hin.hi
      have hle := hat.call₁.le
      obtain ⟨out₁, h₁, hlen₁⟩ := hskip fuel (by omega)
      obtain ⟨out₂, h₂, hlen₂⟩ := hrest inst₁ _ hat.wrote₁ hat.call₁ fuel (by omega)
      obtain ⟨out₃, h₃, hlen₃⟩ := hrest inst₂ _ hat.wrote₂ hat.call₂ fuel (by omega)
      refine ⟨_, vary_stop hp (Nat.succ_ne_zero n) hin hat.canonical (hstops start le_rfl hhi) h₁
        hat.set₁ h₂ hat.set₂ h₃, ?_⟩
      have hpow : ∀ i, 2 ^ (i + 1) * K (n + 1 - (i + 1)) = 2 * (2 ^ i * K (n - i)) := by
        intro i
        rw [Nat.add_sub_add_right, pow_succ', Nat.mul_assoc]
      rw [List.length_append, List.length_append, hlen₁, hlen₂, hlen₃, Nat.succ_min_succ,
        Finset.sum_range_succ' _ (min d n + 1), pow_zero, Nat.one_mul,
        Finset.sum_congr rfl fun i _ => hpow i, ← Finset.mul_sum]
      omega

/-- Encodings that agree from a field up to which neither has a stop have their first stop at the
same place. -/
theorem num_eq_of_same {num' start depth rel : Nat} (h : fs.CanonicalAt inst start depth num)
    (h' : fs.CanonicalAt inst' start depth num') (hle : rel ≤ num) (hle' : rel ≤ num')
    (hsame : ∀ p, rel ≤ p → fs.getRaw inst' (start + p) = fs.getRaw inst (start + p)) :
    num = num' := by
  have hiff : ∀ p, rel ≤ p → p < depth → (num ≤ p ↔ num' ≤ p) := by
    intro p hp hp'
    rw [← h.stop_iff hp', ← h'.stop_iff hp', hsame p hp]
  have hd := h.le
  have hd' := h'.le
  rcases Nat.lt_trichotomy num num' with hlt | e | hlt
  · have := (hiff num hle (by omega)).mp le_rfl
    omega
  · exact e
  · have := (hiff num' hle' (by omega)).mpr le_rfl
    omega

/-! ## The loop over the values -/

theorem varyDisc_length {next : Instance → Option (List Instance)} {i v m : Nat} {is : List Nat}
    (hstep : ∀ x inst, inst.length = fs.packedWidth →
      (∀ k, k ≠ i → fs.getRaw inst k = fs.getRaw center k) →
      ∃ inst', fs.setRaw inst i x = some inst' ∧ inst'.length = fs.packedWidth ∧
        (∀ k, k ≠ i → fs.getRaw inst' k = fs.getRaw center k) ∧
        ∃ out, next inst' = some out ∧ out.length = m)
    (hlen : inst.length = fs.packedWidth)
    (hbase : ∀ k, k ≠ i → fs.getRaw inst k = fs.getRaw center k) :
    ∃ out, fs.varyDisc next i v is inst = some out ∧ out.length = is.length * m := by
  induction is generalizing inst with
  | nil => exact ⟨[], rfl, (Nat.zero_mul m).symm⟩
  | cons j is ih =>
    obtain ⟨inst', hset, hlen', hbase', out, hnext, hout⟩ :=
      hstep (if v = j then 0 else j) inst hlen hbase
    obtain ⟨rest, hrest, hcount⟩ := ih hlen' hbase'
    refine ⟨out ++ rest, ?_, ?_⟩
    · rw [varyDisc, hset, Option.bind_some, hnext, Option.bind_some, hrest, Option.map_some]
    · rw [List.length_append, hout, hcount, List.length_cons, Nat.succ_mul, Nat.add_comm]

/-! ## The whole count -/

/-- The call of the counter, and one of the enumeration that sees the same from here on. -/
structure Together (fs : FieldSet C) (center inst : Instance) (start : Nat) : Prop where
  counted : fs.CallAt fs.capacity center start
  written : fs.CallAt fs.capacity inst start
  same : ∀ i, start ≤ i → fs.getRaw inst i = fs.getRaw center i

section Count
variable (hp : fs.Plain) (hr : fs.Readable) (hn : n ≠ 0) (h : fs.Together center inst start)
  (ih : ∀ n start k inst, fs.countNChangedKnobsFromIndex center fuel n start = some k →
    fs.Together center inst start → fs.Writes inst n start k)
include hp hn h ih

omit hn in
theorem writes_stop (hin : fs.In start idx c) (hv : fs.getRaw center start = some stop)
    (hcount : countStops (fun n => fs.countNChangedKnobsFromIndex center fuel n
      (fs.continToRawIdx idx + c.depth)) n
      (min (c.depth - (start - fs.continToRawIdx idx)) n) 0 = some k) :
    fs.Writes inst n start k := by
  obtain ⟨hall, rfl⟩ := countStops_eq hcount
  have hlo := hin.lo
  have hhi := hin.hi
  have hend := hin.end_le
  have hsize := hp.size
  rw [Nat.zero_add]
  refine writes_stops hp hin.spec
    (K := fun m => (fs.countNChangedKnobsFromIndex center fuel m
      (fs.continToRawIdx idx + c.depth)).getD 0) (by omega) hlo h.written
    (fun i hi hi' => stops_from h.written.legal hin (by rw [h.same start le_rfl, hv]) hi hi')
    (fun i hi => h.same i (by omega)) fun i hi inst' hcall' hsame' => ?_
  obtain ⟨x, hx⟩ := hall i hi
  rw [hx, Option.getD_some]
  exact ih _ _ x inst' hx ⟨⟨h.counted.legal, .after hin, by omega⟩, hcall', hsame'⟩

theorem writes_step (hin : fs.In start idx c)
    (hat : fs.CanonicalAt center (fs.continToRawIdx idx) c.depth num)
    (hv : fs.getRaw center start ≠ some stop) {kept switched : Nat}
    (h₁ : fs.countNChangedKnobsFromIndex center fuel n (start + 1) = some kept)
    (h₂ : fs.countNChangedKnobsFromIndex center fuel (n - 1) (start + 1) = some switched)
    (h₃ : (if num - (start - fs.continToRawIdx idx) ≤ n then
      (fs.countNChangedKnobsFromIndex center fuel (n - (num - (start - fs.continToRawIdx idx)))
        (fs.continToRawIdx idx + c.depth)).bind (plus (kept + switched))
      else some (kept + switched)) = some k) : fs.Writes inst n start k := by
  have hlo := hin.lo
  have hhi := hin.hi
  have hend := hin.end_le
  have hsize := hp.size
  obtain ⟨num', v, v', inst₁, inst₂, hat'⟩ :=
    h.written.at_step hp hin (by rw [h.same start le_rfl]; exact hv)
  obtain ⟨_, _, _, _, _, hatc⟩ := h.counted.at_step hp hin hv
  obtain rfl : num = num' := by
    refine num_eq_of_same hat hat'.canonical
      (h.counted.front.le_num hin hat) (Nat.le_of_lt hat'.lt) fun p hp' => h.same _ (by omega)
  obtain ⟨hswitch, hvs, -, -⟩ := hat'.switch
  have hkept := ih n (start + 1) kept inst h₁
    ⟨hatc.keep, hat'.keep, fun i hi => h.same i (by omega)⟩
  have hswitched := ih (n - 1) (start + 1) switched inst₁ h₂ ⟨hatc.keep, hat'.call₁, fun i hi => by
    rw [hat'.wrote₁.other i (by omega), h.same i (by omega)]⟩
  refine .of_succ fun fuel' hfuel => ?_
  have hle := hat'.call₁.le
  obtain ⟨out₁, hout₁, hlen₁⟩ := hkept fuel' (by omega)
  obtain ⟨out₂, hout₂, hlen₂⟩ := hswitched fuel' (by omega)
  by_cases hfar : num - (start - fs.continToRawIdx idx) ≤ n
  · rw [if_pos hfar] at h₃
    obtain ⟨stopped, hstopped, hsum⟩ := Option.bind_eq_some_iff.mp h₃
    obtain ⟨out₃, hout₃, hlen₃⟩ := ih _ _ stopped inst₂ hstopped
      ⟨⟨h.counted.legal, .after hin, by omega⟩, hat'.call₂, fun i hi => by
        rw [hat'.other i (.inr hi), h.same i (by omega)]⟩ fuel' (by omega)
    refine ⟨_, vary_step hp hn hin hat'.canonical hat'.value hvs hswitch hout₁ hat'.set₁ hout₂
      (fun _ => ⟨hat'.set₂, hout₃⟩), ?_⟩
    rw [if_pos hfar, List.length_append, List.length_append, hlen₁, hlen₂, hlen₃, plus_eq hsum,
      Nat.add_assoc]
  · rw [if_neg hfar] at h₃
    have hnone : num - (start - fs.continToRawIdx idx) ≤ n →
        fs.stopAll (num - (start - fs.continToRawIdx idx)) start inst₁ = some inst₂ ∧
        fs.varyNKnobs fuel' inst₂ (n - (num - (start - fs.continToRawIdx idx)))
          (fs.continToRawIdx idx + c.depth) = some [] := fun hle => absurd hle hfar
    refine ⟨_, vary_step hp hn hin hat'.canonical hat'.value hvs hswitch hout₁ hat'.set₁ hout₂
      hnone, ?_⟩
    rw [if_neg hfar, List.append_nil, List.length_append, hlen₁, hlen₂, Option.some.inj h₃]

theorem writes_bit {j : Nat} (hj : j < fs.nbool) (hstart : start = fs.discStart + fs.nDisc + j)
    {kept flipped : Nat}
    (h₁ : fs.countNChangedKnobsFromIndex center fuel n (start + 1) = some kept)
    (h₂ : fs.countNChangedKnobsFromIndex center fuel (n - 1) (start + 1) = some flipped) :
    fs.Writes inst n start (kept + flipped) := by
  subst hstart
  have hsize := hp.size
  have hndisc := hp.nDisc_add
  have hjl : fs.nDisc + j < fs.discAndBits.length := by omega
  obtain ⟨v, -, hv⟩ := h.written.legal.disc _ hjl
  rw [← Nat.add_assoc] at hv
  obtain ⟨hv2, inst₁, hset, hw⟩ := hp.flip hj h.written.legal.length hv
  have hl₁ := h.written.legal.disc_changed (j := fs.nDisc + j) (v := 1 - v)
    (by rw [hp.capacity_bit hj]; omega) (by rw [← Nat.add_assoc]; exact hw)
  have hnext : ∀ inst', fs.LegalBy fs.capacity inst' →
      (∀ i, fs.discStart + fs.nDisc + j + 1 ≤ i → fs.getRaw inst' i = fs.getRaw center i) →
      fs.Together center inst' (fs.discStart + fs.nDisc + j + 1) := fun inst' hl hs =>
    ⟨⟨h.counted.legal, .of_le (by omega), by omega⟩, ⟨hl, .of_le (by omega), by omega⟩, hs⟩
  have hkept := ih n _ kept inst h₁ (hnext inst h.written.legal fun i hi => h.same i (by omega))
  have hflipped := ih (n - 1) _ flipped inst₁ h₂ (hnext inst₁ hl₁ fun i hi => by
    rw [hw.other i (by omega), h.same i (by omega)])
  refine .of_succ fun fuel' hfuel => ?_
  obtain ⟨out₁, hout₁, hlen₁⟩ := hkept fuel' (by omega)
  obtain ⟨out₂, hout₂, hlen₂⟩ := hflipped fuel' (by omega)
  exact ⟨_, vary_bit hp hn hj hout₁ hset hout₂, by rw [List.length_append, hlen₁, hlen₂]⟩

include hr

theorem writes_disc {j : Nat} (hj : j < fs.nDisc) (hstart : start = fs.discStart + j)
    {kept r varied : Nat}
    (h₁ : fs.countNChangedKnobsFromIndex center fuel n (start + 1) = some kept)
    (har : fs.arity start = some r)
    (h₂ : fs.countNChangedKnobsFromIndex center fuel (n - 1) (start + 1) = some varied) :
    fs.Writes inst n start (kept + (r - 1) * varied) := by
  subst hstart
  have hsize := hp.size
  have hndisc := hp.nDisc_add
  have hjl : j < fs.discAndBits.length := by omega
  obtain ⟨v, -, hv⟩ := h.written.legal.disc _ hjl
  have hnext : ∀ inst', fs.LegalBy fs.capacity inst' →
      (∀ i, fs.discStart + j + 1 ≤ i → fs.getRaw inst' i = fs.getRaw center i) →
      fs.Together center inst' (fs.discStart + j + 1) := fun inst' hl hs =>
    ⟨⟨h.counted.legal, .of_le (by omega), by omega⟩, ⟨hl, .of_le (by omega), by omega⟩, hs⟩
  have hkept := ih n _ kept inst h₁ (hnext inst h.written.legal fun i hi => h.same i (by omega))
  refine .of_succ fun fuel' hfuel => ?_
  obtain ⟨out₁, hout₁, hlen₁⟩ := hkept fuel' (by omega)
  have hvaried : ∃ out, fs.varyDisc
      (fun inst => fs.varyNKnobs fuel' inst (n - 1) (fs.discStart + j + 1))
      (fs.discStart + j) v (List.range' 1 (r - 1)) inst = some out ∧
      out.length = (List.range' 1 (r - 1)).length * varied := varyDisc_length
    (fun x inst' hlen hbase => by
      obtain ⟨inst'', hset, hw⟩ := hp.write_disc hr hjl hlen x
      have hw' : fs.Wrote inst inst'' (fs.discStart + j) (x % fs.capacity j) :=
        ⟨hw.length, hw.self, fun i hi => (hw.other i hi).trans (hbase i hi)⟩
      obtain ⟨u, hu, -⟩ := hp.read_disc hr hjl hlen
      have hl := h.written.legal.disc_changed (Nat.mod_lt x (by omega)) hw'
      obtain ⟨out, hout, hcount⟩ := ih (n - 1) _ varied inst'' h₂ (hnext inst'' hl fun i hi => by
        rw [hw'.other i (by omega), h.same i (by omega)]) fuel' (by omega)
      exact ⟨inst'', hset, hw'.length, hw'.other, out, hout, hcount⟩)
    h.written.legal.length (fun _ _ => rfl)
  obtain ⟨out₂, hout₂, hlen₂⟩ := hvaried
  refine ⟨_, vary_disc hp hn hj hv hout₁ har hout₂, ?_⟩
  rw [List.length_append, hlen₁, hlen₂, List.length_range']

end Count

/-- Where the count has a result, as many instances are written. -/
theorem writes_of_count (hp : fs.Plain) (hr : fs.Readable)
    (hcount : fs.countNChangedKnobsFromIndex center fuel n start = some k)
    (h : fs.Together center inst start) : fs.Writes inst n start k := by
  induction fuel generalizing n start k inst with
  | zero => cases hcount
  | succ fuel ih =>
    have hsize := hp.size
    have hndisc := hp.nDisc_add
    have ih' : ∀ n start k inst, fs.countNChangedKnobsFromIndex center fuel n start = some k →
        fs.Together center inst start → fs.Writes inst n start k := fun _ _ _ _ hc ht => ih hc ht
    unfold countNChangedKnobsFromIndex at hcount
    rw [hp.ontoZero, hp.nContin_eq, Nat.zero_add] at hcount
    by_cases hn : n = 0
    · rw [if_pos hn] at hcount
      obtain rfl := Option.some.inj hcount
      exact hn ▸ writes_zero
    · rw [if_neg hn, if_neg (Nat.not_lt_zero _)] at hcount
      by_cases hD : start < fs.discStart
      · obtain ⟨idx, c, hin⟩ := hp.mem_block hD
        obtain ⟨num, hat⟩ := h.counted.legal.block hin.spec
        have hnum : fs.countNBeforeStop center idx = some num := by
          rw [countNBeforeStop, hin.spec, Option.bind_some, hat.beforeStop_eq]
        obtain ⟨v, hv⟩ : ∃ v, fs.getRaw center start = some v := by
          rcases h.counted.legal.contin_value hin with e | e | e
          · exact ⟨_, e⟩
          · exact ⟨_, e⟩
          · exact ⟨_, e⟩
        rw [if_pos hD] at hcount
        simp only [hin.idx_eq, hin.spec, hnum, hv, hin.end_eq, Option.bind_eq_bind,
          Option.bind_some] at hcount
        by_cases hstop : v = stop
        · rw [if_pos hstop] at hcount
          exact writes_stop hp h ih' hin (hstop ▸ hv) hcount
        · rw [if_neg hstop] at hcount
          obtain ⟨kept, h₁, hcount⟩ := Option.bind_eq_some_iff.mp hcount
          obtain ⟨switched, h₂, hcount⟩ := Option.bind_eq_some_iff.mp hcount
          obtain ⟨sum, hsum, hcount⟩ := Option.bind_eq_some_iff.mp hcount
          obtain rfl := plus_eq hsum
          exact writes_step hp hn h ih' hin hat
            (by rw [hv]; exact fun e => hstop (Option.some.inj e)) h₁ h₂ hcount
      · rw [if_neg hD] at hcount
        by_cases hdisc : start < fs.discStart + fs.nDisc
        · rw [if_pos hdisc] at hcount
          simp only [Option.bind_eq_bind] at hcount
          obtain ⟨kept, h₁, hcount⟩ := Option.bind_eq_some_iff.mp hcount
          obtain ⟨r, har, hcount⟩ := Option.bind_eq_some_iff.mp hcount
          obtain ⟨varied, h₂, hcount⟩ := Option.bind_eq_some_iff.mp hcount
          obtain rfl := plus_eq hcount
          exact writes_disc hp hr hn h ih' (j := start - fs.discStart) (by omega) (by omega) h₁ har h₂
        · rw [if_neg hdisc] at hcount
          by_cases hbit : start < fs.discStart + fs.nDisc + fs.nbool
          · rw [if_pos hbit] at hcount
            simp only [Option.bind_eq_bind] at hcount
            obtain ⟨kept, h₁, hcount⟩ := Option.bind_eq_some_iff.mp hcount
            obtain ⟨flipped, h₂, hcount⟩ := Option.bind_eq_some_iff.mp hcount
            obtain rfl := plus_eq hcount
            exact writes_bit hp hn h ih' (j := start - (fs.discStart + fs.nDisc)) (by omega) (by omega)
              h₁ h₂
          · rw [if_neg hbit] at hcount
            obtain rfl := Option.some.inj hcount
            exact .of_succ fun _ _ => ⟨[], vary_end hp hn (by omega), rfl⟩

section Main
variable [LinearOrder C] {specs : List (Spec C)}

/-- If the count stays within its integer types, a deme of that size is filled exactly. -/
theorem count_eq_written (h : ofSpecs specs = some fs) (hno : ∀ s ∈ specs, s.which ≠ 0)
    (hl : fs.Legal center) (hcount : fs.countNChangedKnobs center n = some k) :
    ∃ out, fs.generateAllInNeighborhood n k center = some out ∧ out.length = k := by
  have hp := plain_of_ofSpecs h hno
  have hr := hl.readable hp
  have hcap : fs.LegalBy fs.capacity center := by
    refine hl.mono fun j hj v _ hv => ?_
    obtain ⟨v', hv', hread⟩ := hp.read_disc hr hj hl.length
    obtain rfl := Option.some.inj (hv.symm.trans hread)
    exact hv'
  have hcall : fs.CallAt fs.capacity center 0 := ⟨hcap, .zero, Nat.zero_le _⟩
  obtain ⟨out, hout, hlen⟩ :=
    writes_of_count hp hr hcount ⟨hcall, hcall, fun _ _ => rfl⟩ (fs.rawSize + 1) (Nat.lt_succ_self _)
  refine ⟨out, ?_, hlen⟩
  rw [generateAllInNeighborhood, if_pos hl.length, hout, Option.bind_some, if_pos hlen.le]

end Main

/-- Two changes in two fields of a continuous variable, a variable of three values and a bit. -/
theorem count_eq_written_two :
    ∃ fs, ofSpecs ([.contin 0 1 2 2, .disc 3, .disc 2] : List (Spec Nat)) = some fs ∧
      fs.countNChangedKnobs [0] 2 = some 9 ∧
      ∃ out, fs.generateAllInNeighborhood 2 9 [0] = some out ∧ out.length = 9 := by
  obtain ⟨fs, hfs⟩ : ∃ fs, fs = (⟨fieldRun 2 0 2 ++ ([.at 2 4] ++ [.at 1 6]),
    [(.contin 0 1 2 2, 1), (.disc 3, 1), (.disc 2, 1)]⟩ : FieldSet Nat) := ⟨_, rfl⟩
  have h : ofSpecs ([.contin 0 1 2 2, .disc 3, .disc 2] : List (Spec Nat)) = some fs := by
    rw [hfs]
    rfl
  have hzeros : fs.zeros = [0] := by
    rw [hfs]
    rfl
  have hlegal : fs.Legal [0] := by
    rw [← hzeros]
    refine zeros_legalBy (plain_of_ofSpecs h (by decide)) ?_ ?_
    · rw [hfs]
      unfold Readable
      decide
    · rw [hfs]
      decide
  have hcount : fs.countNChangedKnobs [0] 2 = some 9 := by
    rw [hfs]
    decide +kernel
  exact ⟨fs, h, hcount, count_eq_written h (by decide) hlegal hcount⟩

end FieldSet

end OpenCog.Moses
