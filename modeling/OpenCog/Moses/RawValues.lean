import OpenCog.Moses.PlainFields
import OpenCog.Lib.Listing

/-! Instances as the values of their raw fields: legal ones, the distance from a field on, and
what writes do to them. -/
namespace OpenCog.Moses

open Util ContinSpec

namespace FieldSet

variable {C : Type} {fs : FieldSet C} {inst inst' a b : Instance} {start k : Nat}

/-! ## Distance from a raw field on -/

def raws (fs : FieldSet C) (inst : Instance) : List (Option Nat) :=
  (List.range fs.rawSize).map (fs.getRaw inst)

theorem raws_eq_iff : fs.raws a = fs.raws b ↔ ∀ i < fs.rawSize, fs.getRaw a i = fs.getRaw b i := by
  rw [raws, raws, List.map_inj_left]
  exact forall_congr' fun i => by rw [List.mem_range]

def distFrom (fs : FieldSet C) (a b : Instance) (start : Nat) : Nat :=
  (List.range' start (fs.rawSize - start)).countP fun i => fs.getRaw a i ≠ fs.getRaw b i

theorem hammingDistance_eq : fs.hammingDistance a b = fs.distFrom a b 0 := by
  rw [hammingDistance, distFrom, List.range_eq_range']
  rfl

theorem distFrom_succ (h : start < fs.rawSize) : fs.distFrom a b start =
    (if fs.getRaw a start = fs.getRaw b start then 0 else 1) + fs.distFrom a b (start + 1) := by
  obtain ⟨m, hm⟩ := Nat.exists_eq_succ_of_ne_zero (Nat.sub_ne_zero_of_lt h)
  have hm' : fs.rawSize - (start + 1) = m := by omega
  rw [distFrom, distFrom, hm, hm', List.range'_succ, List.countP_cons, Nat.add_comm]
  by_cases e : fs.getRaw a start = fs.getRaw b start
  · simp [e]
  · simp [e]

theorem distFrom_congr (h : ∀ i, start ≤ i → fs.getRaw a i = fs.getRaw inst i) :
    fs.distFrom a b start = fs.distFrom inst b start := by
  refine List.countP_congr fun i hi => ?_
  rw [h i (List.mem_range'_1.mp hi).1]

theorem distFrom_eq_zero : fs.distFrom a b start = 0 ↔
    ∀ i, start ≤ i → i < fs.rawSize → fs.getRaw a i = fs.getRaw b i := by
  rw [distFrom, List.countP_eq_zero]
  constructor
  · intro h i hi hi'
    have := h i (List.mem_range'_1.mpr ⟨hi, by omega⟩)
    simpa using this
  · intro h i hi
    obtain ⟨hi, hi'⟩ := List.mem_range'_1.mp hi
    simpa using h i hi (by omega)

theorem distFrom_same (hle : start + k ≤ fs.rawSize)
    (h : ∀ p < k, fs.getRaw a (start + p) = fs.getRaw b (start + p)) :
    fs.distFrom a b start = fs.distFrom a b (start + k) := by
  induction k with
  | zero => rfl
  | succ k ih =>
    rw [ih (by omega) fun p hp => h p (by omega), distFrom_succ (by omega),
      if_pos (h k (Nat.lt_succ_self k)), Nat.zero_add, Nat.add_assoc]

theorem distFrom_differ (hle : start + k ≤ fs.rawSize)
    (h : ∀ p < k, fs.getRaw a (start + p) ≠ fs.getRaw b (start + p)) :
    fs.distFrom a b start = k + fs.distFrom a b (start + k) := by
  induction k with
  | zero => exact (Nat.zero_add _).symm
  | succ k ih =>
    rw [ih (by omega) fun p hp => h p (by omega), distFrom_succ (by omega),
      if_neg (h k (Nat.lt_succ_self k)), ← Nat.add_assoc, ← Nat.add_assoc]

/-! ## The fields of one continuous variable -/

theorem continOf_spec {depths : List Nat} {i : Nat} (h : i < depths.sum) :
    ∃ idx d, continOf depths i = some idx ∧ depths[idx]? = some d ∧ (depths.take idx).sum ≤ i ∧
      i < (depths.take idx).sum + d := by
  induction depths generalizing i with
  | nil => cases h
  | cons d depths ih =>
    unfold continOf
    by_cases hlt : i < d
    · exact ⟨0, d, if_pos hlt, rfl, Nat.zero_le _, by simpa using hlt⟩
    · rw [List.sum_cons] at h
      obtain ⟨idx, d', hidx, hd, hlo, hhi⟩ := ih (i := i - d) (by omega)
      refine ⟨idx + 1, d', by rw [if_neg hlt, hidx]; rfl, hd, ?_, ?_⟩
      · rw [List.take_succ_cons, List.sum_cons]
        omega
      · rw [List.take_succ_cons, List.sum_cons]
        omega

/-- The variable that a raw field belongs to. -/
theorem Plain.block (hp : fs.Plain) {i : Nat} (hi : i < fs.discStart) :
    ∃ idx c, fs.rawToContinIdx i = some idx ∧ fs.contin[idx]? = some c ∧
      fs.continToRawIdx idx ≤ i ∧ i < fs.continToRawIdx idx + c.depth := by
  have hsum : i < (fs.contin.map Spec.depth).sum := by
    have := hp.ontoZero
    unfold discStart at hi
    omega
  obtain ⟨idx, d, hidx, hd, hlo, hhi⟩ := continOf_spec hsum
  rw [List.getElem?_map] at hd
  obtain ⟨c, hc, rfl⟩ := Option.map_eq_some_iff.mp hd
  refine ⟨idx, c, ?_, hc, ?_, ?_⟩
  · rw [rawToContinIdx, nContin, hp.ontoZero, if_pos (by omega)]
    exact hidx
  · rw [continToRawIdx, hp.ontoZero, ← List.map_take] at *
    omega
  · rw [continToRawIdx, hp.ontoZero, List.map_take]
    omega

/-- The variables follow one another. -/
theorem continToRawIdx_le {idx idx' : Nat} {c : Spec C} (hc : fs.contin[idx]? = some c)
    (h : idx < idx') : fs.continToRawIdx idx + c.depth ≤ fs.continToRawIdx idx' := by
  obtain ⟨hlt, rfl⟩ := List.getElem?_eq_some_iff.mp hc
  have hsplit : fs.contin.take idx' =
      fs.contin.take idx ++ fs.contin[idx] :: (fs.contin.drop (idx + 1)).take (idx' - (idx + 1)) := by
    have hadd : idx' = idx + (1 + (idx' - (idx + 1))) := by omega
    conv => lhs; rw [hadd, List.take_add, List.drop_eq_getElem_cons hlt, Nat.add_comm 1,
      List.take_succ_cons]
  rw [continToRawIdx, continToRawIdx, hsplit, List.map_append, List.sum_append, List.map_cons,
    List.sum_cons]
  omega

/-- A raw field belongs to one variable. -/
theorem block_unique {idx idx' i : Nat} {c c' : Spec C} (hc : fs.contin[idx]? = some c)
    (hc' : fs.contin[idx']? = some c') (hlo : fs.continToRawIdx idx ≤ i)
    (hhi : i < fs.continToRawIdx idx + c.depth) (hlo' : fs.continToRawIdx idx' ≤ i)
    (hhi' : i < fs.continToRawIdx idx' + c'.depth) : idx = idx' := by
  rcases Nat.lt_trichotomy idx idx' with h | h | h
  · have := continToRawIdx_le hc h
    omega
  · exact h
  · have := continToRawIdx_le hc' h
    omega

/-! ## Legal instances -/

/-- Canonical encodings, and discrete values below a bound each. -/
structure LegalBy (fs : FieldSet C) (bound : Nat → Nat) (inst : Instance) : Prop where
  length : inst.length = fs.packedWidth
  contin : ∀ idx < fs.contin.length, fs.Canonical inst idx
  disc : ∀ j < fs.discAndBits.length, ∃ v < bound j, fs.getRaw inst (fs.discStart + j) = some v

variable {bound : Nat → Nat} {idx depth num j v : Nat} {c : Spec C}

theorem CanonicalAt.congr (h : fs.CanonicalAt inst start depth num)
    (hsame : ∀ p < depth, fs.getRaw inst' (start + p) = fs.getRaw inst (start + p)) :
    fs.CanonicalAt inst' start depth num := by
  have hle := h.le
  refine ⟨hle, fun p hp => ?_, fun p hp hp' => ?_⟩
  · rw [hsame p (by omega)]
    exact h.steps p hp
  · rw [hsame p hp']
    exact h.stops p hp hp'

theorem LegalBy.block (h : fs.LegalBy bound inst) (hc : fs.contin[idx]? = some c) :
    ∃ num, fs.CanonicalAt inst (fs.continToRawIdx idx) c.depth num := by
  obtain ⟨c', num, hc', hat⟩ := h.contin idx (List.getElem?_eq_some_iff.mp hc).1
  obtain rfl := Option.some.inj (hc.symm.trans hc')
  exact ⟨num, hat⟩

/-- Only the encoding of one variable has changed. -/
theorem LegalBy.contin_changed (h : fs.LegalBy bound inst) (hlen : inst'.length = fs.packedWidth)
    (hc : fs.contin[idx]? = some c)
    (hother : ∀ i, i < fs.continToRawIdx idx ∨ fs.continToRawIdx idx + c.depth ≤ i →
      fs.getRaw inst' i = fs.getRaw inst i)
    (hat : fs.CanonicalAt inst' (fs.continToRawIdx idx) c.depth num) : fs.LegalBy bound inst' := by
  refine ⟨hlen, fun idx' hidx' => ?_, fun j hj => ?_⟩
  · by_cases e : idx' = idx
    · subst e
      exact ⟨c, num, hc, hat⟩
    · obtain ⟨c', num', hc', hat'⟩ := h.contin idx' hidx'
      refine ⟨c', num', hc', hat'.congr fun p hp => hother _ ?_⟩
      by_contra hin
      exact e (block_unique hc' hc (Nat.le_add_right _ p) (by omega) (by omega) (by omega))
  · have hle := (continToRawIdx_add_le hc).2
    rw [hother _ (by omega)]
    exact h.disc j hj

theorem LegalBy.disc_changed (h : fs.LegalBy bound inst) (hv : v < bound j)
    (hw : fs.Wrote inst inst' (fs.discStart + j) v) : fs.LegalBy bound inst' := by
  refine ⟨hw.length, fun idx hidx => ?_, fun j' hj' => ?_⟩
  · obtain ⟨c, num, hc, hat⟩ := h.contin idx hidx
    have hle := (continToRawIdx_add_le hc).2
    exact ⟨c, num, hc, hat.congr fun p hp => hw.other _ (by omega)⟩
  · by_cases e : j' = j
    · rw [e, hw.self]
      exact ⟨v, hv, rfl⟩
    · rw [hw.other _ (by omega)]
      exact h.disc j' hj'

/-! ## Writes -/

/-- Every raw field can be read: the mask of 32 bits is not defined. -/
def Readable (fs : FieldSet C) : Prop := ∀ f ∈ fs.fields, f.width < 32

/-- How many values the raw field of a discrete variable holds. -/
def capacity (fs : FieldSet C) (j : Nat) : Nat :=
  (fs.fields[fs.discStart + j]?.map Field.capacity).getD 0

theorem Plain.writable (hp : fs.Plain) (hc : fs.contin[idx]? = some c) :
    fs.Writable (fs.continToRawIdx idx) c.depth := by
  intro p hpd inst hlen v hv
  have hle := (continToRawIdx_add_le hc).2
  obtain ⟨f, hf, hwidth, hword⟩ := hp.contin (fs.continToRawIdx idx + p) (by omega)
  obtain ⟨inst', hset, hlen', hself, hother⟩ :=
    hp.successive.write hlen hf (by rw [hwidth]; decide) (v := v)
  rw [Field.capacity_of_inWord hword, hwidth, Nat.mod_eq_of_lt (by omega)] at hself
  exact ⟨inst', hset, hlen', hself, hother⟩

/-- The raw fields hold a stop. -/
def Stoppable (fs : FieldSet C) (start depth : Nat) : Prop :=
  ∀ p < depth, ∀ inst : Instance, inst.length = fs.packedWidth →
    ∃ inst', fs.setRaw inst (start + p) stop = some inst' ∧ fs.Wrote inst inst' (start + p) stop

theorem Writable.stoppable (hw : fs.Writable start depth) : fs.Stoppable start depth :=
  fun p hp inst hlen => hw p hp inst hlen stop (by decide)

theorem stopAll_spec (hw : fs.Stoppable start depth) {m p : Nat} (hm : p + m ≤ depth)
    (hlen : inst.length = fs.packedWidth) :
    ∃ inst', fs.stopAll m (start + p) inst = some inst' ∧ inst'.length = fs.packedWidth ∧
      (∀ q, p ≤ q → q < p + m → fs.getRaw inst' (start + q) = some stop) ∧
      ∀ i, i < start + p ∨ start + p + m ≤ i → fs.getRaw inst' i = fs.getRaw inst i := by
  induction m generalizing p inst with
  | zero => exact ⟨inst, rfl, hlen, fun q hq hq' => by omega, fun _ _ => rfl⟩
  | succ m ih =>
    obtain ⟨inst₁, hset, hw₁⟩ := hw p (by omega) inst hlen
    obtain ⟨inst', hall, hlen', hstops, hother⟩ := ih (p := p + 1) (by omega) hw₁.length
    refine ⟨inst', ?_, hlen', fun q hq hq' => ?_, fun i hi => ?_⟩
    · rw [stopAll, hset, Option.bind_some]
      exact hall
    · by_cases e : q = p
      · rw [e, hother _ (by omega), hw₁.self]
      · exact hstops q (by omega) (by omega)
    · rw [hother i (by omega), hw₁.other i (by omega)]

theorem Plain.disc_field (hp : fs.Plain) (hj : j < fs.discAndBits.length) :
    ∃ f, fs.fields[fs.discStart + j]? = some f ∧ f.capacity = fs.capacity j := by
  obtain ⟨f, hf, -, -⟩ := hp.disc j _ (List.getElem?_eq_getElem hj)
  exact ⟨f, hf, by rw [capacity, hf]; rfl⟩

theorem Plain.read_disc (hp : fs.Plain) (hr : fs.Readable) (hj : j < fs.discAndBits.length)
    (hlen : inst.length = fs.packedWidth) :
    ∃ v < fs.capacity j, fs.getRaw inst (fs.discStart + j) = some v := by
  obtain ⟨f, hf, hcap⟩ := hp.disc_field hj
  exact hcap ▸ hp.successive.read hlen hf (hr f (List.mem_of_getElem? hf))

theorem Plain.write_disc (hp : fs.Plain) (hr : fs.Readable) (hj : j < fs.discAndBits.length)
    (hlen : inst.length = fs.packedWidth) (v : Nat) :
    ∃ inst', fs.setRaw inst (fs.discStart + j) v = some inst' ∧
      fs.Wrote inst inst' (fs.discStart + j) (v % fs.capacity j) := by
  obtain ⟨f, hf, hcap⟩ := hp.disc_field hj
  obtain ⟨inst', hset, hlen', hself, hother⟩ :=
    hp.successive.write hlen hf (hr f (List.mem_of_getElem? hf)) (v := v)
  exact ⟨inst', hset, hlen', hcap ▸ hself, hother⟩

theorem Plain.nDisc_add (hp : fs.Plain) : fs.nDisc + fs.nbool = fs.discAndBits.length := by
  have hle : fs.nbool ≤ fs.discAndBits.length := List.countP_le_length
  have := hp.size
  unfold nDisc
  omega

theorem Plain.capacity_bit (hp : fs.Plain) (hk : k < fs.nbool) :
    fs.capacity (fs.nDisc + k) = 2 := by
  obtain ⟨b, hbits⟩ := hp.bits
  have hle : (b + k) % 32 < 32 := Nat.mod_lt _ (by decide)
  rw [capacity, ← Nat.add_assoc, hbits k hk, Option.map_some, Option.getD_some,
    Field.capacity_of_inWord]
  · rfl
  · exact hle

/-- The bit changed is that of the raw field. -/
theorem Plain.flip (hp : fs.Plain) (hk : k < fs.nbool) (hlen : inst.length = fs.packedWidth)
    (hv : fs.getRaw inst (fs.discStart + fs.nDisc + k) = some v) :
    v < 2 ∧ ∃ inst', fs.flipBit inst k = some inst' ∧
      fs.Wrote inst inst' (fs.discStart + fs.nDisc + k) (1 - v) := by
  obtain ⟨b, hbits⟩ := hp.bits
  have hf := hbits k hk
  have hfirst := hbits 0 (by omega)
  have hndisc := hp.nDisc_add
  have hsize := hp.size
  have hmaj := majorOffset_lt hp.successive.before hp.successive.minor (List.mem_of_getElem? hf)
  rw [← hlen] at hmaj
  obtain ⟨x, hx⟩ : ∃ x, inst[(b + k) / 32]? = some x := ⟨_, List.getElem?_eq_getElem hmaj⟩
  have hlow : (b + k) % 32 < 32 := Nat.mod_lt _ (by decide)
  obtain ⟨inst', hset, hlen', hself, hother⟩ :=
    hp.successive.write hlen hf (show 1 < 32 by decide) (v := 1 - v)
  have hread := getRaw_eq hf hx (show 1 < 32 by decide)
  have hvalue : v = if x.getLsbD ((b + k) % 32) then 1 else 0 := by
    rw [← BitField.toNat_get_one]
    exact Option.some.inj (hv.symm.trans hread)
  have hcap : (Field.at 1 (b + k)).capacity = 2 := Field.capacity_of_inWord hlow
  have hlt : v < 2 := by
    rw [hvalue]
    split
    · exact Nat.lt_succ_self 1
    · exact Nat.zero_lt_two
  rw [hcap, Nat.mod_eq_of_lt (by omega)] at hself
  refine ⟨hlt, inst', ?_, hlen', hself, hother⟩
  rw [← hset, setRaw_eq hf hx (show 1 < 32 by decide), flipBit,
    show fs.rawSize - fs.nbool = fs.discStart + fs.nDisc + 0 by omega, hfirst, Option.bind_some]
  simp only [Field.at_offset, Nat.add_zero, hx, Option.map_some, hvalue]
  obtain ⟨hone, hzero, -⟩ := BitField.set_one_bit x ((b + k) % 32)
  by_cases hbit : x.getLsbD ((b + k) % 32) = true
  · rw [if_pos hbit, if_pos hbit]
    exact congrArg (fun x => some (inst.set _ x)) hzero.symm
  · rw [if_neg hbit, if_neg hbit]
    exact congrArg (fun x => some (inst.set _ x)) hone.symm

end FieldSet

end OpenCog.Moses
