import OpenCog.Moses.ContinSteps
import OpenCog.Moses.RawValues

/-! Continuous values written into an instance by search, and read back. -/
namespace OpenCog.Moses

open ContinSpec ContinStepper

/-! ## Writing -/

/-- `epsilon()`; the shift of a `size_t` is defined below its width. -/
def epsilon (stepSize : ℚ) (depth : Nat) : Option ℚ :=
  if depth < 64 then some (stepSize / 2 ^ depth) else none

/-- The search after some steps. -/
structure Approach where
  inst : FieldSet.Instance
  stepper : ContinStepper ℚ
  bestDistance : ℚ
  bestDepth : Nat

/-- A value is kept when it is nearer than the best one. -/
def Approach.moved (a : Approach) (inst : FieldSet.Instance) (stepper : ContinStepper ℚ)
    (target : ℚ) (i : Nat) : Approach :=
  if |stepper.value - target| < a.bestDistance then
    ⟨inst, stepper, |stepper.value - target|, i + 1⟩
  else { a with inst, stepper }

theorem Approach.moved_stepper (a : Approach) (inst : FieldSet.Instance)
    (stepper : ContinStepper ℚ) (target : ℚ) (i : Nat) :
    (a.moved inst stepper target i).stepper = stepper := by
  unfold Approach.moved
  split <;> rfl

theorem Approach.moved_inst (a : Approach) (inst : FieldSet.Instance) (stepper : ContinStepper ℚ)
    (target : ℚ) (i : Nat) : (a.moved inst stepper target i).inst = inst := by
  unfold Approach.moved
  split <;> rfl

namespace FieldSet

def approachStep (fs : FieldSet ℚ) (raw : Nat) (expansion target : ℚ) (i : Nat) (a : Approach) :
    Option Approach :=
  if target < a.stepper.value then
    (fs.setRaw a.inst (raw + i) ContinSpec.left).map fun inst =>
      a.moved inst (a.stepper.left expansion) target i
  else
    (fs.setRaw a.inst (raw + i) ContinSpec.right).map fun inst =>
      a.moved inst (a.stepper.right expansion) target i

/-- So many more steps at most. -/
def approach (fs : FieldSet ℚ) (raw : Nat) (expansion epsilon target : ℚ) :
    Nat → Nat → Approach → Option Approach
  | 0, _, a => some a
  | n + 1, i, a =>
    if epsilon < a.bestDistance then
      (fs.approachStep raw expansion target i a).bind
        (fs.approach raw expansion epsilon target n (i + 1))
    else some a

/-- `set_contin`: what was written after the best depth is stopped. -/
def setContin (fs : FieldSet ℚ) (inst : Instance) (idx : Nat) (target : ℚ) : Option Instance :=
  match fs.contin[idx]? with
  | some (.contin mean stepSize expansion depth) =>
    (epsilon stepSize depth).bind fun eps =>
      (fs.approach (fs.continToRawIdx idx) expansion eps target depth 0
        ⟨inst, ⟨mean, true, true, stepSize⟩, |mean - target|, 0⟩).bind fun a =>
          fs.stopAll (depth - a.bestDepth) (fs.continToRawIdx idx + a.bestDepth) a.inst
  | _ => none

end FieldSet

/-! ## Encodings as turns -/

def Turn.disc : Turn → Nat
  | .left => ContinSpec.left
  | .right => ContinSpec.right

/-- The value that the turns encode. -/
def valueOf (mean stepSize expansion : ℚ) (ts : List Turn) : ℚ :=
  (turns ⟨mean, true, true, stepSize⟩ expansion ts).value

namespace FieldSet

variable {fs : FieldSet ℚ} {inst inst' : Instance} {start depth idx num : Nat}
  {mean stepSize e eps target : ℚ} {ts : List Turn}

/-- The turns, and then stops. -/
structure Encodes (fs : FieldSet ℚ) (inst : Instance) (start depth : Nat) (ts : List Turn) :
    Prop where
  le : ts.length ≤ depth
  steps : ∀ p t, ts[p]? = some t → fs.getRaw inst (start + p) = some t.disc
  stops : ∀ p, ts.length ≤ p → p < depth → fs.getRaw inst (start + p) = some stop

theorem Encodes.canonicalAt (h : fs.Encodes inst start depth ts) :
    fs.CanonicalAt inst start depth ts.length := by
  refine ⟨h.le, fun p hp => ?_, h.stops⟩
  rw [h.steps p ts[p] (List.getElem?_eq_getElem hp)]
  cases ts[p] with
  | left => exact .inl rfl
  | right => exact .inr rfl

theorem CanonicalAt.encodes (h : fs.CanonicalAt inst start depth num) :
    ∃ ts, fs.Encodes inst start depth ts := by
  let turnAt (p : Nat) : Turn :=
    if fs.getRaw inst (start + p) = some ContinSpec.left then .left else .right
  have hlen : ((List.range num).map turnAt).length = num := by simp
  refine ⟨(List.range num).map turnAt, hlen.symm ▸ h.le, fun p t ht => ?_, hlen.symm ▸ h.stops⟩
  obtain ⟨hp, rfl⟩ := List.getElem?_eq_some_iff.mp ht
  have hat : ((List.range num).map turnAt)[p] = turnAt p := by simp
  rw [hat]
  rcases h.steps p (hlen ▸ hp) with hl | hr
  · rw [show turnAt p = .left from if_pos hl, hl]
    rfl
  · rw [show turnAt p = .right from if_neg (by rw [hr]; decide), hr]
    rfl

theorem Encodes.tail {t : Turn} (h : fs.Encodes inst start (depth + 1) (t :: ts)) :
    fs.Encodes inst (start + 1) depth ts := by
  refine ⟨Nat.le_of_succ_le_succ h.le, fun p t' ht' => ?_, fun p hp hp' => ?_⟩
  · rw [Nat.add_assoc, Nat.add_comm 1]
    exact h.steps (p + 1) t' (by rwa [List.getElem?_cons_succ])
  · rw [Nat.add_assoc, Nat.add_comm 1]
    exact h.stops (p + 1) (Nat.succ_le_succ hp) (Nat.succ_lt_succ hp')

/-- Reading takes the turns. -/
theorem Encodes.walk (h : fs.Encodes inst start depth ts) (s : ContinStepper ℚ) :
    fs.walk inst e depth start s = some (s.turns e ts).value := by
  induction ts generalizing start depth s with
  | nil =>
    cases depth with
    | zero => rfl
    | succ depth =>
      have hstop : fs.getRaw inst start = some 0 := h.stops 0 le_rfl (Nat.succ_pos _)
      unfold FieldSet.walk
      rw [hstop]
      rfl
  | cons t ts ih =>
    cases depth with
    | zero => cases h.le
    | succ depth =>
      have hturn : fs.getRaw inst start = some t.disc := h.steps 0 t rfl
      unfold FieldSet.walk
      rw [hturn, turns_cons, ← ih h.tail]
      cases t with
      | left => rfl
      | right => rfl

theorem Encodes.getContin (hc : fs.contin[idx]? = some (.contin mean stepSize e depth))
    (h : fs.Encodes inst (fs.continToRawIdx idx) depth ts) :
    fs.getContin inst idx = some (valueOf mean stepSize e ts) := by
  rw [FieldSet.getContin, hc, Option.bind_some, decode]
  exact h.walk _

/-- Different turns encode different values. -/
theorem valueOf_inj (hstep : 0 < stepSize) (he : 1 ≤ e) {ts' : List Turn} (hn : ts.length ≤ depth)
    (hn' : ts'.length ≤ depth)
    (heq : valueOf mean stepSize e ts = valueOf mean stepSize e ts') : ts = ts' :=
  turns_inj (by positivity) he (fine_start mean stepSize e depth) hn hn' heq

/-! ## The raw fields of one variable -/

/-- Raw fields of two bits each. -/
structure ContinFields (fs : FieldSet ℚ) (start depth : Nat) : Prop where
  successive : fs.Successive
  field : ∀ p < depth, ∃ f, fs.fields[start + p]? = some f ∧ f.width = 2

theorem continFields_of_ofSpecs {specs : List (Spec ℚ)} {c : Spec ℚ} (h : ofSpecs specs = some fs)
    (hc : fs.contin[idx]? = some c) : fs.ContinFields (fs.continToRawIdx idx) c.depth := by
  obtain ⟨hlo, hhi⟩ := continToRawIdx_add_le hc
  exact ⟨successive_of_ofSpecs h, fun p hp => contin_field h (by omega) (by omega)⟩

theorem ContinFields.write (h : fs.ContinFields start depth) {p : Nat} (hp : p < depth)
    (hlen : inst.length = fs.packedWidth) (v : Nat) :
    ∃ f inst', fs.fields[start + p]? = some f ∧ fs.setRaw inst (start + p) v = some inst' ∧
      fs.Wrote inst inst' (start + p) (v % f.capacity) := by
  obtain ⟨f, hf, hwidth⟩ := h.field p hp
  obtain ⟨inst', hset, hlen', hself, hother⟩ :=
    h.successive.write hlen hf (by rw [hwidth]; decide) (v := v)
  exact ⟨f, inst', hf, hset, hlen', hself, hother⟩

theorem ContinFields.stoppable (h : fs.ContinFields start depth) : fs.Stoppable start depth := by
  intro p hp inst hlen
  obtain ⟨f, inst', -, hset, hw⟩ := h.write hp hlen stop
  rw [show stop % f.capacity = stop from Nat.zero_mod _] at hw
  exact ⟨inst', hset, hw⟩

/-- A field over the end of a word has one bit in it. -/
theorem ContinFields.capacity (h : fs.ContinFields start depth) {p : Nat} (hp : p < depth)
    {f : Field} (hf : fs.fields[start + p]? = some f) :
    f.InWord ∧ f.capacity = 4 ∨ ¬ f.InWord ∧ f.capacity = 2 := by
  obtain ⟨f', hf', hwidth⟩ := h.field p hp
  obtain rfl := Option.some.inj (hf.symm.trans hf')
  have hminor := h.successive.minor f (List.mem_of_getElem? hf)
  by_cases hin : f.InWord
  · exact .inl ⟨hin, by rw [Field.capacity_of_inWord hin, hwidth]; rfl⟩
  · refine .inr ⟨hin, ?_⟩
    have hlast : f.minorOffset = 31 := by
      unfold Field.InWord at hin
      omega
    rw [Field.capacity, hwidth, hlast]
    rfl

/-! ## The search takes the turns -/

/-- Turns written from a raw field on, each as far as its field holds it. -/
structure Marked (fs : FieldSet ℚ) (inst inst' : Instance) (raw : Nat) (ts : List Turn) : Prop where
  length : inst'.length = fs.packedWidth
  steps : ∀ p t, ts[p]? = some t → ∀ f, fs.fields[raw + p]? = some f →
    fs.getRaw inst' (raw + p) = some (t.disc % f.capacity)
  other : ∀ j, j < raw ∨ raw + ts.length ≤ j → fs.getRaw inst' j = fs.getRaw inst j

theorem Marked.cons {inst₁ : Instance} {raw : Nat} {t : Turn} {f : Field}
    (hf : fs.fields[raw]? = some f) (hw : fs.Wrote inst inst₁ raw (t.disc % f.capacity))
    (h : fs.Marked inst₁ inst' (raw + 1) ts) : fs.Marked inst inst' raw (t :: ts) := by
  refine ⟨h.length, fun p t' ht' g hg => ?_, fun j hj => ?_⟩
  · cases p with
    | zero =>
      obtain rfl := Option.some.inj (hf.symm.trans hg)
      obtain rfl := Option.some.inj ht'
      rw [Nat.add_zero, h.other raw (.inl (Nat.lt_succ_self raw)), hw.self]
    | succ p =>
      rw [List.getElem?_cons_succ] at ht'
      rw [show raw + (p + 1) = raw + 1 + p by omega] at hg ⊢
      exact h.steps p t' ht' g hg
  · rw [List.length_cons] at hj
    rw [h.other j (by omega), hw.other j (by omega)]

theorem approachStep_turn {a : Approach} {t : Turn} {i : Nat}
    (ht : 0 < t.offset target a.stepper.value) :
    fs.approachStep start e target i a = (fs.setRaw a.inst (start + i) t.disc).map fun inst =>
      a.moved inst (a.stepper.turn e t) target i := by
  unfold approachStep
  cases t with
  | left => exact if_pos (by simpa [Turn.offset] using ht)
  | right => exact if_neg (by simpa [Turn.offset] using ht.le)

/-- Between two steps: the search is not near enough until the turns are taken. -/
structure Approaching (a : Approach) (eps target e : ℚ) (i : Nat) (ts : List Turn) : Prop where
  target : (a.stepper.turns e ts).value = target
  fine : Fine eps e ts.length a.stepper
  away : ts ≠ [] → eps < a.bestDistance
  there : ts = [] → a.bestDistance = 0 ∧ a.bestDepth = i

theorem Approaching.moved {a : Approach} {i : Nat} {t : Turn} (heps : 0 < eps) (he : 1 ≤ e)
    (h : Approaching a eps target e i (t :: ts)) (inst : Instance) :
    Approaching (a.moved inst (a.stepper.turn e t) target i) eps target e (i + 1) ts := by
  have haway := h.away (List.cons_ne_nil t ts)
  have htarget := h.target
  rw [turns_cons] at htarget
  have hfine := h.fine.turn heps.le he t
  refine ⟨by rw [Approach.moved_stepper, htarget], by rwa [Approach.moved_stepper],
    fun hne => ?_, fun hnil => ?_⟩
  · obtain ⟨t', ts', rfl⟩ := List.exists_cons_of_ne_nil hne
    have hfar := offset_turns_cons (t := t') heps.le he hfine
    rw [htarget] at hfar
    have hdist : eps < |(a.stepper.turn e t).value - target| := by
      have := t'.offset_le_abs target (a.stepper.turn e t).value
      linarith
    unfold Approach.moved
    split
    · exact hdist
    · exact haway
  · subst hnil
    have hzero : |(a.stepper.turn e t).value - target| = 0 := by
      rw [← htarget, turns_nil, sub_self, abs_zero]
    rw [Approach.moved, if_pos (by rw [hzero]; exact heps.trans haway)]
    exact ⟨hzero, rfl⟩

theorem approaching_start (heps : 0 < eps) (he : 1 ≤ e)
    (hf : Fine eps e ts.length ⟨mean, true, true, stepSize⟩) (inst : Instance) :
    Approaching ⟨inst, ⟨mean, true, true, stepSize⟩, |mean - valueOf mean stepSize e ts|, 0⟩ eps
      (valueOf mean stepSize e ts) e 0 ts := by
  refine ⟨rfl, hf, fun hne => ?_, fun hnil => ?_⟩
  · obtain ⟨t, ts, rfl⟩ := List.exists_cons_of_ne_nil hne
    have hfar : 2 * eps ≤ t.offset (valueOf mean stepSize e (t :: ts)) mean :=
      offset_turns_cons heps.le he hf
    have := t.offset_le_abs (valueOf mean stepSize e (t :: ts)) mean
    change eps < |mean - valueOf mean stepSize e (t :: ts)|
    linarith
  · subst hnil
    exact ⟨by simp [valueOf], rfl⟩

theorem approach_turns (hf : fs.ContinFields start depth) (heps : 0 < eps) (he : 1 ≤ e)
    {n i : Nat} (hn : i + n = depth) (hts : ts.length ≤ n) {a : Approach}
    (ha : Approaching a eps target e i ts) (hlen : a.inst.length = fs.packedWidth) :
    ∃ a', fs.approach start e eps target n i a = some a' ∧ a'.bestDepth = i + ts.length ∧
      fs.Marked a.inst a'.inst (start + i) ts := by
  induction ts generalizing n i a with
  | nil =>
    obtain ⟨hzero, hdepth⟩ := ha.there rfl
    refine ⟨a, ?_, hdepth, hlen, nofun, fun _ _ => rfl⟩
    cases n with
    | zero => rfl
    | succ n =>
      rw [approach, if_neg]
      rw [hzero]
      exact not_lt.mpr heps.le
  | cons t ts ih =>
    cases n with
    | zero => cases hts
    | succ n =>
      obtain ⟨f, inst₁, hfield, hset, hw⟩ := hf.write (p := i) (by omega) hlen t.disc
      have hfar := offset_turns_cons (t := t) heps.le he ha.fine
      rw [ha.target] at hfar
      obtain ⟨a', hrest, hdepth, hm⟩ := ih (by omega) (Nat.le_of_succ_le_succ hts)
        (ha.moved heps he inst₁) (by rw [Approach.moved_inst]; exact hw.length)
      rw [Approach.moved_inst] at hm
      refine ⟨a', ?_, ?_, .cons hfield hw hm⟩
      · rw [approach, if_pos (ha.away (List.cons_ne_nil t ts)),
          approachStep_turn (lt_of_lt_of_le (by linarith) hfar), hset, Option.map_some,
          Option.bind_some, hrest]
      · rw [hdepth, List.length_cons]
        omega

/-! ## The round trip -/

theorem setContin_turns {specs : List (Spec ℚ)} (h : ofSpecs specs = some fs)
    (hc : fs.contin[idx]? = some (.contin mean stepSize e depth)) (hstep : 0 < stepSize)
    (he : 1 ≤ e) (hlen : inst.length = fs.packedWidth) (hts : ts.length ≤ depth)
    (hdepth : depth < 64) :
    ∃ inst', fs.setContin inst idx (valueOf mean stepSize e ts) = some inst' ∧
      inst'.length = fs.packedWidth ∧
      (∀ p t, ts[p]? = some t → ∀ f, fs.fields[fs.continToRawIdx idx + p]? = some f →
        fs.getRaw inst' (fs.continToRawIdx idx + p) = some (t.disc % f.capacity)) ∧
      (∀ p, ts.length ≤ p → p < depth →
        fs.getRaw inst' (fs.continToRawIdx idx + p) = some stop) ∧
      ∀ j, j < fs.continToRawIdx idx ∨ fs.continToRawIdx idx + depth ≤ j →
        fs.getRaw inst' j = fs.getRaw inst j := by
  have hf : fs.ContinFields (fs.continToRawIdx idx) depth := continFields_of_ofSpecs h hc
  have heps : 0 < stepSize / 2 ^ depth := by positivity
  have hfine := (fine_start mean stepSize e depth).mono heps.le hts
  obtain ⟨a', happ, hbest, hm⟩ := approach_turns hf heps he (Nat.zero_add depth) hts
    (approaching_start heps he hfine inst) hlen
  rw [Nat.zero_add] at hbest
  obtain ⟨inst', hall, hlen', hstops, hrest⟩ := stopAll_spec hf.stoppable (p := ts.length)
    (m := depth - ts.length) (by omega) hm.length
  refine ⟨inst', ?_, hlen', fun p t ht f hf' => ?_, fun p hp hp' => hstops p hp (by omega),
    fun j hj => ?_⟩
  · rw [setContin, hc]
    simp only [epsilon, if_pos hdepth, Option.bind_some]
    rw [happ, Option.bind_some, hbest, hall]
  · have hp := (List.getElem?_eq_some_iff.mp ht).1
    rw [hrest _ (by omega)]
    exact hm.steps p t ht f hf'
  · rw [hrest j (by omega), hm.other j (by omega)]

/-- Written and read back, the value of some turns is the same, canonically encoded and without a
change to another raw field, iff the depth is below the width of a `size_t` and no turn to the
right is written to a field over the end of a word. -/
theorem setContin_roundTrips_iff {specs : List (Spec ℚ)} (h : ofSpecs specs = some fs)
    (hc : fs.contin[idx]? = some (.contin mean stepSize e depth)) (hstep : 0 < stepSize)
    (he : 1 ≤ e) (hlen : inst.length = fs.packedWidth) (hts : ts.length ≤ depth) :
    (∃ inst', fs.setContin inst idx (valueOf mean stepSize e ts) = some inst' ∧
      fs.getContin inst' idx = some (valueOf mean stepSize e ts) ∧ fs.Canonical inst' idx ∧
      ∀ j, j < fs.continToRawIdx idx ∨ fs.continToRawIdx idx + depth ≤ j →
        fs.getRaw inst' j = fs.getRaw inst j) ↔
    depth < 64 ∧ ∀ p, ts[p]? = some .right →
      ∀ f, fs.fields[fs.continToRawIdx idx + p]? = some f → f.InWord := by
  have hf : fs.ContinFields (fs.continToRawIdx idx) depth := continFields_of_ofSpecs h hc
  constructor
  · rintro ⟨inst', hset, hget, ⟨c, num, hc', hat⟩, -⟩
    have hdepth : depth < 64 := by
      by_contra hge
      rw [setContin, hc] at hset
      simp [epsilon, hge] at hset
    refine ⟨hdepth, fun p hp f hfield => ?_⟩
    obtain rfl := Option.some.inj (hc.symm.trans hc')
    obtain ⟨ts', hts'⟩ := hat.encodes
    -- what is read are the turns, so a right step was kept
    have heq := Option.some.inj (hget.symm.trans (hts'.getContin hc))
    obtain rfl := valueOf_inj hstep he hts hts'.le heq
    have hread := hts'.steps p .right hp
    obtain ⟨inst₁, hset₁, hlen₁, -⟩ := setContin_turns h hc hstep he hlen hts hdepth
    obtain rfl := Option.some.inj (hset.symm.trans hset₁)
    have hpd : p < depth := (List.getElem?_eq_some_iff.mp hp).1.trans_le hts
    obtain ⟨f', hf', hwidth⟩ := hf.field p hpd
    obtain rfl := Option.some.inj (hfield.symm.trans hf')
    obtain ⟨v, hv, hread'⟩ := hf.successive.read hlen₁ hfield (by rw [hwidth]; decide)
    obtain rfl := Option.some.inj (hread.symm.trans hread')
    rcases hf.capacity hpd hfield with ⟨hin, -⟩ | ⟨-, hcap⟩
    · exact hin
    · rw [hcap] at hv
      exact absurd hv (by decide)
  · rintro ⟨hdepth, hin⟩
    obtain ⟨inst', hset, hlen', hsteps, hstops, hother⟩ :=
      setContin_turns h hc hstep he hlen hts hdepth
    have henc : fs.Encodes inst' (fs.continToRawIdx idx) depth ts := by
      refine ⟨hts, fun p t ht => ?_, hstops⟩
      have hpd : p < depth := (List.getElem?_eq_some_iff.mp ht).1.trans_le hts
      obtain ⟨f, hfield, -⟩ := hf.field p hpd
      rw [hsteps p t ht f hfield]
      cases t with
      | left =>
        rcases hf.capacity hpd hfield with ⟨-, hcap⟩ | ⟨-, hcap⟩
        · rw [hcap]; rfl
        · rw [hcap]; rfl
      | right =>
        rcases hf.capacity hpd hfield with ⟨-, hcap⟩ | ⟨hout, -⟩
        · rw [hcap]; rfl
        · exact absurd (hin p ht f hfield) hout
    exact ⟨inst', hset, henc.getContin hc, ⟨_, _, hc, henc.canonicalAt⟩, hother⟩

/-- One step to the right, and half of one back. -/
theorem setContin_roundTrips_half :
    ∃ fs, ofSpecs ([.contin 0 1 2 4] : List (Spec ℚ)) = some fs ∧
      ∃ inst', fs.setContin [0#32] 0 (1 / 2) = some inst' ∧
        fs.getContin inst' 0 = some (1 / 2) ∧ fs.Canonical inst' 0 := by
  obtain ⟨fs, hfs⟩ : ∃ fs, fs = (⟨fieldRun 2 0 4, [(.contin 0 1 2 4, 1)]⟩ : FieldSet ℚ) := ⟨_, rfl⟩
  have h : ofSpecs ([.contin 0 1 2 4] : List (Spec ℚ)) = some fs := by rw [hfs]; rfl
  have hc : fs.contin[0]? = some (.contin 0 1 2 4) := by rw [hfs]; rfl
  have hvalue : valueOf 0 1 2 [.right, .left] = 1 / 2 := by decide +kernel
  have hword : ∀ p, [Turn.right, .left][p]? = some .right →
      ∀ f, fs.fields[fs.continToRawIdx 0 + p]? = some f → f.InWord := by
    intro p _ f hf
    obtain ⟨i, -, rfl⟩ := mem_fieldRun.mp (by rw [hfs] at hf; exact List.mem_of_getElem? hf)
    simp only [Field.InWord, Field.at]
    omega
  obtain ⟨inst', hset, hget, hcan, -⟩ := (@setContin_roundTrips_iff _ [0#32] _ _ _ _ _
    [.right, .left] _ h hc one_pos one_le_two (by rw [hfs]; rfl) (by decide)).mpr ⟨by decide, hword⟩
  rw [hvalue] at hset hget
  exact ⟨fs, h, inst', hset, hget, hcan⟩

/-- Sixteen steps to the right, of which the last is written to the last bit of a word, are read
as fifteen; with 64 raw fields nothing is written. -/
theorem setContin_not_roundTrips :
    (∃ fs, ofSpecs ([.onto 1 1, .contin 0 1 1 16] : List (Spec ℚ)) = some fs ∧
      fs.packedWidth = 1 ∧ valueOf 0 1 1 (List.replicate 16 .right) = 16 ∧
      (fs.setContin [0#32] 0 16).bind (fs.getContin · 0) = some 15) ∧
    ∃ fs, ofSpecs ([.contin 0 1 1 64] : List (Spec ℚ)) = some fs ∧ fs.packedWidth = 4 ∧
      valueOf 0 1 1 [] = 0 ∧ fs.setContin [0#32, 0#32, 0#32, 0#32] 0 0 = none := by
  refine ⟨⟨_, rfl, rfl, by decide +kernel, by decide +kernel⟩, _, rfl, by decide +kernel,
    by decide +kernel, by decide +kernel⟩

end FieldSet

end OpenCog.Moses
