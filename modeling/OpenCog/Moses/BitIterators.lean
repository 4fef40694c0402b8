import OpenCog.Moses.PlainFields

/-! Iterators over the variables of one bit, which stand last in a field set: a word of the
instance and a mask of the bit in it. -/
namespace OpenCog.Moses

open BitField (Word)

/-- `bit_iterator_base`. A word is given by its distance from the first one of the instance; an
iterator that points nowhere has no bit in its mask. -/
@[ext]
structure BitIterator where
  it : Int
  mask : Word
  deriving DecidableEq

namespace BitIterator

/-! ## Operators -/

def null : BitIterator := ⟨0, 0#32⟩

def inc (x : BitIterator) : BitIterator :=
  if x.mask <<< 1 = 0#32 then ⟨x.it + 1, 1#32⟩ else ⟨x.it, x.mask <<< 1⟩

def dec (x : BitIterator) : BitIterator :=
  if x.mask >>> 1 = 0#32 then ⟨x.it - 1, 1#32 <<< 31⟩ else ⟨x.it, x.mask >>> 1⟩

/-- `operator+=` of a distance that is not negative. -/
def forth (x : BitIterator) (n : Nat) : BitIterator :=
  inc^[n % 32] ⟨x.it + (n / 32 : Nat), x.mask⟩

/-- `operator-=` of a distance that is not negative. -/
def back (x : BitIterator) (n : Nat) : BitIterator :=
  dec^[n % 32] ⟨x.it - (n / 32 : Nat), x.mask⟩

/-- `x + n`, and `x - n` below: each calls the other for a negative distance. -/
def plus (x : BitIterator) (n : Int) : BitIterator :=
  if n < 0 then x.back (-n).toNat else x.forth n.toNat

def minus (x : BitIterator) (n : Int) : BitIterator :=
  if n < 0 then x.forth (-n).toNat else x.back n.toNat

/-- The place of the mask's bit. -/
def bit (x : BitIterator) : Nat := integerLog2 x.mask.toNat

/-- `operator<`: the bits are compared also in different words. -/
def lt (x y : BitIterator) : Bool := if x.it < y.it then true else decide (x.bit < y.bit)

/-- `x - y`. -/
def diff (x y : BitIterator) : Int := 32 * (x.it - y.it) + x.bit - y.bit

/-! ## The bit -/

/-- The word that is pointed to. -/
def word (x : BitIterator) (inst : FieldSet.Instance) : Option Word :=
  if 0 ≤ x.it then inst[x.it.toNat]? else none

def read (x : BitIterator) (inst : FieldSet.Instance) : Option Bool :=
  (x.word inst).map fun w => w &&& x.mask != 0#32

/-- The word is replaced. -/
def store (x : BitIterator) (inst : FieldSet.Instance) (f : Word → Word) :
    Option FieldSet.Instance :=
  (x.word inst).map fun w => inst.set x.it.toNat (f w)

def doSet (x : BitIterator) (w : Word) : Word := w ||| x.mask

def doReset (x : BitIterator) (w : Word) : Word := w &&& ~~~x.mask

def doFlip (x : BitIterator) (w : Word) : Word := w ^^^ x.mask

/-- `*x = b`. -/
def assign (x : BitIterator) (inst : FieldSet.Instance) (b : Bool) : Option FieldSet.Instance :=
  x.store inst fun w => if b then x.doSet w else x.doReset w

def flip (x : BitIterator) (inst : FieldSet.Instance) : Option FieldSet.Instance :=
  x.store inst x.doFlip

end BitIterator

namespace FieldSet

variable {C : Type}

/-- The raw field of a variable of one bit. -/
def bitIdx (fs : FieldSet C) (k : Nat) : Nat := fs.rawSize - fs.nbool + k

def beginBits (fs : FieldSet C) : BitIterator :=
  match fs.fields[fs.bitIdx 0]? with
  | none => .null
  | some f => ⟨f.majorOffset, 1#32 <<< f.minorOffset⟩

/-- One behind the last field, in the last word of the instance. -/
def endBits (fs : FieldSet C) (inst : Instance) : BitIterator :=
  match fs.fields[fs.bitIdx 0]?, fs.fields.getLast? with
  | some _, some f => BitIterator.inc ⟨inst.length - 1, 1#32 <<< f.minorOffset⟩
  | _, _ => .null

end FieldSet

/-! ## Iterators as places -/

namespace BitIterator

/-- The iterator at a bit, counted from the start of the instance. -/
def ofBit (p : Int) : BitIterator := ⟨p / 32, 1#32 <<< (p % 32).toNat⟩

theorem mk_eq_ofBit (p : Nat) :
    (⟨(p / 32 : Nat), 1#32 <<< (p % 32)⟩ : BitIterator) = ofBit p := by
  rw [ofBit, show ((p : Int) % 32).toNat = p % 32 by omega, Int.natCast_ediv]
  rfl

theorem inc_ofBit (p : Int) : (ofBit p).inc = ofBit (p + 1) := by
  have hwrap : ∀ k : Nat, k < 32 →
      (1#32 <<< k) <<< 1 = (if k = 31 then 0#32 else 1#32 <<< (k + 1) : Word) := by decide
  have hlt : (p % 32).toNat < 32 := by omega
  have hne : ∀ k : Nat, k < 31 → 1#32 <<< (k + 1) ≠ 0#32 := by decide
  unfold inc
  simp only [ofBit, hwrap _ hlt]
  by_cases h : (p % 32).toNat = 31
  · rw [if_pos h, if_pos rfl, show (p + 1) / 32 = p / 32 + 1 by omega,
      show ((p + 1) % 32).toNat = 0 by omega]
    rfl
  · rw [if_neg h, if_neg (hne _ (by omega)), show (p + 1) / 32 = p / 32 by omega,
      show ((p + 1) % 32).toNat = (p % 32).toNat + 1 by omega]

theorem dec_ofBit (p : Int) : (ofBit p).dec = ofBit (p - 1) := by
  have hwrap : ∀ k : Nat, k < 32 →
      (1#32 <<< k) >>> 1 = (if k = 0 then 0#32 else 1#32 <<< (k - 1) : Word) := by decide
  have hlt : (p % 32).toNat < 32 := by omega
  have hne : ∀ k : Nat, k < 32 → 1#32 <<< k ≠ 0#32 := by decide
  unfold dec
  simp only [ofBit, hwrap _ hlt]
  by_cases h : (p % 32).toNat = 0
  · rw [if_pos h, if_pos rfl, show (p - 1) / 32 = p / 32 - 1 by omega,
      show ((p - 1) % 32).toNat = 31 by omega]
  · rw [if_neg h, if_neg (hne _ (by omega)), show (p - 1) / 32 = p / 32 by omega,
      show ((p - 1) % 32).toNat = (p % 32).toNat - 1 by omega]

theorem iterate_inc_ofBit (p : Int) (n : Nat) : inc^[n] (ofBit p) = ofBit (p + n) := by
  induction n with
  | zero => rw [Function.iterate_zero, id, Nat.cast_zero, Int.add_zero]
  | succ n ih => rw [Function.iterate_succ_apply', ih, inc_ofBit, Nat.cast_succ, Int.add_assoc]

theorem iterate_dec_ofBit (p : Int) (n : Nat) : dec^[n] (ofBit p) = ofBit (p - n) := by
  induction n with
  | zero => rw [Function.iterate_zero, id, Nat.cast_zero, Int.sub_zero]
  | succ n ih => rw [Function.iterate_succ_apply', ih, dec_ofBit, Nat.cast_succ, Int.sub_sub]

/-- Whole words are a number of bits. -/
theorem ofBit_add_words (p : Int) (w : Int) : (⟨(ofBit p).it + w, (ofBit p).mask⟩ : BitIterator) =
    ofBit (p + 32 * w) := by
  rw [ofBit, ofBit, show (p + 32 * w) / 32 = p / 32 + w by omega,
    show (p + 32 * w) % 32 = p % 32 by omega]

theorem forth_ofBit (p : Int) (n : Nat) : (ofBit p).forth n = ofBit (p + n) := by
  rw [forth, ofBit_add_words, iterate_inc_ofBit]
  congr 1
  omega

theorem back_ofBit (p : Int) (n : Nat) : (ofBit p).back n = ofBit (p - n) := by
  rw [back, Int.sub_eq_add_neg, ofBit_add_words, iterate_dec_ofBit]
  congr 1
  omega

theorem plus_ofBit (p n : Int) : (ofBit p).plus n = ofBit (p + n) := by
  unfold plus
  split
  · rw [back_ofBit]
    congr 1
    omega
  · rw [forth_ofBit]
    congr 1
    omega

/-- To go back is to go the opposite distance. -/
theorem minus_ofBit (p n : Int) : (ofBit p).minus n = (ofBit p).plus (-n) := by
  rw [plus_ofBit]
  unfold minus
  split
  · rw [forth_ofBit]
    congr 1
    omega
  · rw [back_ofBit]
    congr 1
    omega

theorem bit_ofBit (p : Int) : ((ofBit p).bit : Int) = p % 32 := by
  have hlog : ∀ k : Nat, k < 32 → integerLog2 (1#32 <<< k).toNat = k := by decide
  have hlt : (p % 32).toNat < 32 := by omega
  rw [bit, ofBit, hlog _ hlt]
  omega

theorem diff_ofBit (p q : Int) : (ofBit p).diff (ofBit q) = p - q := by
  rw [diff, bit_ofBit, bit_ofBit]
  simp only [ofBit]
  omega

theorem lt_ofBit (p q : Int) :
    (ofBit p).lt (ofBit q) = true ↔ p / 32 < q / 32 ∨ p % 32 < q % 32 := by
  have hbits : (ofBit p).bit < (ofBit q).bit ↔ p % 32 < q % 32 := by
    rw [← bit_ofBit p, ← bit_ofBit q, Int.ofNat_lt]
  unfold lt
  by_cases h : (ofBit p).it < (ofBit q).it
  · rw [if_pos h]
    exact iff_of_true rfl (.inl h)
  · rw [if_neg h, decide_eq_true_eq, hbits]
    exact (or_iff_right h).symm

/-! ## Reading and writing -/

/-- A mask of one bit selects it. -/
theorem and_one_bit (w : Word) {k : Nat} (hk : k < 32) :
    (w &&& (1#32 <<< k) != 0#32) = w.getLsbD k := by
  have hone : 1#32 <<< k ≠ 0#32 := by
    have hall : ∀ k : Nat, k < 32 → 1#32 <<< k ≠ 0#32 := by decide
    exact hall k hk
  rw [← BitVec.twoPow_eq, BitVec.and_twoPow, BitVec.twoPow_eq]
  cases w.getLsbD k with
  | true => simpa using hone
  | false => rfl

theorem word_ofBit (p : Nat) (inst : FieldSet.Instance) : (ofBit p).word inst = inst[p / 32]? := by
  have hit : (ofBit p).it = (p / 32 : Nat) := by simp [ofBit]
  rw [word, if_pos (by omega), hit, Int.toNat_natCast]

theorem mask_ofBit (p : Nat) : (ofBit p).mask = 1#32 <<< (p % 32) := by
  rw [ofBit, show ((p : Int) % 32).toNat = p % 32 by omega]

theorem read_ofBit (p : Nat) (inst : FieldSet.Instance) :
    (ofBit p).read inst = inst[p / 32]?.map fun w => w.getLsbD (p % 32) := by
  rw [read, word_ofBit]
  refine congrArg (fun f => Option.map f _) (funext fun w => ?_)
  rw [mask_ofBit, and_one_bit w (Nat.mod_lt _ (by decide))]

theorem store_ofBit (p : Nat) (inst : FieldSet.Instance) (f : Word → Word) :
    (ofBit p).store inst f = inst[p / 32]?.map fun w => inst.set (p / 32) (f w) := by
  have hit : (ofBit p).it.toNat = p / 32 := by
    simp only [ofBit]
    omega
  rw [store, word_ofBit, hit]

/-- An assignment writes a field of one bit. -/
theorem assign_ofBit (p : Nat) (inst : FieldSet.Instance) (b : Bool) :
    (ofBit p).assign inst b = inst[p / 32]?.map fun w =>
      inst.set (p / 32) (BitField.set w (p % 32) 1 (if b then 1 else 0)) := by
  rw [assign, store_ofBit]
  refine congrArg (fun f => Option.map f _) (funext fun w => congrArg _ ?_)
  obtain ⟨hone, hzero, -⟩ := BitField.set_one_bit w (p % 32)
  cases b with
  | true => rw [if_pos rfl, if_pos rfl, doSet, mask_ofBit, hone]
  | false => rw [if_neg (by decide), if_neg (by decide), doReset, mask_ofBit, hzero]

/-- To flip a bit is to assign its complement. -/
theorem flip_ofBit (p : Nat) (inst : FieldSet.Instance) :
    (ofBit p).flip inst = ((ofBit p).read inst).bind fun b => (ofBit p).assign inst !b := by
  rw [flip, store_ofBit, read_ofBit]
  cases hx : inst[p / 32]? with
  | none => rfl
  | some w =>
    have hvalue : (if !w.getLsbD (p % 32) then 1 else 0) = if w.getLsbD (p % 32) then 0 else 1 := by
      cases w.getLsbD (p % 32) <;> rfl
    simp only [Option.map_some, Option.bind_some, assign_ofBit, hx, hvalue, doFlip, mask_ofBit,
      (BitField.set_one_bit w (p % 32)).2.2]

end BitIterator

namespace FieldSet

variable {C : Type} {fs : FieldSet C}

theorem getRaw_bit {inst : Instance} {i p : Nat} (hf : fs.fields[i]? = some (.at 1 p)) :
    fs.getRaw inst i = ((BitIterator.ofBit p).read inst).map fun b => if b then 1 else 0 := by
  rw [BitIterator.read_ofBit, Option.map_map]
  cases hx : inst[p / 32]? with
  | none => simp [getRaw, hf, Field.at, hx]
  | some w =>
    rw [getRaw_eq hf hx (Nat.one_lt_ofNat), Field.at_width, Option.map_some]
    exact congrArg some (BitField.toNat_get_one w (p % 32))

theorem setRaw_bit {inst : Instance} {i p : Nat} (hf : fs.fields[i]? = some (.at 1 p)) (b : Bool) :
    fs.setRaw inst i (if b then 1 else 0) = (BitIterator.ofBit p).assign inst b := by
  rw [BitIterator.assign_ofBit]
  cases hx : inst[p / 32]? with
  | none => simp [setRaw, hf, Field.at, hx]
  | some w => exact setRaw_eq hf hx (Nat.one_lt_ofNat)

end FieldSet

/-! ## Bits are last -/

section Layout
variable {C : Type}

/-- A discrete variable of one bit. -/
def Spec.IsBit (s : Spec C) : Prop := s.which = 2 ∧ s.width = 1

instance (s : Spec C) : Decidable s.IsBit := by
  unfold Spec.IsBit
  infer_instance

/-- `_nbool` of a set built from these specs. -/
def nboolOf (gs : List (Spec C × Nat)) : Nat :=
  ((gs.filter fun g => g.1.which = 2).flatMap fun g => List.replicate g.2 g.1).countP
    fun s => s.width = 1

theorem nboolOf_cons (g : Spec C × Nat) (gs : List (Spec C × Nat)) :
    nboolOf (g :: gs) = (if g.1.IsBit then g.2 else 0) + nboolOf gs := by
  unfold nboolOf
  by_cases hdisc : g.1.which = 2
  · rw [List.filter_cons_of_pos (by simpa using hdisc), List.flatMap_cons, List.countP_append,
      List.countP_replicate]
    simp [Spec.IsBit, hdisc]
  · rw [List.filter_cons_of_neg (by simpa using hdisc), if_neg fun h => hdisc h.1, Nat.zero_add]

theorem Spec.IsBit.fields {s : Spec C} (h : s.IsBit) (base n : Nat) :
    s.fields base n = fieldRun 1 base n ∧ s.endAt base n = base + n := by
  obtain ⟨hdisc, hone⟩ := h
  cases s with
  | onto => cases hdisc
  | contin => cases hdisc
  | disc a =>
    have hwidth : nbitsToPack a = 1 := hone
    refine ⟨by rw [Spec.fields, hwidth], ?_⟩
    simp only [endAt, runs, runLength, hone]
    split <;> omega

theorem fieldRun_append (w base n m : Nat) :
    fieldRun w base n ++ fieldRun w (base + n * w) m = fieldRun w base (n + m) := by
  simp only [← place_replicate, List.replicate_add, place_append, List.sum_replicate, smul_eq_mul]

/-- Variables of one bit take one bit after the other. -/
theorem layout_allBits {gs : List (Spec C × Nat)} (h : ∀ g ∈ gs, g.1.IsBit) (base : Nat) :
    layout base gs = fieldRun 1 base (nboolOf gs) := by
  induction gs generalizing base with
  | nil => rfl
  | cons g gs ih =>
    have hg := h g List.mem_cons_self
    obtain ⟨hfields, hend⟩ := hg.fields base g.2
    rw [layout, hfields, hend, ih fun g' hg' => h g' (List.mem_cons_of_mem _ hg'), nboolOf_cons,
      if_pos hg, ← fieldRun_append, Nat.mul_one]

theorem layout_bits {gs : List (Spec C × Nat)}
    (h : gs.Pairwise fun g g' => g.1.IsBit → g'.1.IsBit) (base : Nat) :
    ∃ before b, layout base gs = before ++ fieldRun 1 b (nboolOf gs) := by
  induction gs generalizing base with
  | nil => exact ⟨[], 0, rfl⟩
  | cons g gs ih =>
    obtain ⟨hg, hgs⟩ := List.pairwise_cons.mp h
    by_cases hbit : g.1.IsBit
    · refine ⟨[], base, ?_⟩
      rw [List.nil_append]
      exact layout_allBits (List.forall_mem_cons.mpr ⟨hbit, fun g' hg' => hg g' hg' hbit⟩) base
    · obtain ⟨before, b, hb⟩ := ih hgs (g.1.endAt base g.2)
      refine ⟨g.1.fields base g.2 ++ before, b, ?_⟩
      rw [layout, hb, nboolOf_cons, if_neg hbit, Nat.zero_add, List.append_assoc]

/-- Higher for smaller arities, and least for what is not discrete. -/
def Spec.rank : Spec C → Nat
  | disc arity => 2 ^ 32 - arity
  | _ => 0

theorem Spec.isBit_iff_rank (s : Spec C) : s.IsBit ↔ 2 ^ 32 - 2 ≤ s.rank := by
  cases s with
  | onto => simp [IsBit, which, rank]
  | contin => simp [IsBit, which, rank]
  | disc a =>
    have hone : (disc a : Spec C).width = 1 ↔ a.val ≤ 2 := nbitsToPack_eq_one_iff a.isLt
    have ha := a.isLt
    rw [IsBit, hone, rank]
    simp only [which, true_and]
    omega

variable [LT C] [DecidableLT C] [DecidableEq C]

theorem Spec.rank_le_of_less (s t : Spec C) (h : s.less t = true) : s.rank ≤ t.rank := by
  cases s with
  | onto => exact Nat.zero_le _
  | contin => exact Nat.zero_le _
  | disc a =>
    cases t with
    | onto => cases h
    | contin => cases h
    | disc b =>
      have hlt : b < a := of_decide_eq_true h
      simp only [rank]
      omega

theorem specCounts_bits (specs : List (Spec C)) :
    (specCounts specs).Pairwise fun g g' => g.1.IsBit → g'.1.IsBit := by
  refine (specCounts_sortedBy Spec.rank_le_of_less specs).imp fun hle hbit => ?_
  rw [Spec.isBit_iff_rank] at hbit ⊢
  exact Nat.le_trans hbit hle

end Layout

namespace FieldSet

section Constructors
variable {C : Type} [LT C] [DecidableLT C] [DecidableEq C]

/-- The constructors that initialize the set: from a range of specs, and of one spec. -/
inductive Constructed : FieldSet C → Prop where
  | range {specs : List (Spec C)} {fs : FieldSet C} (h : ofSpecs specs = some fs) : Constructed fs
  | single {s : Spec C} {n : Nat} {fs : FieldSet C} (h : build [(s, n)] = some fs) : Constructed fs

theorem Constructed.bits_last {fs : FieldSet C} (h : Constructed fs) :
    ∃ before b, fs.fields = before ++ fieldRun 1 b fs.nbool := by
  have hbuilt : ∀ gs : List (Spec C × Nat), build gs = some fs →
      (gs.Pairwise fun g g' => g.1.IsBit → g'.1.IsBit) →
      ∃ before b, fs.fields = before ++ fieldRun 1 b fs.nbool := by
    intro gs hgs hbits
    have hspecs : fs.specs = gs := build_specs hgs
    obtain ⟨before, b, hb⟩ := layout_bits hbits 0
    refine ⟨before, b, ?_⟩
    have hcount : fs.nbool = nboolOf gs := by
      rw [← hspecs]
      rfl
    rw [build_fields hgs, hcount, ← hb]
    rfl
  cases h with
  | range h => exact hbuilt _ h (specCounts_bits _)
  | single h => exact hbuilt _ h (List.pairwise_singleton _ _)

end Constructors

/-! ## The laws of the iterators -/

variable {C : Type}

/-- The iterator so many places after the first one. -/
def bitAt (fs : FieldSet C) (k : Nat) : BitIterator := fs.beginBits.plus k

/-- For the iterators `x` and `y` at two places, and a distance `n` from the first: they stand
for the raw fields, `x + n` is reached in `n` steps and is `n` from `x`, and the order is that of
the distance. -/
structure Lawful (fs : FieldSet C) (inst : Instance) (i j : Nat) (n : Int) : Prop where
  last : fs.bitAt fs.nbool = fs.endBits inst
  read : ∀ k < fs.nbool, ∃ b, (fs.bitAt k).read inst = some b ∧
    fs.getRaw inst (fs.bitIdx k) = some (if b then 1 else 0)
  write : ∀ k < fs.nbool, ∀ b, ∃ inst', (fs.bitAt k).assign inst b = some inst' ∧
    fs.setRaw inst (fs.bitIdx k) (if b then 1 else 0) = some inst'
  back : ((fs.bitAt i).plus n).diff (fs.bitAt i) = n
  steps : (fs.bitAt i).plus n =
    if 0 ≤ n then BitIterator.inc^[n.toNat] (fs.bitAt i)
    else BitIterator.dec^[(-n).toNat] (fs.bitAt i)
  order : (fs.bitAt i).lt (fs.bitAt j) = true ↔ 0 < (fs.bitAt j).diff (fs.bitAt i)

/-- The variables of one bit take the bits from `b` on. -/
structure BitsFrom (fs : FieldSet C) (b : Nat) : Prop where
  field : ∀ k < fs.nbool, fs.fields[fs.bitIdx k]? = some (.at 1 (b + k))
  last : fs.fields.getLast? = some (.at 1 (b + (fs.nbool - 1)))

theorem bitsFrom_of_append {fs : FieldSet C} {before : List Field} {b : Nat} (hn : 0 < fs.nbool)
    (h : fs.fields = before ++ fieldRun 1 b fs.nbool) : fs.BitsFrom b := by
  have hidx : ∀ k, fs.bitIdx k = before.length + k := by
    intro k
    rw [bitIdx, rawSize, h, List.length_append, length_fieldRun, Nat.add_sub_cancel]
  constructor
  · intro k hk
    rw [hidx, h, List.getElem?_append_right (Nat.le_add_right ..), Nat.add_sub_cancel_left,
      getElem?_fieldRun hk, Nat.mul_one]
  · have hlen : fs.fields.length - 1 = before.length + (fs.nbool - 1) := by
      rw [h, List.length_append, length_fieldRun]
      omega
    rw [List.getLast?_eq_getElem?, hlen, h, List.getElem?_append_right (Nat.le_add_right ..),
      Nat.add_sub_cancel_left, getElem?_fieldRun (by omega), Nat.mul_one]

section From
variable {fs : FieldSet C} {b : Nat}

theorem BitsFrom.beginBits (h : fs.BitsFrom b) (hn : 0 < fs.nbool) : fs.beginBits = .ofBit b := by
  rw [FieldSet.beginBits, h.field 0 hn]
  exact BitIterator.mk_eq_ofBit b

theorem BitsFrom.bitAt (h : fs.BitsFrom b) (hn : 0 < fs.nbool) (k : Nat) :
    fs.bitAt k = .ofBit (b + k : Nat) := by
  rw [FieldSet.bitAt, h.beginBits hn, BitIterator.plus_ofBit, Nat.cast_add]

theorem BitsFrom.packedWidth (h : fs.BitsFrom b) :
    fs.packedWidth = (b + (fs.nbool - 1)) / 32 + 1 := by
  rw [FieldSet.packedWidth, h.last]
  rfl

theorem BitsFrom.endBits (h : fs.BitsFrom b) (hn : 0 < fs.nbool) {inst : Instance}
    (hlen : inst.length = fs.packedWidth) : fs.endBits inst = .ofBit (b + fs.nbool : Nat) := by
  have hword : (inst.length : Int) - 1 = ((b + (fs.nbool - 1)) / 32 : Nat) := by
    rw [hlen, h.packedWidth]
    omega
  simp only [FieldSet.endBits, h.field 0 hn, h.last, hword, Field.at]
  rw [BitIterator.mk_eq_ofBit, BitIterator.inc_ofBit]
  congr 1
  omega

theorem BitsFrom.word (h : fs.BitsFrom b) {inst : Instance} (hlen : inst.length = fs.packedWidth)
    {k : Nat} (hk : k < fs.nbool) : ∃ w, inst[(b + k) / 32]? = some w := by
  have hlt : (b + k) / 32 < inst.length := by
    rw [hlen, h.packedWidth]
    omega
  exact ⟨_, List.getElem?_eq_getElem hlt⟩

/-- The order is lost between a bit and a higher one of an earlier word, and nowhere else. -/
theorem BitsFrom.laws_iff (h : fs.BitsFrom b) (hn : 0 < fs.nbool) {inst : Instance}
    (hlen : inst.length = fs.packedWidth) (i j : Nat) (n : Int) :
    fs.Lawful inst i j n ↔
      ¬ ((fs.bitAt j).it < (fs.bitAt i).it ∧ (fs.bitAt i).bit < (fs.bitAt j).bit) := by
  have horder : ((fs.bitAt i).lt (fs.bitAt j) = true ↔ 0 < (fs.bitAt j).diff (fs.bitAt i)) ↔
      ¬ ((fs.bitAt j).it < (fs.bitAt i).it ∧ (fs.bitAt i).bit < (fs.bitAt j).bit) := by
    have hi := BitIterator.bit_ofBit (b + i : Nat)
    have hj := BitIterator.bit_ofBit (b + j : Nat)
    rw [h.bitAt hn, h.bitAt hn, BitIterator.lt_ofBit, BitIterator.diff_ofBit]
    simp only [BitIterator.ofBit] at hi hj ⊢
    omega
  rw [← horder]
  refine ⟨fun hl => hl.order, fun ho => ⟨?_, ?_, ?_, ?_, ?_, ho⟩⟩
  · rw [h.bitAt hn, h.endBits hn hlen]
  · intro k hk
    obtain ⟨w, hw⟩ := h.word hlen hk
    refine ⟨w.getLsbD ((b + k) % 32), ?_, ?_⟩
    · rw [h.bitAt hn, BitIterator.read_ofBit, hw, Option.map_some]
    · rw [getRaw_bit (h.field k hk), BitIterator.read_ofBit, hw, Option.map_some, Option.map_some]
  · intro k hk v
    obtain ⟨w, hw⟩ := h.word hlen hk
    refine ⟨inst.set ((b + k) / 32) (BitField.set w ((b + k) % 32) 1 (if v then 1 else 0)), ?_, ?_⟩
    · rw [h.bitAt hn, BitIterator.assign_ofBit, hw, Option.map_some]
    · rw [setRaw_bit (h.field k hk), BitIterator.assign_ofBit, hw, Option.map_some]
  · rw [h.bitAt hn, BitIterator.plus_ofBit, BitIterator.diff_ofBit]
    omega
  · rw [h.bitAt hn, BitIterator.plus_ofBit, BitIterator.iterate_inc_ofBit,
      BitIterator.iterate_dec_ofBit]
    split
    · congr 1
      omega
    · congr 1
      omega

/-- The bits that neighbours flip are the ones that the iterators flip. -/
theorem BitsFrom.flipBit_eq (h : fs.BitsFrom b) (hn : 0 < fs.nbool) (inst : Instance) (k : Nat) :
    fs.flipBit inst k = (fs.bitAt k).flip inst := by
  have hfirst : fs.fields[fs.rawSize - fs.nbool]? = some (.at 1 (b + 0)) := h.field 0 hn
  rw [h.bitAt hn, BitIterator.flip, BitIterator.store_ofBit, flipBit, hfirst, Option.bind_some]
  simp only [Field.at_offset, Nat.add_zero]
  refine congrArg (fun f => Option.map f _) (funext fun w => congrArg _ ?_)
  obtain ⟨hone, hzero, hflip⟩ := BitField.set_one_bit w ((b + k) % 32)
  rw [BitIterator.doFlip, BitIterator.mask_ofBit, ← hone, ← hzero, ← hflip]
  split <;> rfl

end From

section Sets
variable [LT C] [DecidableLT C] [DecidableEq C] {fs : FieldSet C} {inst : Instance}

theorem Constructed.bitsFrom (h : Constructed fs) (hn : 0 < fs.nbool) : ∃ b, fs.BitsFrom b := by
  obtain ⟨before, b, hb⟩ := h.bits_last
  exact ⟨b, bitsFrom_of_append hn hb⟩

omit [LT C] [DecidableLT C] [DecidableEq C] in
/-- Without a variable of one bit the first and the last iterator point nowhere. -/
theorem ends_null (hn : fs.nbool = 0) : fs.beginBits = .null ∧ fs.endBits inst = .null := by
  have hnone : fs.fields[fs.bitIdx 0]? = none := by
    rw [List.getElem?_eq_none_iff, bitIdx, rawSize, hn]
    exact Nat.le_refl _
  constructor
  · rw [beginBits, hnone]
  · simp only [endBits, hnone]

omit [LT C] [DecidableLT C] [DecidableEq C] in
theorem lawful_null (hn : fs.nbool = 0) : fs.Lawful inst 0 0 0 := by
  obtain ⟨hbegin, hend⟩ : fs.beginBits = .null ∧ fs.endBits inst = .null := ends_null hn
  have hat : fs.bitAt 0 = .null := by
    rw [bitAt, hbegin]
    decide
  refine ⟨?_, ?_, ?_, ?_, ?_, ?_⟩
  · rw [hn, hat, hend]
  · intro k hk
    omega
  · intro k hk
    omega
  · rw [hat]
    decide
  · rw [hat]
    decide
  · rw [hat]
    decide

/-- The iterators keep all laws, but for the order of an iterator and one at a higher bit of an
earlier word. -/
theorem lawful_iff (h : Constructed fs) (hlen : inst.length = fs.packedWidth) {i j : Nat} {n : Int}
    (hi : i ≤ fs.nbool) (hj : j ≤ fs.nbool) (hn : 0 ≤ i + n) (hn' : i + n ≤ fs.nbool) :
    fs.Lawful inst i j n ↔
      ¬ ((fs.bitAt j).it < (fs.bitAt i).it ∧ (fs.bitAt i).bit < (fs.bitAt j).bit) := by
  by_cases hpos : 0 < fs.nbool
  · obtain ⟨b, hb⟩ := h.bitsFrom hpos
    exact hb.laws_iff hpos hlen i j n
  · have hzero : fs.nbool = 0 := by omega
    obtain rfl : i = 0 := by omega
    obtain rfl : j = 0 := by omega
    obtain rfl : n = 0 := by omega
    exact iff_of_true (lawful_null hzero) fun hlt => absurd hlt.1 (Int.lt_irrefl _)

/-- Forty variables of one bit, as in the tests: the iterator at the first bit of the second word
comes before one at the sixth bit of the first word. -/
theorem not_lawful : ∃ fs : FieldSet Nat, build [(.disc 2, 40)] = some fs ∧
    ¬ fs.Lawful (List.replicate 2 0#32) 32 5 0 := by
  refine ⟨_, rfl, fun h => ?_⟩
  have horder := h.order
  revert horder
  decide

theorem lawful_iff_forty : ∃ fs : FieldSet Nat, build [(.disc 2, 40)] = some fs ∧
    (List.replicate 2 0#32).length = fs.packedWidth ∧ fs.nbool = 40 ∧
    (fs.Lawful (List.replicate 2 0#32) 7 38 33 ↔
      ¬ ((fs.bitAt 38).it < (fs.bitAt 7).it ∧ (fs.bitAt 7).bit < (fs.bitAt 38).bit)) := by
  have hbuild : ∃ fs : FieldSet Nat, build [(.disc 2, 40)] = some fs ∧
      (List.replicate 2 0#32).length = fs.packedWidth ∧ fs.nbool = 40 :=
    ⟨_, rfl, by decide, by decide⟩
  obtain ⟨fs, hfs, hwidth, hn⟩ := hbuild
  refine ⟨fs, hfs, hwidth, hn, ?_⟩
  exact lawful_iff (.single hfs) hwidth (by omega) (by omega) (by omega) (by omega)

/-- All laws hold of a set iff the last iterator is in the word of the first one. -/
theorem lawful_everywhere_iff (h : Constructed fs) (hlen : inst.length = fs.packedWidth) :
    (∀ i ≤ fs.nbool, ∀ j ≤ fs.nbool, ∀ n : Int, 0 ≤ i + n → i + n ≤ fs.nbool →
      fs.Lawful inst i j n) ↔ fs.beginBits.it = (fs.endBits inst).it := by
  by_cases hpos : 0 < fs.nbool
  · obtain ⟨b, hb⟩ := h.bitsFrom hpos
    have hbegin : fs.beginBits.it = b / 32 := by
      rw [hb.beginBits hpos]
      rfl
    have hend : (fs.endBits inst).it = (b + fs.nbool : Nat) / 32 := by
      rw [hb.endBits hpos hlen]
      rfl
    have hit : ∀ i, (fs.bitAt i).it = (b + i : Nat) / 32 := fun i => by
      rw [hb.bitAt hpos]
      rfl
    have hbit : ∀ i, ((fs.bitAt i).bit : Int) = (b + i : Nat) % 32 := fun i => by
      rw [hb.bitAt hpos, BitIterator.bit_ofBit]
    rw [hbegin, hend]
    constructor
    · intro hall
      by_contra hne
      -- the last bit of the first word, and the one after it
      have hlast := hall ((b / 32 + 1) * 32 - b) (by omega) ((b / 32 + 1) * 32 - b - 1) (by omega) 0
        (by omega) (by omega)
      have h₁ := hbit ((b / 32 + 1) * 32 - b)
      have h₂ := hbit ((b / 32 + 1) * 32 - b - 1)
      rw [hb.laws_iff hpos hlen, hit, hit] at hlast
      omega
    · intro hword i hi j hj n hn hn'
      rw [hb.laws_iff hpos hlen, hit, hit]
      omega
  · have hzero : fs.nbool = 0 := by omega
    refine iff_of_true (fun i hi j hj n hn hn' => ?_) ?_
    · obtain rfl : i = 0 := by omega
      obtain rfl : j = 0 := by omega
      obtain rfl : n = 0 := by omega
      exact lawful_null hzero
    · obtain ⟨hbegin, hend⟩ : fs.beginBits = .null ∧ fs.endBits inst = .null := ends_null hzero
      rw [hbegin, hend]

end Sets

end FieldSet

end OpenCog.Moses
