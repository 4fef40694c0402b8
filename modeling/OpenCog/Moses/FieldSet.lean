import OpenCog.Lib.BitField

/-! Field sets: the layout of ontological, continuous and discrete variables in an
instance of 32-bit words. A failed assertion, and a shift by the width of the word or
more, have no defined result. -/
namespace OpenCog.Moses

open BitField (Word)

/-! ## Bit tricks -/

/-- On `size_t`; zero wraps around and back. -/
def nextPowerOfTwo (x : Nat) : Nat :=
  let x := (x + 2 ^ 64 - 1) % 2 ^ 64
  let x := x ||| (x >>> 1)
  let x := x ||| (x >>> 2)
  let x := x ||| (x >>> 4)
  let x := x ||| (x >>> 8)
  let x := x ||| (x >>> 16)
  (x + 1) % 2 ^ 64

def multiplyDeBruijnBitPosition : List Nat :=
  [0, 1, 28, 2, 29, 14, 24, 3, 30, 22, 20, 15, 25, 17, 4, 8,
    31, 27, 13, 23, 21, 19, 16, 7, 26, 12, 18, 6, 11, 5, 10, 9]

/-- Every bit below the highest one is set. -/
def smear (v : Nat) : Nat :=
  let v := v ||| (v >>> 1)
  let v := v ||| (v >>> 2)
  let v := v ||| (v >>> 4)
  let v := v ||| (v >>> 8)
  v ||| (v >>> 16)

def integerLog2 (v : Nat) : Nat :=
  multiplyDeBruijnBitPosition.getD ((((smear v >>> 1) + 1) * 0x077CB531 % 2 ^ 32) >>> 27) 0

/-- The number of bits for so many values, as a power of two. The assertion that
there is a value is made where it is called. -/
def nbitsToPack (arity : Nat) : Nat := nextPowerOfTwo (integerLog2 (arity - 1) + 1)

/-! ## Specs -/

instance neZero_arity : NeZero (2 ^ 32) := ⟨by decide⟩

/-- Variables; `C` is the type of continuous values. Of an ontology only depth and
greatest branching are used, and arities are 32-bit numbers. -/
inductive Spec (C : Type) where
  | onto (depth maxBranching : Nat)
  | contin (mean stepSize expansion : C) (depth : Nat)
  | disc (arity : Fin (2 ^ 32))

namespace Spec

variable {C : Type}

def branching (maxBranching : Nat) : Nat := nextPowerOfTwo (1 + maxBranching)

/-- The number of bits of one raw field. -/
def width : Spec C → Nat
  | onto _ maxBranching => nbitsToPack (branching maxBranching)
  | contin .. => 2
  | disc arity => nbitsToPack arity

/-- The number of raw fields of one variable. -/
def depth : Spec C → Nat
  | onto depth _ => depth
  | contin _ _ _ depth => depth
  | disc _ => 1

/-- The bits of the encoding of one variable. -/
def bits (s : Spec C) : Nat := s.width * s.depth

/-- The whole words an ontological variable takes; without fields it takes none. -/
def totalWidth (s : Spec C) : Nat := if s.bits = 0 then 0 else ((s.bits - 1) / 32 + 1) * 32

/-- The alternative of the variant. -/
def which : Spec C → Nat
  | onto .. => 0
  | contin .. => 1
  | disc .. => 2

/-- The restriction under which the packing is documented to be compact: the smallest
ontological variable is a whole number of words or not smaller than any continuous
one, the smallest continuous one a whole number of words or larger than any
discrete one. -/
def SizeRestricted (specs : List (Spec C)) : Prop :=
  (∀ o ∈ specs, o.which = 0 → (∀ o' ∈ specs, o'.which = 0 → o.bits ≤ o'.bits) →
    32 ∣ o.bits ∨ ∀ c ∈ specs, c.which = 1 → c.bits ≤ o.bits) ∧
  (∀ c ∈ specs, c.which = 1 → (∀ c' ∈ specs, c'.which = 1 → c.bits ≤ c'.bits) →
    32 ∣ c.bits ∨ ∀ d ∈ specs, d.which = 2 → d.bits < c.bits)

instance (specs : List (Spec C)) : Decidable (SizeRestricted specs) := by
  unfold SizeRestricted
  infer_instance

variable [LT C] [DecidableLT C] [DecidableEq C]

/-- Descending by size, by depth and so on, or by arity. -/
def less : Spec C → Spec C → Bool
  | onto d b, onto d' b' => decide (d * branching b > d' * branching b')
  | contin m s e d, contin m' s' e' d' =>
    decide (d > d' ∨ (d = d' ∧ (e' < e ∨ (e = e' ∧ (s' < s ∨ (s = s' ∧ m' < m))))))
  | disc a, disc a' => decide (a > a')
  | s, t => decide (s.which < t.which)

end Spec

/-- `++spec_counts[s]` in a map; specs neither of which is less are one key. -/
def countSpec {C : Type} [LT C] [DecidableLT C] [DecidableEq C] (s : Spec C) :
    List (Spec C × Nat) → List (Spec C × Nat)
  | [] => [(s, 1)]
  | (t, n) :: m =>
    if s.less t then (s, 1) :: (t, n) :: m
    else if t.less s then (t, n) :: countSpec s m
    else (t, n + 1) :: m

def specCounts {C : Type} [LT C] [DecidableLT C] [DecidableEq C] (specs : List (Spec C)) :
    List (Spec C × Nat) :=
  specs.foldl (fun m s => countSpec s m) []

/-! ## Building -/

@[ext]
structure Field where
  width : Nat
  majorOffset : Nat
  minorOffset : Nat
  deriving DecidableEq

/-- The field of this width at a bit of the instance. -/
def Field.at (width base : Nat) : Field := ⟨width, base / 32, base % 32⟩

/-- The first bit. -/
def Field.offset (f : Field) : Nat := f.majorOffset * 32 + f.minorOffset

def backOffset (fields : List Field) : Nat :=
  match fields.getLast? with
  | none => 0
  | some f => f.majorOffset * 32 + f.minorOffset + f.width

/-- Fields of one width, one after the other. -/
def fieldRun (width base count : Nat) : List Field :=
  (List.range count).map fun i => .at width (base + i * width)

namespace Spec

variable {C : Type}

/-- The checks made: there is a value, the depth is a power of two. -/
def buildable : Spec C → Bool
  | onto _ maxBranching => decide (0 < branching maxBranching)
  | contin _ _ _ depth => decide (depth = nextPowerOfTwo depth)
  | disc arity => decide (0 < arity.val)

/-- The fields of `n` such variables. -/
def fields (base n : Nat) : Spec C → List Field
  | disc arity => fieldRun (nbitsToPack arity) base n
  | contin _ _ _ depth => fieldRun 2 base (n * depth)
  | onto depth maxBranching =>
    (List.range n).flatMap fun k =>
      fieldRun (onto depth maxBranching : Spec C).width
        (base + k * (onto depth maxBranching : Spec C).totalWidth) depth

end Spec

/-- `_fields` and the vectors of specs, with the number of each. -/
structure FieldSet (C : Type) where
  fields : List Field
  specs : List (Spec C × Nat)

namespace FieldSet

variable {C : Type}

def buildSpec (fs : FieldSet C) (g : Spec C × Nat) : Option (FieldSet C) :=
  if g.1.buildable then
    some { fields := fs.fields ++ g.1.fields (backOffset fs.fields) g.2, specs := fs.specs ++ [g] }
  else none

def build (groups : List (Spec C × Nat)) : Option (FieldSet C) :=
  groups.foldlM buildSpec ⟨[], []⟩

/-- The constructor from a range of specs. -/
def ofSpecs [LT C] [DecidableLT C] [DecidableEq C] (specs : List (Spec C)) : Option (FieldSet C) :=
  build (specCounts specs)

def packedWidth (fs : FieldSet C) : Nat :=
  match fs.fields.getLast? with
  | none => 0
  | some f => f.majorOffset + 1

def rawSize (fs : FieldSet C) : Nat := fs.fields.length

/-! ## Raw access -/

abbrev Instance := List Word

/-- A value is an `int`; the shift of the mask is defined below the width of one. -/
def getRaw (fs : FieldSet C) (inst : Instance) (idx : Nat) : Option Nat :=
  fs.fields[idx]?.bind fun f =>
    inst[f.majorOffset]?.bind fun x =>
      if f.width < 32 then some (BitField.get x f.minorOffset f.width).toNat else none

def setRaw (fs : FieldSet C) (inst : Instance) (idx v : Nat) : Option Instance :=
  fs.fields[idx]?.bind fun f =>
    inst[f.majorOffset]?.bind fun x =>
      if f.width < 32 then
        some (inst.set f.majorOffset (BitField.set x f.minorOffset f.width v))
      else none

end FieldSet

/-! ## Packing -/

/-- Where `pack` writes next: a word of the output, and an offset in it. -/
structure Cursor where
  out : Nat
  offset : Nat
  deriving DecidableEq

/-- The next word is entered only when the offset is exactly at its start. -/
def Cursor.advance (c : Cursor) (bits : Nat) : Cursor :=
  if c.offset + bits = 32 then ⟨c.out + 1, 0⟩ else ⟨c.out, c.offset + bits⟩

/-- What a pass of one of the loops of `pack` does. -/
inductive Move where
  | put (width : Nat)
  | pad (bits : Nat)

def Move.bits : Move → Nat
  | put width => width
  | pad bits => bits

structure Packer where
  cursor : Cursor
  input : List Nat
  words : Nat → Word

/-- `*out |= (*from++) << offset`: there is a value left, and the shift is defined. -/
def Packer.put (p : Packer) (width : Nat) : Option Packer :=
  match p.input with
  | [] => none
  | v :: input =>
    if p.cursor.offset < 32 then
      some { cursor := p.cursor.advance width, input,
             words := Function.update p.words p.cursor.out
               (p.words p.cursor.out ||| (BitVec.ofNat 32 v <<< p.cursor.offset)) }
    else none

def Packer.step (p : Packer) : Move → Option Packer
  | .put width => p.put width
  | .pad bits => some { p with cursor := p.cursor.advance bits }

/-- One variable; an ontological one is filled up to a whole number of words. -/
def Spec.moves {C : Type} (s : Spec C) : List Move :=
  List.replicate s.depth (.put s.width) ++
    if s.which = 0 then [.pad (s.totalWidth - s.depth * s.width)] else []

def groupMoves {C : Type} (g : Spec C × Nat) : List Move :=
  (List.replicate g.2 g.1).flatMap Spec.moves

namespace FieldSet

variable {C : Type}

/-- The specs of one of the three vectors. -/
def ofKind (fs : FieldSet C) (which : Nat) : List (Spec C × Nat) :=
  fs.specs.filter fun g => g.1.which = which

def moves (fs : FieldSet C) : List Move :=
  (fs.ofKind 0).flatMap groupMoves ++ (fs.ofKind 1).flatMap groupMoves ++
    (fs.ofKind 2).flatMap groupMoves

/-- The words written from zeroed ones, and how far the output is advanced. -/
def pack (fs : FieldSet C) (values : List Nat) : Option (Nat × (Nat → Word)) :=
  (fs.moves.foldlM Packer.step ⟨⟨0, 0⟩, values, fun _ => 0⟩).map fun p =>
    (if 0 < p.cursor.offset then p.cursor.out + 1 else p.cursor.out, p.words)

end FieldSet

end OpenCog.Moses
