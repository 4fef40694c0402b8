import OpenCog.Moses.FieldLayout
import OpenCog.Moses.Representation
import OpenCog.Util.LazySelector

/-! Neighbours of an instance: sampling of one continuous field, enumeration of all at a
distance, and their number. A failed assertion and a read out of bounds have no result. -/
namespace OpenCog.Moses

open Util

/-- A source of random numbers with its states. -/
structure RandGen (G : Type) where
  randint : Nat → G → Nat × G
  randbool : G → Bool × G
  randint_lt : ∀ n g, 0 < n → (randint n g).1 < n

namespace ContinSpec

def stop : Nat := 0
def left : Nat := 1
def right : Nat := 2

def switchLR (lr : Nat) : Option Nat :=
  if lr = left then some right else if lr = right then some left else none

end ContinSpec

open ContinSpec

/-- How many values one raw field takes. -/
def Spec.values {C : Type} : Spec C → Nat
  | onto _ maxBranching => branching maxBranching
  | contin .. => 3
  | disc arity => arity

namespace FieldSet

variable {C : Type}

/-! ## Positions -/

def nContin (fs : FieldSet C) : Nat := fs.discStart - fs.nOnto

/-- The number of discrete variables that take more than one bit. -/
def nDisc (fs : FieldSet C) : Nat := fs.rawSize - fs.discStart - fs.nbool

/-- The `i`-th variable is the one whose raw fields hold this place. -/
def continOf : List Nat → Nat → Option Nat
  | [], _ => none
  | depth :: depths, raw =>
    if raw < depth then some 0 else (continOf depths (raw - depth)).map (· + 1)

def rawToContinIdx (fs : FieldSet C) (idx : Nat) : Option Nat :=
  if fs.nOnto ≤ idx ∧ idx < fs.nOnto + fs.nContin then
    continOf (fs.contin.map Spec.depth) (idx - fs.nOnto)
  else none

/-- From a raw field on, how many of so many fields come before the first stop. -/
def beforeStop (fs : FieldSet C) (inst : Instance) : Nat → Nat → Option Nat
  | 0, _ => some 0
  | n + 1, raw =>
    (fs.getRaw inst raw).bind fun v =>
      if v = stop then some 0 else (fs.beforeStop inst n (raw + 1)).map (· + 1)

def countNBeforeStop (fs : FieldSet C) (inst : Instance) (idx : Nat) : Option Nat :=
  fs.contin[idx]?.bind fun c => fs.beforeStop inst c.depth (fs.continToRawIdx idx)

def hammingDistance (fs : FieldSet C) (inst₁ inst₂ : Instance) : Nat :=
  (List.range fs.rawSize).countP fun i => fs.getRaw inst₁ i ≠ fs.getRaw inst₂ i

/-! ## A neighbour in one continuous field -/

variable {G : Type}

/-- What the loop changes. -/
structure Sampling (G : Type) where
  inst : Instance
  select : LazySelector
  num : Nat
  rng : G

/-- One change, with `i` of them left. The coin is tossed for the last field before the stop only,
and only when there are enough left for the selector after it. -/
def changeOne (R : RandGen G) (fs : FieldSet C) (start depth i : Nat) (s : Sampling G) :
    Option (Sampling G) :=
  let (sel, rng) := R.randint s.select.n s.rng
  (s.select.call sel).bind fun (r, select) =>
    (fs.getRaw s.inst (start + r)).bind fun v =>
      if v = stop then
        let (coin, rng) := R.randbool rng
        (fs.setRaw s.inst (start + r) (if coin then left else right)).map fun inst =>
          ⟨inst, select.resetRange (min (s.num + 1 + 1) depth), s.num + 1, rng⟩
      else
        let (coin, rng) :=
          if r + 1 = s.num ∧ i ≤ select.countNFree then R.randbool rng else (false, rng)
        if coin then
          (fs.setRaw s.inst (start + r) stop).map fun inst =>
            ⟨inst, select.resetRange (s.num - 1), s.num - 1, rng⟩
        else
          (switchLR v).bind fun v' =>
            (fs.setRaw s.inst (start + r) v').map fun inst => ⟨inst, select, s.num, rng⟩

def changeAll (R : RandGen G) (fs : FieldSet C) (start depth : Nat) :
    Nat → Sampling G → Option (Sampling G)
  | 0, s => some s
  | i + 1, s => (changeOne R fs start depth (i + 1) s).bind (changeAll R fs start depth i)

def generateContinNeighbor (R : RandGen G) (fs : FieldSet C) (inst : Instance) (idx n : Nat)
    (rng : G) : Option (Instance × G) :=
  fs.contin[idx]?.bind fun c =>
    (fs.countNBeforeStop inst idx).bind fun num =>
      (LazySelector.create (min (num + 1) c.depth)).bind fun select =>
        (changeAll R fs (fs.continToRawIdx idx) c.depth n ⟨inst, select, num, rng⟩).map fun s =>
          (s.inst, s.rng)

/-! ## All neighbours at a distance -/

def onto (fs : FieldSet C) : List (Spec C) :=
  (fs.ofKind 0).flatMap fun g => List.replicate g.2 g.1

/-- `disc_iterator::arity`, from the numbers of variables before those of the kind. -/
def arity (fs : FieldSet C) (idx : Nat) : Option Nat :=
  if idx < fs.onto.length then fs.onto[idx]?.map Spec.values
  else if idx < fs.onto.length + fs.contin.length then some 3
  else fs.discAndBits[idx - fs.onto.length - fs.contin.length]?.map Spec.values

/-- The bit so many bits after the first field of one bit is changed. -/
def flipBit (fs : FieldSet C) (inst : Instance) (k : Nat) : Option Instance :=
  fs.fields[fs.rawSize - fs.nbool]?.bind fun f =>
    let q := f.offset + k
    inst[q / 32]?.map fun x =>
      inst.set (q / 32)
        (if x.getLsbD (q % 32) then x &&& ~~~(1#32 <<< (q % 32)) else x ||| (1#32 <<< (q % 32)))

/-- So many fields from a raw one on become stops. -/
def stopAll (fs : FieldSet C) : Nat → Nat → Instance → Option Instance
  | 0, _, inst => some inst
  | n + 1, raw, inst => (fs.setRaw inst raw stop).bind (fs.stopAll n (raw + 1))

/-- The loop over the values of a discrete variable that has the value `v`. -/
def varyDisc (fs : FieldSet C) (next : Instance → Option (List Instance)) (raw v : Nat) :
    List Nat → Instance → Option (List Instance)
  | [], _ => some []
  | i :: is, inst =>
    (fs.setRaw inst raw (if v = i then 0 else i)).bind fun inst =>
      (next inst).bind fun out => (fs.varyDisc next raw v is inst).map fun rest => out ++ rest

/-- What is written, in order. Each call starts at a later raw field than the one it is made in. -/
def varyNKnobs (fs : FieldSet C) : Nat → Instance → Nat → Nat → Option (List Instance)
  | 0, _, _, _ => none
  | fuel + 1, inst, n, start =>
    if n = 0 then some [inst]
    else if start < fs.nOnto then fs.varyNKnobs fuel inst n (start + fs.nOnto)
    else if start < fs.nOnto + fs.nContin then do
      let idx ← fs.rawToContinIdx start
      let c ← fs.contin[idx]?
      let num ← fs.countNBeforeStop inst idx
      let v ← fs.getRaw inst start
      let rel := start - fs.continToRawIdx idx
      if v = stop then
        let skipped ← fs.varyNKnobs fuel inst n (start + c.depth - rel)
        let inst ← fs.setRaw inst start left
        let lefts ← fs.varyNKnobs fuel inst (n - 1) (start + 1)
        let inst ← fs.setRaw inst start right
        let rights ← fs.varyNKnobs fuel inst (n - 1) (start + 1)
        some (skipped ++ (lefts ++ rights))
      else
        let kept ← fs.varyNKnobs fuel inst n (start + 1)
        let v' ← switchLR v
        let inst ← fs.setRaw inst start v'
        let switched ← fs.varyNKnobs fuel inst (n - 1) (start + 1)
        let rem := num - rel
        if rem ≤ n then
          let inst ← fs.stopAll rem start inst
          let stopped ← fs.varyNKnobs fuel inst (n - rem) (start + c.depth - rel)
          some (kept ++ (switched ++ stopped))
        else some (kept ++ switched)
    else if start < fs.nOnto + fs.nContin + fs.nDisc then do
      let v ← fs.getRaw inst start
      let kept ← fs.varyNKnobs fuel inst n (start + 1)
      let arity ← fs.arity start
      let varied ← fs.varyDisc (fun inst => fs.varyNKnobs fuel inst (n - 1) (start + 1)) start v
        (List.range' 1 (arity - 1)) inst
      some (kept ++ varied)
    else if start < fs.nOnto + fs.nContin + fs.nDisc + fs.nbool then do
      let kept ← fs.varyNKnobs fuel inst n (start + 1)
      let inst ← fs.flipBit inst (start - (fs.nOnto + fs.nContin + fs.nDisc))
      let flipped ← fs.varyNKnobs fuel inst (n - 1) (start + 1)
      some (kept ++ flipped)
    else some []

/-- Into so many places; to write past them fails an assertion. -/
def generateAllInNeighborhood (fs : FieldSet C) (n room : Nat) (center : Instance) :
    Option (List Instance) :=
  if center.length = fs.packedWidth then
    (fs.varyNKnobs (fs.rawSize + 1) center n 0).bind fun out =>
      if out.length ≤ room then some out else none
  else none

/-! ## The number of them -/

/-- A sum in a `long long`. -/
def plus (a b : Nat) : Option Nat := if a + b < 2 ^ 63 then some (a + b) else none

/-- `count n` is the number with so many changes in what follows; for so many of the stops, and
for one less, and so on. `1 << remStop` is an `int`. -/
def countStops (count : Nat → Option Nat) (n : Nat) : Nat → Nat → Option Nat
  | 0, sum => (count n).bind (plus sum)
  | rem + 1, sum =>
    if rem + 1 < 31 then
      (count (n - (rem + 1))).bind fun k =>
        (plus sum (2 ^ (rem + 1) * k)).bind (countStops count n rem)
    else none

def countNChangedKnobsFromIndex (fs : FieldSet C) (inst : Instance) : Nat → Nat → Nat → Option Nat
  | 0, _, _ => none
  | fuel + 1, n, start =>
    if n = 0 then some 1
    else if start < fs.nOnto then
      fs.countNChangedKnobsFromIndex inst fuel n (start + fs.nOnto)
    else if start < fs.nOnto + fs.nContin then do
      let idx ← fs.rawToContinIdx start
      let c ← fs.contin[idx]?
      let num ← fs.countNBeforeStop inst idx
      let v ← fs.getRaw inst start
      let rel := start - fs.continToRawIdx idx
      if v = stop then
        countStops (fun n => fs.countNChangedKnobsFromIndex inst fuel n (start + c.depth - rel)) n
          (min (c.depth - rel) n) 0
      else
        let kept ← fs.countNChangedKnobsFromIndex inst fuel n (start + 1)
        let switched ← fs.countNChangedKnobsFromIndex inst fuel (n - 1) (start + 1)
        let sum ← plus kept switched
        let rem := num - rel
        if rem ≤ n then
          (fs.countNChangedKnobsFromIndex inst fuel (n - rem) (start + c.depth - rel)).bind (plus sum)
        else some sum
    else if start < fs.nOnto + fs.nContin + fs.nDisc then do
      let kept ← fs.countNChangedKnobsFromIndex inst fuel n (start + 1)
      let arity ← fs.arity start
      let varied ← fs.countNChangedKnobsFromIndex inst fuel (n - 1) (start + 1)
      plus kept ((arity - 1) * varied)
    else if start < fs.nOnto + fs.nContin + fs.nDisc + fs.nbool then do
      let kept ← fs.countNChangedKnobsFromIndex inst fuel n (start + 1)
      let flipped ← fs.countNChangedKnobsFromIndex inst fuel (n - 1) (start + 1)
      plus kept flipped
    else some 0

def countNChangedKnobs (fs : FieldSet C) (inst : Instance) (n : Nat) : Option Nat :=
  fs.countNChangedKnobsFromIndex inst (fs.rawSize + 1) n 0

end FieldSet

end OpenCog.Moses
