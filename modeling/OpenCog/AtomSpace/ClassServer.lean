import Mathlib

/-! The type hierarchy an atom table consults. Type codes are the unsigned
shorts `ClassServer::addType` hands out, in the order of the type script. -/
namespace OpenCog

abbrev TypeCode := Nat

/-- A handle is the UUID of an atom; `Handle::UNDEFINED` is the absent value
of the optional results below. -/
abbrev Handle := Nat

def ATOM : TypeCode := 0
def NODE : TypeCode := 1
def LINK : TypeCode := 2
def CONCEPT_NODE : TypeCode := 3
def ORDERED_LINK : TypeCode := 5
def UNORDERED_LINK : TypeCode := 6
def LIST_LINK : TypeCode := 9
def AND_LINK : TypeCode := 11
def VARIABLE_NODE : TypeCode := 17
def EVALUATION_LINK : TypeCode := 25
def INHERITANCE_LINK : TypeCode := 27
def SIMILARITY_LINK : TypeCode := 28
def PREDICATE_NODE : TypeCode := 37
def EXECUTION_LINK : TypeCode := 42
def HEBBIAN_LINK : TypeCode := 108
def ASYMMETRIC_HEBBIAN_LINK : TypeCode := 109
def SYMMETRIC_HEBBIAN_LINK : TypeCode := 110
def INVERSE_HEBBIAN_LINK : TypeCode := 111
def SYMMETRIC_INVERSE_HEBBIAN_LINK : TypeCode := 112

/-- The largest code an unsigned short holds stands for no type. -/
def NOTYPE : TypeCode := 65535

/-- What the table relies on: `isA` is reflexive on the registered codes and
false outside them, every node type and every link type is an atom type, and no
type is both. -/
structure ClassServer where
  nTypes : Nat
  isA : TypeCode → TypeCode → Bool
  isA_refl : ∀ t < nTypes, isA t t = true
  isA_lt : ∀ t p, isA t p = true → t < nTypes
  node_isA_atom : ∀ t, isA t NODE = true → isA t ATOM = true
  link_isA_atom : ∀ t, isA t LINK = true → isA t ATOM = true
  node_not_link : ∀ t, isA t NODE = true → isA t LINK = false

namespace ClassServer

/-- The direct parents of each code, in the order of the type script. -/
def scriptParents : List (List TypeCode) :=
  [[0], [0], [0], [1], [1], [2], [2], [6], [5], [5], [5], [5], [6], [6], [5], [5], [5], [1],
   [1], [5], [5], [20], [20], [5], [5], [5], [5], [5], [6], [5], [5], [5], [5], [1], [33],
   [33], [35, 34], [35], [37, 34], [5], [27], [40], [5], [5], [5], [5], [11], [11], [5], [5],
   [5], [5], [5], [6], [6], [1], [5], [1], [26], [3], [3], [3], [26], [3], [26], [3], [5],
   [37], [37], [65], [37], [37], [3], [37], [5], [3], [26], [65], [66], [3], [5], [27], [6],
   [3], [83], [3], [1], [1], [1], [1], [1], [1], [1], [1], [1], [1], [1], [1], [5], [1], [99],
   [99], [99], [99], [99], [5], [1], [5], [2], [5, 108], [6, 108], [5, 108], [6, 108]]

/-- Upward reachability in a parent table, to a bounded depth. -/
def reaches (parents : List (List TypeCode)) : Nat → TypeCode → TypeCode → Bool
  | 0, t, p => t == p
  | n + 1, t, p => t == p || (parents.getD t []).any fun q => q != t && reaches parents n q p

def scriptIsA (t p : TypeCode) : Bool :=
  decide (t < scriptParents.length) && reaches scriptParents 8 t p

theorem scriptIsA_lt (t p : TypeCode) (h : scriptIsA t p = true) : t < scriptParents.length := by
  simp only [scriptIsA, Bool.and_eq_true, decide_eq_true_eq] at h
  exact h.1

theorem scriptIsA_refl : ∀ t < scriptParents.length, scriptIsA t t = true := by
  decide +kernel

theorem script_kinds : ∀ t < scriptParents.length,
    (scriptIsA t NODE = true → scriptIsA t ATOM = true ∧ scriptIsA t LINK = false) ∧
    (scriptIsA t LINK = true → scriptIsA t ATOM = true) := by
  decide +kernel

/-- The hierarchy of the type script the code is built with. -/
def script : ClassServer where
  nTypes := scriptParents.length
  isA := scriptIsA
  isA_refl := scriptIsA_refl
  isA_lt := scriptIsA_lt
  node_isA_atom t h := ((script_kinds t (scriptIsA_lt t _ h)).1 h).1
  link_isA_atom t h := (script_kinds t (scriptIsA_lt t _ h)).2 h
  node_not_link t h := ((script_kinds t (scriptIsA_lt t _ h)).1 h).2

theorem link_not_node (cs : ClassServer) {t : TypeCode} (h : cs.isA t LINK = true) :
    cs.isA t NODE = false := by
  cases hn : cs.isA t NODE
  · rfl
  · rw [cs.node_not_link t hn] at h; cases h

end ClassServer

end OpenCog
