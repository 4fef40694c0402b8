import Mathlib
import OpenCog.AtomSpace.Funds

/-! One kind of importance, STI or LTI, as atoms and agents hold it: what a holder is given
is taken from the funds. Values are narrowed to shorts where they are stored, and the values
before the narrowing are noted. -/
namespace OpenCog.Attention

/-- `AttentionValueHolder`, an atom or an agent. -/
inductive Holder where
  | atom (h : Handle)
  | agent (n : Nat)
  deriving DecidableEq

def Fits (v : Int) : Prop := -32768 ≤ v ∧ v ≤ 32767

instance (v : Int) : Decidable (Fits v) := inferInstanceAs (Decidable (_ ∧ _))

/-- The conversion of an integer to a short. -/
def toShort (v : Int) : Int := (v + 32768) % 65536 - 32768

/-- The conversion of a real number to an integer. -/
def truncate (q : ℚ) : Int := q.num.tdiv q.den

/-- `noted` are the values that were narrowed, before it. -/
structure Purse where
  holds : Holder → Int
  funds : Int
  noted : List Int

namespace Purse

def note (p : Purse) (v : Int) : Purse := { p with noted := v :: p.noted }

/-- A run starts with nothing noted. -/
def start (p : Purse) : Purse := { p with noted := [] }

/-- `setSTI` or `setLTI`; `narrow` is the conversion of the argument. -/
def set (narrow : Int → Int) (p : Purse) (avh : Holder) (v : Int) : Purse :=
  { holds := Function.update p.holds avh (narrow v)
    funds := p.funds + (p.holds avh - narrow v)
    noted := v :: p.noted }

section Set
variable (narrow : Int → Int) (p : Purse) (avh : Holder) (v : Int)

@[simp] theorem holds_note : (p.note v).holds = p.holds := rfl

@[simp] theorem funds_note : (p.note v).funds = p.funds := rfl

@[simp] theorem noted_note : (p.note v).noted = v :: p.noted := rfl

@[simp] theorem holds_set_self : (p.set narrow avh v).holds avh = narrow v := by simp [set]

@[simp] theorem holds_set_of_ne {avh' : Holder} (h : avh' ≠ avh) :
    (p.set narrow avh v).holds avh' = p.holds avh' := by simp [set, h]

@[simp] theorem funds_set :
    (p.set narrow avh v).funds = p.funds + (p.holds avh - narrow v) := rfl

@[simp] theorem noted_set : (p.set narrow avh v).noted = v :: p.noted := rfl

end Set

end Purse

theorem toShort_eq_self_iff {v : Int} : toShort v = v ↔ Fits v := by
  unfold toShort Fits
  omega

/-- A conversion keeps values modulo `m`, and those that fit as they are. -/
structure Narrowing (narrow : Int → Int) (m : Int) : Prop where
  modEq : ∀ v, narrow v ≡ v [ZMOD m]
  congr : ∀ {v w}, v ≡ w [ZMOD m] → narrow v = narrow w
  fits : ∀ {v}, Fits v → narrow v = v

namespace Narrowing

/-- No conversion: unbounded integers. -/
theorem id : Narrowing id 0 := ⟨fun _ => rfl, Int.modEq_zero_iff.mp, fun _ => rfl⟩

theorem toShort : Narrowing toShort 65536 := by
  refine ⟨fun v => ?_, fun {v w} h => ?_, toShort_eq_self_iff.mpr⟩
  · unfold Attention.toShort Int.ModEq
    omega
  · unfold Int.ModEq at h
    unfold Attention.toShort
    omega

variable {narrow : Int → Int} {m : Int}

theorem idem (hn : Narrowing narrow m) (v : Int) : narrow (narrow v) = narrow v :=
  hn.congr (hn.modEq v)

end Narrowing

/-! ## Purses of an atom space -/

section AtomSpace
variable {TV σ : Type}
open AtomTable

/-- What the atoms of a space and the agents hold of one kind. -/
def purse (f : AttentionValue → Int) (funds : AtomSpace TV σ → Int) (agents : Nat → Int)
    (s : AtomSpace TV σ) : Purse where
  holds
    | .atom h => ((s.atomTable.avOf h).map f).getD 0
    | .agent n => agents n
  funds := funds s
  noted := []

variable {s s' : AtomSpace TV σ} {h : Handle}

theorem purse_setAV (hs : Linked s.atomTable) (hst : s.atomTable.isStored h = true)
    (av : AttentionValue) (agents : Nat → Int) (hset : s.setAV h av = some s')
    (f : AttentionValue → Int) (funds : AtomSpace TV σ → Int) :
    (purse f funds agents s').holds =
      ((purse f funds agents s).set id (.atom h) (f av)).holds := by
  obtain ⟨a, ha, -⟩ := exists_of_isStored hst
  have hsome : s.atomTable.handleMap h ≠ none := by rw [ha]; simp
  obtain ⟨old, hold, hset⟩ := Option.bind_eq_some_iff.mp hset
  obtain rfl := Option.some.inj hset
  obtain ⟨-, -, -, -, hav⟩ := hs.setAttentionValue hsome av
  funext avh
  cases avh with
  | atom g =>
    by_cases hg : g = h
    · subst hg
      rw [Purse.holds_set_self]
      simp [purse, hav]
    · rw [Purse.holds_set_of_ne _ _ _ _ (by simpa using hg)]
      simp [purse, hav, hg]
  | agent n =>
    rw [Purse.holds_set_of_ne _ _ _ _ (by simp)]
    rfl

/-- `setSTI` on a stored atom, seen in the purses: the one of STI changes as `Purse.set`
says, the one of LTI stays. -/
theorem purse_setSTI (hs : Linked s.atomTable) (hst : s.atomTable.isStored h = true) (v : Short)
    (agents : Nat → Int) (hset : s.setSTI h v = some s') :
    (purse (·.sti) (·.fundsSTI) agents s').holds =
        ((purse (·.sti) (·.fundsSTI) agents s).set id (.atom h) v.val).holds ∧
      s'.fundsSTI = ((purse (·.sti) (·.fundsSTI) agents s).set id (.atom h) v.val).funds ∧
      (purse (·.lti) (·.fundsLTI) agents s').holds = (purse (·.lti) (·.fundsLTI) agents s).holds ∧
      s'.fundsLTI = s.fundsLTI := by
  obtain ⟨old, hold, hset⟩ := Option.bind_eq_some_iff.mp hset
  refine ⟨purse_setAV hs hst _ agents hset _ _, ?_, ?_, ?_⟩
  · rw [AtomSpace.setAV, hold] at hset
    obtain rfl := Option.some.inj hset
    simp [purse, hold, AttentionValue.withSTI]
  · rw [purse_setAV hs hst _ agents hset]
    exact Function.update_eq_self_iff.mpr (by simp [purse, hold, AttentionValue.withSTI])
  · rw [AtomSpace.setAV, hold] at hset
    obtain rfl := Option.some.inj hset
    simp [AttentionValue.withSTI]

/-- The same for `setLTI`. -/
theorem purse_setLTI (hs : Linked s.atomTable) (hst : s.atomTable.isStored h = true) (v : Short)
    (agents : Nat → Int) (hset : s.setLTI h v = some s') :
    (purse (·.lti) (·.fundsLTI) agents s').holds =
        ((purse (·.lti) (·.fundsLTI) agents s).set id (.atom h) v.val).holds ∧
      s'.fundsLTI = ((purse (·.lti) (·.fundsLTI) agents s).set id (.atom h) v.val).funds ∧
      (purse (·.sti) (·.fundsSTI) agents s').holds = (purse (·.sti) (·.fundsSTI) agents s).holds ∧
      s'.fundsSTI = s.fundsSTI := by
  obtain ⟨old, hold, hset⟩ := Option.bind_eq_some_iff.mp hset
  refine ⟨purse_setAV hs hst _ agents hset _ _, ?_, ?_, ?_⟩
  · rw [AtomSpace.setAV, hold] at hset
    obtain rfl := Option.some.inj hset
    simp [purse, hold, AttentionValue.withLTI]
  · rw [purse_setAV hs hst _ agents hset]
    exact Function.update_eq_self_iff.mpr (by simp [purse, hold, AttentionValue.withLTI])
  · rw [AtomSpace.setAV, hold] at hset
    obtain rfl := Option.some.inj hset
    simp [AttentionValue.withLTI]

end AtomSpace

end OpenCog.Attention
