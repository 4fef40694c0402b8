import OpenCog.AtomSpace.Orderly

/-! Servers connected to the remove signal of a space hear of every atom that leaves it. -/
namespace OpenCog

variable {TV σ : Type}

/-- A slot of the remove signal that reads no table and throws nothing. -/
def Slots.onRemoval (f : σ → Handle → σ) : Slots TV σ :=
  ⟨fun _ servers _ => (servers, true), fun _ servers h => (f servers h, true)⟩

namespace AtomSpace
open AtomTable

/-- One signal for each of some atoms; every other atom of the space is still in it. -/
def Signalled (f : σ → Handle → σ) (s s' : AtomSpace TV σ) : Prop :=
  ∃ removed : List Handle, s'.servers = removed.foldl f s.servers ∧
    ∀ g, s.atomTable.isStored g = true → g ∉ removed → s'.atomTable.isStored g = true

section Calls
variable {cs : ClassServer} {ops : TruthOps TV} {f : σ → Handle → σ} {s s' : AtomSpace TV σ}

theorem Signalled.trans {a b c : AtomSpace TV σ} (h : Signalled f a b) (k : Signalled f b c) :
    Signalled f a c := by
  obtain ⟨p, hp, hkept⟩ := h
  obtain ⟨q, hq, hkept'⟩ := k
  refine ⟨p ++ q, by rw [hq, hp, List.foldl_append], fun g hg hn => ?_⟩
  rw [List.mem_append, not_or] at hn
  exact hkept' g (hkept g hg hn.1) hn.2

end Calls

end AtomSpace

end OpenCog
