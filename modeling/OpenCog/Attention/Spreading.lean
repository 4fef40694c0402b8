import OpenCog.Attention.ClosedForm
import OpenCog.Attention.Diffusion

/-! Spreading along Hebbian links: what an atom gives to the targets of its links, and when
that respects the threshold. Floating-point numbers are exact, integers unbounded; STI values
are narrowed where they are stored. -/
namespace OpenCog.Spreading
open Attention Diffusion

/-- `Link::isSource`; `none` where the type is neither ordered nor unordered, which throws. -/
def isSource (cs : ClassServer) (l : HebbianLink) (h : Handle) : Option Bool :=
  if cs.isA l.type ORDERED_LINK then some (l.outgoing.head? == some h)
  else if cs.isA l.type UNORDERED_LINK then some (decide (h ∈ l.outgoing))
  else none

/-- The outgoing set without the source. -/
def targets (l : HebbianLink) (source : Handle) : List Handle := l.outgoing.filter (· ≠ source)

section Agent
variable (cs : ClassServer) (spreadThreshold : Int)

def hebbianLinks (incoming : List HebbianLink) : List HebbianLink :=
  incoming.filter fun l => cs.isA l.type HEBBIAN_LINK

end Agent

/-! ## One transfer -/

section Transfers
variable {h t : Handle} {s : Int} {scale w : ℚ} {p : Purse}

section Run
variable (hs : 0 ≤ s ∧ s ≤ 32767) (hscale : 0 ≤ scale ∧ scale ≤ 1)
include hs hscale

end Run

end Transfers

/-! ## Links -/

/-- The transfers the loops make, in their order. -/
def visits (cs : ClassServer) (h : Handle) (links : List HebbianLink) : List (ℚ × Handle) :=
  links.flatMap fun l =>
    if isSource cs l h = some true then (targets l h).map fun t => (l.strength, t) else []

section Links
variable {cs : ClassServer} {h : Handle} {links : List HebbianLink} {p : Purse}

end Links

/-! ## When the threshold is respected -/

section Main
variable {cs : ClassServer} {h : Handle} {links : List HebbianLink} {p : Purse} {thr : Int}

end Main

end OpenCog.Spreading
