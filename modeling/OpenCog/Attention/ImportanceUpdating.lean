import OpenCog.Attention.Purse

/-! The importance updating agent: agents are topped up, stimulated atoms are paid wages and
charged rent, and when the funds leave their range all atoms are taxed. Floating-point
numbers are exact; the random draws are given. -/
namespace OpenCog.Attention

/-- `recent_val` -/
structure RecentVal where
  val : Int
  recent : ℚ
  decay : ℚ

def RecentVal.update (r : RecentVal) (x : Int) : RecentVal :=
  { r with val := x, recent := r.decay * x + (1 - r.decay) * r.recent }

/-- What the agents gave to atoms since the last reset. -/
structure Agent where
  totalStimulus : Int
  stimulatedAtoms : Handle → Option Int

namespace Agent

def getAtomStimulus (a : Agent) (h : Handle) : Int := (a.stimulatedAtoms h).getD 0

def resetStimulus : Agent := ⟨0, fun _ => none⟩

end Agent

/-- `exp` and `log` of the mathematical library. -/
structure Libm where
  exp : ℚ → ℚ
  log : ℚ → ℚ

inductive RentType where
  | flat
  | exp
  | log

/-- What a run reads of the atom space, and of the agents: `minds` by their numbers. A
handle set holds an atom once. -/
structure Lobe where
  sti : Purse
  lti : Purse
  attentionalFocusBoundary : Int
  maxSTI : RecentVal
  minSTI : RecentVal
  atoms : List Handle
  atoms_nodup : atoms.Nodup
  isNode : Handle → Bool
  minds : Nat → Agent

namespace Lobe

/-- `getMaxSTI()` -/
def getMaxSTI (l : Lobe) : Int := toShort (truncate l.maxSTI.recent)

end Lobe

structure ImportanceUpdatingAgent where
  stiAtomRent : Int
  stiTransitionalAtomRent : RecentVal
  ltiAtomRent : Int
  amnesty : Int
  rentType : RentType
  rentFunctionParams : ℚ × ℚ
  stiAtomWage : Int
  stiAtomWage_fits : Fits stiAtomWage
  ltiAtomWage : Int
  updateLinks : Bool
  totalStimulusSinceReset : RecentVal
  attentionalFocusSize : RecentVal
  attentionalFocusNodesSize : RecentVal
  lobeSTIOutOfBounds : Bool
  lobeLTIOutOfBounds : Bool
  targetLobeSTI : Int
  targetLobeLTI : Int
  acceptableLobeSTIRange : Int × Int
  acceptableLobeLTIRange : Int × Int

def stiCap : Int := 32767 / 2
def ltiCap : Int := 32767 / 2

/-! ## Wages and rent -/

section Exchange
variable (narrow : Int → Int)

/-- `updateAgentSTI` with the STI wage, `updateAgentLTI` with the LTI wage. -/
def updateAgent (wage : Int) (p : Purse) (agent : Nat) : Purse :=
  let current := p.holds (.agent agent)
  if current < wage * 100 then
    let exchangeAmount := wage * 100 - current
    (p.note exchangeAmount).set narrow (.agent agent) (current + narrow exchangeAmount)
  else p.set narrow (.agent agent) (current + 0)

/-- The wage per stimulus an agent can pay. -/
def wageForAgent (minds : Nat → Agent) (p : Purse) (agent : Nat) : ℚ :=
  if (minds agent).totalStimulus = 0 then 0
  else (p.holds (.agent agent) : ℚ) / (minds agent).totalStimulus

/-- `calculateAtomWages` for one kind of importance. -/
def calculateWages (minds : Nat → Agent) (wage : Int) : List Nat → Purse → List ℚ × Purse
  | [], p => ([], p)
  | n :: agents, p =>
    let p := updateAgent narrow wage p n
    let rest := calculateWages minds wage agents p
    (wageForAgent minds p n :: rest.1, rest.2)

/-- The wage of an agent, at most the general one. -/
def cappedWage (wage : Int) (w : ℚ) : ℚ := if (wage : ℚ) < w then wage else w

/-- `(sti_t) wage * s`: a number to be converted, and a factor. -/
def stiDue (wage : Int) (w : ℚ) (s : Int) : ℚ × Int := (cappedWage wage w, s)

/-- `(lti_t) (wage * s)` -/
def ltiDue (wage : Int) (w : ℚ) (s : Int) : ℚ × Int := (cappedWage wage w * s, 1)

/-- What is due is added to the amount exchanged, and the agent is debited that amount. -/
def pay (n : Nat) (d : ℚ × Int) (exchangeAmount : Int) (p : Purse) : Int × Purse :=
  let sum := exchangeAmount + narrow (truncate d.1) * d.2
  let p := (p.note (truncate d.1)).note sum
  (narrow sum, p.set narrow (.agent n) (p.holds (.agent n) - narrow sum))

/-- The loop over the agents with their wages; agents without stimulus are passed. -/
def payWages (minds : Nat → Agent) (due : ℚ → Int → ℚ × Int) (h : Handle) :
    List (Nat × ℚ) → Int → Purse → Int × Purse
  | [], exchangeAmount, p => (exchangeAmount, p)
  | (n, w) :: agents, exchangeAmount, p =>
    if (minds n).totalStimulus = 0 then payWages minds due h agents exchangeAmount p
    else
      let s := pay narrow n (due w ((minds n).getAtomStimulus h)) exchangeAmount p
      payWages minds due h agents s.1 s.2

/-- `updateAtomSTI` and `updateAtomLTI`, with the rent charged for the atom. -/
def updateAtom (minds : Nat → Agent) (due : ℚ → Int → ℚ × Int) (rent : Int → Int)
    (agents : List (Nat × ℚ)) (p : Purse) (h : Handle) : Purse :=
  let current := p.holds (.atom h)
  let p := p.note (-rent current)
  let paid := payWages narrow minds due h agents (narrow (-rent current)) p
  paid.2.set narrow (.atom h) (current + paid.1)

/-- `enforceSTICap` and `enforceLTICap`. -/
def enforceCap (cap : Int) (p : Purse) (h : Handle) : Purse :=
  let current := p.holds (.atom h)
  if cap < current then p.set narrow (.atom h) cap
  else if current < -cap then p.set narrow (.atom h) (-cap)
  else p

end Exchange

namespace ImportanceUpdatingAgent

/-- The constructor, with the defaults of the configuration. -/
def initial : ImportanceUpdatingAgent where
  stiAtomRent := 10
  stiTransitionalAtomRent := ⟨10, 10, 1 / 2⟩
  ltiAtomRent := 10
  amnesty := 5
  rentType := .log
  rentFunctionParams := (1 / 20, 0)
  stiAtomWage := 2
  stiAtomWage_fits := by decide
  ltiAtomWage := 2
  updateLinks := true
  totalStimulusSinceReset := ⟨0, 0, 1 / 2⟩
  attentionalFocusSize := ⟨0, 0, 4 / 5⟩
  attentionalFocusNodesSize := ⟨0, 0, 4 / 5⟩
  lobeSTIOutOfBounds := false
  lobeLTIOutOfBounds := false
  targetLobeSTI := 10000
  targetLobeLTI := 10000
  acceptableLobeSTIRange := (0, 20000)
  acceptableLobeLTIRange := (0, 20000)

variable (narrow : Int → Int) (libm : Libm)

def getHandlesToUpdate (u : ImportanceUpdatingAgent) (l : Lobe) : List Handle :=
  if u.updateLinks then l.atoms else l.atoms.filter l.isNode

/-- The position of an STI between the focus boundary and the recent maximum. -/
def focusPosition (l : Lobe) (c : Int) : ℚ :=
  (c - l.attentionalFocusBoundary : ℤ) / (l.getMaxSTI - l.attentionalFocusBoundary : ℤ)

def calculateSTIRent (u : ImportanceUpdatingAgent) (l : Lobe) (c : Int) : Int :=
  match u.rentType with
  | .flat => if l.attentionalFocusBoundary + u.amnesty < c then u.stiAtomRent else 0
  | .exp =>
    if l.attentionalFocusBoundary + u.amnesty < c then
      let y := u.rentFunctionParams.1
      let multiplier := max 0 ((libm.exp (focusPosition l c) - (1 - y)) / (1 + y))
      toShort (truncate (multiplier * u.stiAtomRent))
    else 0
  | .log =>
    if l.attentionalFocusBoundary < c then
      let percentAmnesty := max 0 (u.rentFunctionParams.1 - 1 / 20)
      let multiplier := max 0 (libm.log ((focusPosition l c - percentAmnesty) * 20) / 2)
      toShort (truncate (multiplier * u.stiAtomRent))
    else 0

def updateAtomSTI (u : ImportanceUpdatingAgent) (l : Lobe) (agents : List (Nat × ℚ)) (p : Purse)
    (h : Handle) : Purse :=
  updateAtom narrow l.minds (stiDue u.stiAtomWage) (u.calculateSTIRent libm l) agents p h

def updateAtomLTI (u : ImportanceUpdatingAgent) (l : Lobe) (agents : List (Nat × ℚ)) (p : Purse)
    (h : Handle) : Purse :=
  updateAtom narrow l.minds (ltiDue u.ltiAtomWage) (fun _ => u.ltiAtomRent) agents p h

/-! ## Funds -/

def inRange (val : Int) (range : Int × Int) : Bool := decide (val ≤ range.2) && decide (range.1 ≤ val)

/-- `count` is how often the loop of the draw runs. -/
def getTaxAmount (mean : ℚ) (count : Nat) : Int :=
  let base := truncate |mean|
  if mean < 0 then -(count + base) else count + base

/-- One draw for each atom. -/
def taxAtoms (taxAmount : ℚ) : List (Handle × Nat) → Purse → Purse
  | [], p => p
  | (h, count) :: rest, p =>
    let beforeTax := p.holds (.atom h)
    taxAtoms taxAmount rest (p.set narrow (.atom h) (beforeTax - getTaxAmount taxAmount count))

/-- `adjustSTIFunds` and `adjustLTIFunds`. -/
def adjustFunds (target : Int) (handles : List Handle) (draws : Handle → Nat) (p : Purse) : Purse :=
  let taxAmount : ℚ := (target - p.funds : ℤ) / handles.length
  taxAtoms narrow taxAmount (handles.map fun h => (h, draws h)) p

/-- The STI half of `checkAtomSpaceFunds`. -/
def checkSTIFunds (u : ImportanceUpdatingAgent) (l : Lobe) (draws : Handle → Nat) :
    ImportanceUpdatingAgent × Lobe :=
  if inRange l.sti.funds u.acceptableLobeSTIRange then (u, l)
  else
    let sti := adjustFunds narrow u.targetLobeSTI (u.getHandlesToUpdate l) draws l.sti
    ({ u with lobeSTIOutOfBounds := true }, { l with sti := sti })

/-- The LTI half. -/
def checkLTIFunds (u : ImportanceUpdatingAgent) (l : Lobe) (draws : Handle → Nat) :
    ImportanceUpdatingAgent × Lobe :=
  if inRange l.lti.funds u.acceptableLobeLTIRange then (u, l)
  else
    let lti := adjustFunds narrow u.targetLobeLTI (u.getHandlesToUpdate l) draws l.lti
    ({ u with lobeLTIOutOfBounds := true }, { l with lti := lti })

/-- `draws` are those for STI and for LTI. -/
def checkAtomSpaceFunds (u : ImportanceUpdatingAgent) (l : Lobe) (draws : Handle → Nat × Nat) :
    ImportanceUpdatingAgent × Lobe :=
  let s := u.checkSTIFunds narrow l fun h => (draws h).1
  s.1.checkLTIFunds narrow s.2 fun h => (draws h).2

/-- The rent that wages and stimulus ask for, where there is a focus. -/
def transitionalRent (u : ImportanceUpdatingAgent) (focusSize : ℚ) : RecentVal :=
  if 0 < focusSize then
    u.stiTransitionalAtomRent.update
      (toShort ⌈(u.stiAtomWage : ℚ) * u.totalStimulusSinceReset.recent / focusSize⌉)
  else u.stiTransitionalAtomRent

/-- `updateSTIRent(a)`, not gradual. -/
def updateSTIRent (u : ImportanceUpdatingAgent) (l : Lobe) : ImportanceUpdatingAgent :=
  let rent := u.transitionalRent
    (if u.updateLinks then u.attentionalFocusSize.recent else u.attentionalFocusNodesSize.recent)
  { u with
    stiTransitionalAtomRent := rent
    stiAtomRent := rent.val
    lobeSTIOutOfBounds := inRange l.sti.funds u.acceptableLobeSTIRange }

/-! ## A run -/

def updateAttentionalFocusSizes (u : ImportanceUpdatingAgent) (l : Lobe) : ImportanceUpdatingAgent :=
  let inFocus := l.atoms.filter fun h =>
    decide (toShort (l.attentionalFocusBoundary + u.amnesty) ≤ l.sti.holds (.atom h))
  { u with
    attentionalFocusSize := u.attentionalFocusSize.update inFocus.length
    attentionalFocusNodesSize := u.attentionalFocusNodesSize.update (inFocus.countP l.isNode) }

def updateTotalStimulus (u : ImportanceUpdatingAgent) (l : Lobe) (agents : List Nat) :
    ImportanceUpdatingAgent :=
  { u with
    totalStimulusSinceReset := u.totalStimulusSinceReset.update
      (toShort (agents.map fun n => (l.minds n).totalStimulus).sum) }

/-- Rent, wages and caps for one atom. -/
def updateAtomOf (u : ImportanceUpdatingAgent) (stiWages ltiWages : List (Nat × ℚ)) (l : Lobe)
    (h : Handle) : Lobe :=
  { l with
    sti := enforceCap narrow stiCap (u.updateAtomSTI narrow libm l stiWages l.sti h) h
    lti := enforceCap narrow ltiCap (u.updateAtomLTI narrow l ltiWages l.lti h) h }

/-- The extremes seen before an atom, and after it. -/
def see (seen : Int × Int) (sti : Int) : Int × Int :=
  if seen.1 < sti then (sti, seen.2) else if sti < seen.2 then (seen.1, sti) else seen

/-- The loop over the atoms, with the largest and the least STI seen. -/
def updateAtoms (u : ImportanceUpdatingAgent) (stiWages ltiWages : List (Nat × ℚ)) :
    List Handle → (Int × Int) × Lobe → (Int × Int) × Lobe
  | [], s => s
  | h :: handles, s =>
    let l := u.updateAtomOf narrow libm stiWages ltiWages s.2 h
    updateAtoms u stiWages ltiWages handles (see s.1 (l.sti.holds (.atom h)), l)

/-- What a run passed to `updateMaxSTI` and `updateMinSTI`, the STI of the updated atoms
before the taxes, whether it found the STI funds out of range, and whether it calculated
the rent. -/
structure Report where
  maxSTI : Int
  minSTI : Int
  updated : List Int
  foundOutOfRange : Bool
  rentUpdated : Bool

structure Outcome where
  agent : ImportanceUpdatingAgent
  lobe : Lobe
  report : Report

/-- `run`, the stimuli being those after the random stimulation. The values noted are those
of this run. -/
def run (u : ImportanceUpdatingAgent) (l : Lobe) (agents : List Nat) (draws : Handle → Nat × Nat) :
    Outcome :=
  let l := { l with sti := { l.sti with noted := [] }, lti := { l.lti with noted := [] } }
  let u := (u.updateAttentionalFocusSizes l).updateTotalStimulus l agents
  let handles := u.getHandlesToUpdate l
  let sti := calculateWages narrow l.minds u.stiAtomWage agents l.sti
  let lti := calculateWages narrow l.minds u.ltiAtomWage agents l.lti
  let s := u.updateAtoms narrow libm (agents.zip sti.1) (agents.zip lti.1) handles
    ((-32768, 32767), { l with sti := sti.2, lti := lti.2 })
  let maxSTISeen := s.1.1
  let minSTISeen := if maxSTISeen < s.1.2 then maxSTISeen else s.1.2
  let updated := handles.map fun h => s.2.sti.holds (.atom h)
  let l := { s.2 with
    maxSTI := s.2.maxSTI.update maxSTISeen, minSTI := s.2.minSTI.update minSTISeen }
  let found := !inRange l.sti.funds u.acceptableLobeSTIRange
  let checked := u.checkAtomSpaceFunds narrow l draws
  let u := checked.1
  let l := checked.2
  { agent := if u.lobeSTIOutOfBounds then u.updateSTIRent l else u
    lobe := { l with minds := fun n => if n ∈ agents then .resetStimulus else l.minds n }
    report := ⟨maxSTISeen, minSTISeen, updated, found, u.lobeSTIOutOfBounds⟩ }

end ImportanceUpdatingAgent

end OpenCog.Attention
