import OpenCog.AtomSpace.HandleEntry
import OpenCog.AtomSpace.Orderly

/-! The Hebbian updating agent: every Hebbian link of the snapshot gets a new mean, or is
removed and added again under another type or in another order. -/
namespace OpenCog

variable {TV σ : Type}

/-- The agent, with what it reads of the configuration, of the attentional focus and of the
class of truth values. `setMean` throws on some truth values. -/
structure HebbianUpdatingAgent (TV : Type) where
  convertLinks : Bool
  conversionThreshold : Int
  attentionalFocusBoundary : Int
  /-- The recent averages that `getMaxSTI` and `getMinSTI` return. -/
  maxSTI : Int
  minSTI : Int
  getMean : TV → ℚ
  setMean : TV → ℚ → Option TV
  SimpleTruthValue : ℚ → ℚ → TV

namespace HebbianUpdatingAgent

def tcDecayRate : ℚ := 1 / 10

variable (agent : HebbianUpdatingAgent TV)

/-- `getNormalisedSTI` of an atom that has this STI. -/
def getNormalisedSTI (s : Int) : ℚ :=
  if s > agent.attentionalFocusBoundary then
    let normaliser := agent.maxSTI - agent.attentionalFocusBoundary
    if normaliser = 0 then 0 else (s - agent.attentionalFocusBoundary : ℚ) / normaliser
  else
    let normaliser := -(agent.minSTI + agent.attentionalFocusBoundary)
    if normaliser = 0 then 0 else (s + agent.attentionalFocusBoundary : ℚ) / normaliser

/-- `none` for a handle without an atom, a null pointer. -/
def getSTI (s : AtomTable TV) (h : Handle) : Option Int := (s.avOf h).map AttentionValue.sti

/-- The product of the normalised STIs, 0 when no atom is in the attentional focus. -/
def targetConjunction (s : AtomTable TV) (handles : List Handle) : Option ℚ := do
  let stis ← handles.mapM (getSTI s)
  if stis.any fun sti => decide (sti > agent.attentionalFocusBoundary) then
    let tc := (stis.map agent.getNormalisedSTI).prod
    some (if tc > 1 then 1 else if tc < -1 then -1 else tc)
  else some 0

/-! ## Rearranging -/

def hasPositiveSTI (s : AtomTable TV) (oh : Handle) : Bool :=
  ((getSTI s oh).map fun sti => decide (agent.getNormalisedSTI sti > 0)).getD false

/-- The loop of `moveSourceToFront`: every source is erased, the last one remembered. -/
def eraseSources (isSource : Handle → Bool) : Option Handle → List Handle →
    Option Handle × List Handle
  | theSource, [] => (theSource, [])
  | theSource, oh :: outgoing =>
    if isSource oh then eraseSources isSource (some oh) outgoing
    else
      let rest := eraseSources isSource theSource outgoing
      (rest.1, oh :: rest.2)

def moveSourceToFront (isSource : Handle → Bool) (outgoing : List Handle) : List Handle :=
  match eraseSources isSource none outgoing with
  | (some theSource, left) => theSource :: left
  | (none, left) => left

/-! ## One link -/

/-- What the agent does with a link. -/
inductive Update (TV : Type) where
  | keep
  | setMean (tc : ℚ)
  | convert (t : TypeCode) (sourceToFront : Bool) (tv : TV)
  deriving DecidableEq

/-- `none` where the code follows a null pointer or reads the first member of an empty link. -/
def updateOf (s : AtomTable TV) (h : Handle) : Option (Update TV) := do
  let a ← s.handleMap h
  let outgoing ← match a.body with
    | .node _ => none
    | .link outgoing => some outgoing
  let new_tc ← agent.targetConjunction s outgoing
  let old_tc := agent.getMean a.truthValue
  if agent.convertLinks && decide (a.attentionValue.lti < agent.conversionThreshold) then
    if a.type = INVERSE_HEBBIAN_LINK then
      let sti ← outgoing.head?.bind (getSTI s)
      if agent.getNormalisedSTI sti < 0 then
        let tc := tcDecayRate * new_tc + (1 - tcDecayRate) * old_tc
        if tc < 0 then
          some (.convert INVERSE_HEBBIAN_LINK true (agent.SimpleTruthValue (-tc) 0))
        else some .keep
      else
        let tc := tcDecayRate * -new_tc + (1 - tcDecayRate) * old_tc
        if tc < 0 then
          some (.convert SYMMETRIC_HEBBIAN_LINK false (agent.SimpleTruthValue (-tc) 1))
        else some (.setMean tc)
    else
      let tc := tcDecayRate * new_tc + (1 - tcDecayRate) * old_tc
      if tc < 0 then
        some (.convert INVERSE_HEBBIAN_LINK true (agent.SimpleTruthValue (-tc) 0))
      else some (.setMean tc)
  else do
    let new_tc ←
      if a.type = INVERSE_HEBBIAN_LINK then do
        let sti ← outgoing.head?.bind (getSTI s)
        some (if agent.getNormalisedSTI sti < 0 then -new_tc else new_tc)
      else some new_tc
    let tc := tcDecayRate * new_tc + (1 - tcDecayRate) * old_tc
    some (.setMean (if tc < 0 then 0 else tc))

/-- `AtomSpace::setMean`. -/
def giveMean (s : AtomSpace TV σ) (h : Handle) (mean : ℚ) : Option (AtomSpace TV σ) := do
  let a ← s.atomTable.handleMap h
  let newTv ← agent.setMean a.truthValue mean
  some { s with atomTable := s.atomTable.modify h fun a => { a with truthValue := newTv } }

section Run
variable (cs : ClassServer) (ops : TruthOps TV) (slots : Slots TV σ)

/-- Whether `removeAtom` returned true is not looked at. `none` where something throws. -/
def convert (s : AtomSpace TV σ) (h : Handle) (t : TypeCode) (sourceToFront : Bool) (tv : TV) :
    Option (AtomSpace TV σ × Handle) := do
  let outgoing := s.atomTable.outgoing h
  let backupAV ← s.atomTable.avOf h
  let (s, removed) ← s.removeAtom slots h false
  let _ ← removed
  let outgoing :=
    if sourceToFront then moveSourceToFront (agent.hasPositiveSTI s.atomTable) outgoing
    else outgoing
  let (s, added) := s.addLink cs ops slots t outgoing tv
  let h' ← added
  let s ← s.setAV h' backupAV
  some (s, h')

/-- One turn of the loop, with the replacement of the link if there is one. -/
def updateLink (s : AtomSpace TV σ) (h : Handle) : Option (AtomSpace TV σ × Option Handle) := do
  match ← agent.updateOf s.atomTable h with
  | .keep => some (s, none)
  | .setMean tc =>
    let s ← agent.giveMean s h tc
    some (s, none)
  | .convert t sourceToFront tv =>
    let (s, h') ← agent.convert cs ops slots s h t sourceToFront tv
    some (s, some h')

/-- The loop over the snapshot, with the conversions it made. -/
def updateLinks : List Handle → AtomSpace TV σ → Option (AtomSpace TV σ × List (Handle × Handle))
  | [], s => some (s, [])
  | h :: links, s => do
    let (s, replacement) ← agent.updateLink cs ops slots s h
    let (s, conversions) ← updateLinks links s
    some (s, (replacement.map (h, ·)).toList ++ conversions)

def hebbianLinks (s : AtomSpace TV σ) : List Handle :=
  s.atomTable.setOfType cs HEBBIAN_LINK true

def hebbianUpdatingUpdate (s : AtomSpace TV σ) :
    Option (AtomSpace TV σ × List (Handle × Handle)) :=
  agent.updateLinks cs ops slots (hebbianLinks cs s) s

end Run

/-! ## What rearranging keeps -/

theorem eraseSources_eq (isSource : Handle → Bool) (theSource : Option Handle)
    (outgoing : List Handle) :
    eraseSources isSource theSource outgoing =
      ((outgoing.filter isSource).getLast?.or theSource, outgoing.filter (!isSource ·)) := by
  induction outgoing generalizing theSource with
  | nil => simp [eraseSources]
  | cons oh outgoing ih =>
    by_cases h : isSource oh = true
    · simp only [eraseSources, h, if_true, ih, List.filter_cons_of_pos,
        List.getLast?_cons]
      cases (outgoing.filter isSource).getLast? with
      | none => simp [h]
      | some x => simp [h]
    · simp [eraseSources, h, ih]

theorem moveSourceToFront_eq (isSource : Handle → Bool) (outgoing : List Handle) :
    moveSourceToFront isSource outgoing =
      (outgoing.filter isSource).getLast?.toList ++ outgoing.filter (!isSource ·) := by
  unfold moveSourceToFront
  rw [eraseSources_eq, Option.or_none]
  cases (outgoing.filter isSource).getLast? with
  | none => rfl
  | some x => rfl

/-- Every source is erased and one put back. -/
theorem moveSourceToFront_perm_iff (isSource : Handle → Bool) (outgoing : List Handle) :
    (moveSourceToFront isSource outgoing).Perm outgoing ↔
      (outgoing.filter isSource).length ≤ 1 := by
  rw [moveSourceToFront_eq]
  have hsplit := List.filter_append_perm isSource outgoing
  constructor
  · intro hp
    have hlen := (hp.trans hsplit.symm).length_eq
    have hone : (outgoing.filter isSource).getLast?.toList.length ≤ 1 := by
      cases (outgoing.filter isSource).getLast? with
      | none => simp
      | some x => simp
    rw [List.length_append, List.length_append] at hlen
    omega
  · intro hle
    have hsame : (outgoing.filter isSource).getLast?.toList = outgoing.filter isSource := by
      match hf : outgoing.filter isSource with
      | [] => rfl
      | [x] => rfl
      | _ :: _ :: _ =>
        rw [hf] at hle
        simp at hle
    rw [hsame]
    exact hsplit

example : moveSourceToFront (fun oh => decide (2 ≤ oh)) [1, 2, 3] = [3, 1] := rfl

theorem moveSourceToFront_congr {isSource isSource' : Handle → Bool} {outgoing : List Handle}
    (h : ∀ oh ∈ outgoing, isSource oh = isSource' oh) :
    moveSourceToFront isSource outgoing = moveSourceToFront isSource' outgoing := by
  rw [moveSourceToFront_eq, moveSourceToFront_eq, List.filter_congr h]
  congr 1
  exact List.filter_congr fun oh hoh => by rw [h oh hoh]

/-! ## What one turn does -/

/-- Conversions in a row: each replaced link is gone, its replacement is a new atom with the
same members and attention value, and the other atoms and the funds are as before. -/
structure Swaps (s s' : AtomSpace TV σ) (conversions : List (Handle × Handle)) : Prop where
  orderly : s'.atomTable.Orderly
  grows : s.atomTable.brkUuid ≤ s'.atomTable.brkUuid
  was : ∀ c ∈ conversions, s.atomTable.isStored c.1 = true
  gone : ∀ c ∈ conversions, s'.atomTable.handleMap c.1 = none
  new : ∀ c ∈ conversions, s.atomTable.brkUuid ≤ c.2 ∧ s'.atomTable.isStored c.2 = true
  members : ∀ c ∈ conversions, (s'.atomTable.outgoing c.2).Perm (s.atomTable.outgoing c.1)
  avOf : ∀ c ∈ conversions, s'.atomTable.avOf c.2 = s.atomTable.avOf c.1
  kept : ∀ g < s.atomTable.brkUuid, (∀ c ∈ conversions, g ≠ c.1) →
    s'.atomTable.key g = s.atomTable.key g ∧ s'.atomTable.avOf g = s.atomTable.avOf g ∧
      s'.atomTable.isStored g = s.atomTable.isStored g
  fundsSTI : s'.fundsSTI = s.fundsSTI
  fundsLTI : s'.fundsLTI = s.fundsLTI

namespace Swaps

theorem refl {s : AtomSpace TV σ} (hs : s.atomTable.Orderly) : Swaps s s [] :=
  ⟨hs, Nat.le_refl _, by simp, by simp, by simp, by simp, by simp, fun _ _ _ => ⟨rfl, rfl, rfl⟩,
    rfl, rfl⟩

theorem lt_brk {s : AtomSpace TV σ} (hs : s.atomTable.Orderly) {h : Handle}
    (hst : s.atomTable.isStored h = true) : h < s.atomTable.brkUuid := by
  obtain ⟨a, ha, -⟩ := AtomTable.exists_of_isStored hst
  exact hs.linked.lt_brk (by rw [ha]; exact Option.some_ne_none a)

theorem not_stored {s : AtomTable TV} {h : Handle} (hn : s.handleMap h = none) :
    s.isStored h = false := by
  simp [AtomTable.isStored, hn]

variable {a b c : AtomSpace TV σ} {p q : List (Handle × Handle)}

/-- Links of the snapshot are older than every replacement, so no link is converted twice. -/
theorem trans (ha : a.atomTable.Orderly) (h : Swaps a b p) (k : Swaps b c q)
    (hq : ∀ d ∈ q, d.1 < a.atomTable.brkUuid) : Swaps a c (p ++ q) := by
  have hpq : ∀ d ∈ p, ∀ e ∈ q, d.1 ≠ e.1 := by
    intro d hd e he heq
    have hst := k.was e he
    rw [← heq, not_stored (h.gone d hd)] at hst
    cases hst
  -- a link converted in the second part is untouched by the first
  have hfirst : ∀ e ∈ q, b.atomTable.key e.1 = a.atomTable.key e.1 ∧
      b.atomTable.avOf e.1 = a.atomTable.avOf e.1 ∧
      b.atomTable.isStored e.1 = a.atomTable.isStored e.1 := fun e he =>
    h.kept e.1 (hq e he) fun d hd heq => hpq d hd e he heq.symm
  -- a replacement of the first part is untouched by the second
  have hsecond : ∀ d ∈ p, c.atomTable.key d.2 = b.atomTable.key d.2 ∧
      c.atomTable.avOf d.2 = b.atomTable.avOf d.2 ∧
      c.atomTable.isStored d.2 = b.atomTable.isStored d.2 := fun d hd =>
    k.kept d.2 (lt_brk h.orderly (h.new d hd).2) fun e he heq => by
      have hlt := hq e he
      rw [← heq] at hlt
      exact absurd (h.new d hd).1 (Nat.not_le_of_lt hlt)
  refine ⟨k.orderly, h.grows.trans k.grows, fun d hd => ?_, fun d hd => ?_, fun d hd => ?_,
    fun d hd => ?_, fun d hd => ?_, fun g hg hn => ?_, k.fundsSTI.trans h.fundsSTI,
    k.fundsLTI.trans h.fundsLTI⟩
  · rcases List.mem_append.mp hd with hd | hd
    · exact h.was d hd
    · rw [← (hfirst d hd).2.2]
      exact k.was d hd
  · rcases List.mem_append.mp hd with hd | hd
    · have hlt := lt_brk ha (h.was d hd)
      obtain ⟨hkey, -, -⟩ := k.kept d.1 (Nat.lt_of_lt_of_le hlt h.grows) (hpq d hd)
      simpa [AtomTable.key, h.gone d hd] using hkey
    · exact k.gone d hd
  · rcases List.mem_append.mp hd with hd | hd
    · rw [(hsecond d hd).2.2]
      exact h.new d hd
    · exact ⟨h.grows.trans (k.new d hd).1, (k.new d hd).2⟩
  · rcases List.mem_append.mp hd with hd | hd
    · rw [AtomTable.outgoing_eq, (hsecond d hd).1, ← AtomTable.outgoing_eq]
      exact h.members d hd
    · have hperm := k.members d hd
      rwa [AtomTable.outgoing_eq b.atomTable, (hfirst d hd).1, ← AtomTable.outgoing_eq] at hperm
  · rcases List.mem_append.mp hd with hd | hd
    · rw [(hsecond d hd).2.1]
      exact h.avOf d hd
    · rw [k.avOf d hd, (hfirst d hd).2.1]
  · obtain ⟨hkey, hav, hst⟩ := h.kept g hg fun d hd => hn d (List.mem_append_left q hd)
    obtain ⟨hkey', hav', hst'⟩ := k.kept g (Nat.lt_of_lt_of_le hg h.grows) fun d hd =>
      hn d (List.mem_append_right p hd)
    exact ⟨hkey'.trans hkey, hav'.trans hav, hst'.trans hst⟩

end Swaps

/-! ## Taking a link out -/

/-- One atom and its record are gone, its importance is back in the funds. -/
structure Without (s s' : AtomSpace TV σ) (h : Handle) (av : AttentionValue) : Prop where
  orderly : s'.atomTable.Orderly
  brkUuid : s'.atomTable.brkUuid = s.atomTable.brkUuid
  gone : s'.atomTable.handleMap h = none
  kept : ∀ g, g ≠ h → s'.atomTable.key g = s.atomTable.key g ∧
    s'.atomTable.avOf g = s.atomTable.avOf g ∧ s'.atomTable.isStored g = s.atomTable.isStored g
  links : ∀ t o g, s'.atomTable.linkIndex t o = some g → s.atomTable.linkIndex t o = some g
  fundsSTI : s'.fundsSTI = s.fundsSTI + av.sti
  fundsLTI : s'.fundsLTI = s.fundsLTI + av.lti

section Step
variable {agent : HebbianUpdatingAgent TV} {cs : ClassServer} {ops : TruthOps TV}
  {slots : Slots TV σ} {s s' : AtomSpace TV σ} {h h' : Handle}

/-- Nothing refers to the link, so that it is removed. -/
theorem removeAtom_without (hs : s.atomTable.Orderly) (hst : s.atomTable.isStored h = true)
    (hin : s.atomTable.incoming h = []) {av : AttentionValue} (hav : s.atomTable.avOf h = some av)
    {b : Bool} (he : s.removeAtom slots h false = some (s', some b)) : Without s s' h av := by
  obtain ⟨table, res, hx, ht⟩ := AtomTable.extract_takes (s.atomTable.brkUuid + 1) s.atomTable h
    false hs.linked ⟨Nat.succ_pos _, by lia⟩
  have hres : res = [h] := by rw [ht.alone rfl hst (hs.clean h hst), if_pos hin]
  subst hres
  have htable := hs.extract hx ht
  have hshrunk := AtomTable.Shrunk.extract _ hx
  have hout : table.isStored h = false := by simpa using ht.stored h
  have hmem : h ∈ [h] := List.mem_singleton_self h
  have hrefund : [h].foldlM AtomSpace.refund { s with atomTable := table } = some { s with
      atomTable := table, fundsSTI := s.fundsSTI + av.sti, fundsLTI := s.fundsLTI + av.lti } := by
    simp [AtomSpace.refund, ht.avOf, hav]
  simp only [AtomSpace.removeAtom, hx, Option.bind_eq_bind, Option.bind_some, hrefund,
    List.reverse_singleton, AtomSpace.removeExtractedHandles] at he
  rw [if_neg (List.cons_ne_nil h [])] at he
  split at he
  · obtain ⟨table', hdel, hl, hbrk, hother, htypes, hnone⟩ :=
      htable.linked.deleteAtom (ht.record hmem) hout (ht.bare h hmem)
    have hindex : table'.linkIndex = table.linkIndex := by
      unfold AtomTable.deleteAtom at hdel
      split at hdel
      · cases hdel
      · split at hdel
        · exact Option.some.inj hdel ▸ rfl
        · cases hdel
    simp only [hdel, Option.bind_some, Option.some.injEq, Prod.mk.injEq] at he
    obtain ⟨rfl, -⟩ := he
    refine ⟨htable.forget hl hout htypes hnone hother, hbrk.trans ht.brkUuid, hnone,
      fun g hg => ⟨?_, ?_, ?_⟩, fun t o g ho => hshrunk.links t o g (hindex ▸ ho), rfl, rfl⟩
    · rw [← ht.key, AtomTable.key, hother g hg, ← AtomTable.key]
    · rw [← ht.avOf, AtomTable.avOf, hother g hg, ← AtomTable.avOf]
    · have hstored : table'.isStored g = table.isStored g := by
        simp only [AtomTable.isStored, hother g hg, htypes]
      simp [hstored, ht.stored, hg]
  · simp at he

/-- The sequence is not there, so that a new atom is made. -/
theorem addLink_grown (hs : s.atomTable.Orderly) {t : TypeCode} {outgoing : List Handle} {tv : TV}
    (hfree : ∀ o, o = outgoing ∨ o = Atom.setOutgoingSet cs t outgoing →
      (s.atomTable.getHandleBySeq t o).filter s.atomTable.isValidHandle = none)
    (he : s.addLink cs ops slots t outgoing tv = (s', some h')) :
    h' = s.atomTable.brkUuid ∧ s'.fundsSTI = s.fundsSTI ∧ s'.fundsLTI = s.fundsLTI ∧
      AtomTable.Grown s.atomTable s'.atomTable
        (.init ops t (.link (Atom.setOutgoingSet cs t outgoing)) tv) := by
  unfold AtomSpace.addLink at he
  rw [hfree outgoing (.inl rfl)] at he
  simp only at he
  unfold Atom.newLink at he
  split at he
  case isFalse => cases he
  case isTrue =>
    set a : Atom TV := .init ops t (.link (Atom.setOutgoingSet cs t outgoing)) tv with ha
    have hnone : s.atomTable.getHandle a = none := hfree _ (.inr rfl)
    have hsti : s.payDefault.fundsSTI = s.fundsSTI := Int.sub_zero _
    have hlti : s.payDefault.fundsLTI = s.fundsLTI := Int.sub_zero _
    have htable : s.payDefault.atomTable = s.atomTable := rfl
    simp only [AtomSpace.addAtom, htable, hnone] at he
    obtain ⟨-, ⟨g, -, hfound, -⟩ | ⟨hres, -⟩ | ⟨hres, -, -, hg⟩⟩ :=
      hs.linked.add ops (a := a) rfl
    · rw [hnone] at hfound
      cases hfound
    · simp only [hres, Prod.mk.injEq] at he
      cases he.2
    · simp only [hres, Prod.mk.injEq] at he
      obtain ⟨rfl, hh⟩ := he
      split at hh
      · exact ⟨(Option.some.inj hh).symm, hsti, hlti, hg⟩
      · cases hh

theorem perm_setOutgoingSet (cs : ClassServer) (t : TypeCode) (outgoing : List Handle) :
    (Atom.setOutgoingSet cs t outgoing).Perm outgoing := by
  unfold Atom.setOutgoingSet
  split
  · exact List.mergeSort_perm _ _
  · exact .refl _

/-! ## One conversion -/

/-- The members of the replacement, as the table stands before the removal. -/
def rearranged (agent : HebbianUpdatingAgent TV) (s : AtomTable TV) (h : Handle)
    (sourceToFront : Bool) : List Handle :=
  if sourceToFront then moveSourceToFront (agent.hasPositiveSTI s) (s.outgoing h)
  else s.outgoing h

/-- A link that can be taken out and put back: nothing refers to it, at most one member is
erased from the sequence, and no other atom is what it is to become. -/
structure Convertible (agent : HebbianUpdatingAgent TV) (cs : ClassServer) (s : AtomTable TV)
    (h : Handle) (t : TypeCode) (sourceToFront : Bool) : Prop where
  bare : s.incoming h = []
  oneSource : sourceToFront = true →
    ((s.outgoing h).filter (agent.hasPositiveSTI s)).length ≤ 1
  unused : ∀ o, o = agent.rearranged s h sourceToFront ∨
      o = Atom.setOutgoingSet cs t (agent.rearranged s h sourceToFront) →
    ∀ g, (s.getHandleBySeq t o).filter s.isValidHandle = some g → g = h

theorem rearranged_perm {t : TypeCode} {sourceToFront : Bool}
    (hc : Convertible agent cs s.atomTable h t sourceToFront) :
    (agent.rearranged s.atomTable h sourceToFront).Perm (s.atomTable.outgoing h) := by
  unfold rearranged
  split
  · next hmove => exact (moveSourceToFront_perm_iff _ _).mpr (hc.oneSource hmove)
  · exact .refl _

/-- The members are still there after the removal, with the same attention values. -/
theorem rearranged_without {av : AttentionValue} (hs : s.atomTable.Orderly)
    (hst : s.atomTable.isStored h = true) (hw : Without s s' h av) (sourceToFront : Bool) :
    (if sourceToFront then
      moveSourceToFront (agent.hasPositiveSTI s'.atomTable) (s.atomTable.outgoing h)
    else s.atomTable.outgoing h) = agent.rearranged s.atomTable h sourceToFront := by
  unfold rearranged
  congr 1
  refine moveSourceToFront_congr fun x hx => ?_
  have hne : x ≠ h := Nat.ne_of_lt (hs.earlier h hst x hx)
  simp only [hasPositiveSTI, getSTI, (hw.kept x hne).2.1]

theorem unused_without {av : AttentionValue} {t : TypeCode} {o : List Handle}
    (hw : Without s s' h av)
    (hu : ∀ g, (s.atomTable.getHandleBySeq t o).filter s.atomTable.isValidHandle = some g → g = h) :
    (s'.atomTable.getHandleBySeq t o).filter s'.atomTable.isValidHandle = none := by
  rw [Option.eq_none_iff_forall_ne_some]
  intro g hg
  obtain ⟨hfound, hvalid⟩ := Option.filter_eq_some_iff.mp hg
  simp only [AtomTable.isValidHandle, Bool.and_eq_true, decide_eq_true_eq,
    Option.isSome_iff_ne_none] at hvalid
  have hne : g ≠ h := by
    rintro rfl
    exact hvalid.2 hw.gone
  refine hne (hu g (Option.filter_eq_some_iff.mpr ⟨hw.links t o g hfound, ?_⟩))
  have hrecord : s.atomTable.handleMap g ≠ none := by
    rw [AtomTable.handleMap_ne_none, ← (hw.kept g hne).1, ← AtomTable.handleMap_ne_none]
    exact hvalid.2
  simp only [AtomTable.isValidHandle, Bool.and_eq_true, decide_eq_true_eq,
    Option.isSome_iff_ne_none]
  exact ⟨hw.brkUuid ▸ hvalid.1, hrecord⟩

theorem convert_swaps (hs : s.atomTable.Orderly) (hst : s.atomTable.isStored h = true)
    {t : TypeCode} {sourceToFront : Bool} {tv : TV}
    (hc : Convertible agent cs s.atomTable h t sourceToFront)
    (he : agent.convert cs ops slots s h t sourceToFront tv = some (s', h')) :
    Swaps s s' [(h, h')] := by
  obtain ⟨backupAV, hav, he⟩ := Option.bind_eq_some_iff.mp he
  obtain ⟨⟨s₁, removed⟩, hrem, he⟩ := Option.bind_eq_some_iff.mp he
  obtain ⟨b, rfl, he⟩ := Option.bind_eq_some_iff.mp he
  have hw := removeAtom_without hs hst hc.bare hav hrem
  simp only [rearranged_without hs hst hw, Option.bind_eq_bind, Option.bind_some] at he
  obtain ⟨g, hadd, he⟩ := Option.bind_eq_some_iff.mp he
  obtain ⟨s₃, hset, he⟩ := Option.bind_eq_some_iff.mp he
  obtain ⟨rfl, rfl⟩ := Prod.mk.inj (Option.some.inj he)
  set o := agent.rearranged s.atomTable h sourceToFront with ho
  set s₂ := (s₁.addLink cs ops slots t o tv).1 with hs₂
  have hadded : s₁.addLink cs ops slots t o tv = (s₂, some g) := Prod.ext rfl hadd
  obtain ⟨hg, hsti, hlti, hgrown⟩ := addLink_grown hw.orderly
    (fun o' ho' => unused_without hw (hc.unused o' ho')) hadded
  have hord₂ : s₂.atomTable.Orderly := AtomSpace.addLink_orderly hw.orderly t o tv
  rw [hw.brkUuid] at hg
  subst hg
  have hlt := Swaps.lt_brk hs hst
  have hbrk : s₁.atomTable.brkUuid = s.atomTable.brkUuid := hw.brkUuid
  have hav₂ : s₂.atomTable.avOf s.atomTable.brkUuid = some .default := by
    rw [hgrown.avOf, if_pos hbrk.symm]
    rfl
  have hsome : s₂.atomTable.handleMap s.atomTable.brkUuid ≠ none := by
    intro hn
    simp [AtomTable.avOf, hn] at hav₂
  obtain ⟨hl, hkey, hbrk₃, hstored, havOf⟩ := hord₂.linked.setAttentionValue hsome backupAV
  have hord₃ := AtomSpace.setAV_orderly hord₂ hset
  simp only [AtomSpace.setAV, hav₂, Option.bind_eq_bind, Option.bind_some,
    Option.some.injEq] at hset
  subst hset
  have hnew : ∀ g, g < s.atomTable.brkUuid → g ≠ s₁.atomTable.brkUuid := fun g hg => by
    rw [hbrk]
    exact Nat.ne_of_lt hg
  refine ⟨hord₃, ?_, ?_, ?_, ?_, ?_, ?_, fun g hg hn => ?_, ?_, ?_⟩
  · simp only
    rw [hbrk₃, hgrown.brkUuid, hbrk]
    exact Nat.le_succ _
  · simpa using hst
  · have hgone : (s₂.atomTable.setAttentionValue s.atomTable.brkUuid backupAV).key h = none := by
      rw [hkey, hgrown.key, if_neg (hnew h hlt)]
      simp [AtomTable.key, hw.gone]
    simpa [AtomTable.key] using hgone
  · simp [hstored, hgrown.stored, hbrk]
  · have hout : (s₂.atomTable.setAttentionValue s.atomTable.brkUuid backupAV).outgoing
        s.atomTable.brkUuid = Atom.setOutgoingSet cs t o := by
      rw [AtomTable.outgoing_eq, hkey, hgrown.key, if_pos hbrk.symm]
      rfl
    simp only [List.mem_singleton, forall_eq, hout]
    exact (perm_setOutgoingSet cs t o).trans (rearranged_perm hc)
  · simp [havOf, hav]
  · have hne : g ≠ h := hn (h, s.atomTable.brkUuid) (List.mem_singleton_self _)
    obtain ⟨hk, ha, hst'⟩ := hw.kept g hne
    have hne' := hnew g hg
    refine ⟨?_, ?_, ?_⟩
    · simp only [hkey, hgrown.key, if_neg hne', hk]
    · simp only [havOf, if_neg (Nat.ne_of_lt hg), hgrown.avOf, if_neg hne', ha]
    · simp [hstored, hgrown.stored, hne', hst']
  · have hfunds := hw.fundsSTI
    have hzero : AttentionValue.default.sti = 0 := rfl
    simp only
    omega
  · have hfunds := hw.fundsLTI
    have hzero : AttentionValue.default.lti = 0 := rfl
    simp only
    omega

theorem giveMean_swaps (hs : s.atomTable.Orderly) {mean : ℚ}
    (he : agent.giveMean s h mean = some s') : Swaps s s' [] := by
  obtain ⟨a, -, he⟩ := Option.bind_eq_some_iff.mp he
  obtain ⟨newTv, -, he⟩ := Option.bind_eq_some_iff.mp he
  obtain rfl := Option.some.inj he
  have same := AtomTable.sameKeys_modify s.atomTable h
    (f := fun a => { a with truthValue := newTv }) (fun _ => rfl) (fun _ => rfl)
  refine ⟨hs.modify h (fun _ => rfl) (fun _ => rfl) (fun _ => rfl) (fun _ => rfl), Nat.le_refl _,
    by simp, by simp, by simp, by simp, by simp, fun g _ _ => ⟨?_, ?_, same.isStored g⟩, rfl, rfl⟩
  · rw [same.key]
  · exact congrFun (AtomTable.avOf_modify s.atomTable h
      (f := fun a => { a with truthValue := newTv }) fun _ => rfl) g

/-- When the agent converts the link, the link is one that can be. -/
def Safe (agent : HebbianUpdatingAgent TV) (cs : ClassServer) (s : AtomTable TV) (h : Handle) :
    Prop :=
  ∀ t sourceToFront tv, agent.updateOf s h = some (.convert t sourceToFront tv) →
    Convertible agent cs s h t sourceToFront

theorem updateLink_swaps (hs : s.atomTable.Orderly) (hst : s.atomTable.isStored h = true)
    (hsafe : Safe agent cs s.atomTable h) {replacement : Option Handle}
    (he : agent.updateLink cs ops slots s h = some (s', replacement)) :
    Swaps s s' (replacement.map (h, ·)).toList := by
  obtain ⟨update, hu, he⟩ := Option.bind_eq_some_iff.mp he
  cases update with
  | keep =>
    obtain ⟨rfl, rfl⟩ := Prod.mk.inj (Option.some.inj he)
    exact .refl hs
  | setMean tc =>
    obtain ⟨s₁, hmean, he⟩ := Option.bind_eq_some_iff.mp he
    obtain ⟨rfl, rfl⟩ := Prod.mk.inj (Option.some.inj he)
    exact giveMean_swaps hs hmean
  | convert t sourceToFront tv =>
    obtain ⟨⟨s₁, h₁⟩, hconv, he⟩ := Option.bind_eq_some_iff.mp he
    obtain ⟨rfl, rfl⟩ := Prod.mk.inj (Option.some.inj he)
    exact convert_swaps hs hst (hsafe t sourceToFront tv hu) hconv

/-- A link that was converted has no atom any more, and cannot be updated again. -/
theorem handleMap_of_updateLink {replacement : Option Handle}
    (he : agent.updateLink cs ops slots s h = some (s', replacement)) :
    s.atomTable.handleMap h ≠ none := by
  obtain ⟨update, hu, -⟩ := Option.bind_eq_some_iff.mp he
  obtain ⟨a, ha, -⟩ := Option.bind_eq_some_iff.mp hu
  rw [ha]
  exact Option.some_ne_none a

/-! ## Runs -/

section Runs
variable (agent) (cs) (ops) (slots)

/-- Every turn of the loop finds a link that can be converted, or does not convert. -/
def AllSafe : List Handle → AtomSpace TV σ → Prop
  | [], _ => True
  | h :: links, s => Safe agent cs s.atomTable h ∧
      ∀ s' replacement, agent.updateLink cs ops slots s h = some (s', replacement) →
        AllSafe links s'

variable {agent cs ops slots}

theorem updateLinks_swaps {links : List Handle} {conversions : List (Handle × Handle)}
    (hs : s.atomTable.Orderly)
    (hlinks : ∀ k ∈ links, k < s.atomTable.brkUuid ∧
      (s.atomTable.isStored k = true ∨ s.atomTable.handleMap k = none))
    (hsafe : AllSafe agent cs ops slots links s)
    (he : agent.updateLinks cs ops slots links s = some (s', conversions)) :
    Swaps s s' conversions ∧ ∀ c ∈ conversions, c.1 ∈ links := by
  induction links generalizing s conversions with
  | nil =>
    obtain ⟨rfl, rfl⟩ := Prod.mk.inj (Option.some.inj he)
    exact ⟨.refl hs, by simp⟩
  | cons h links ih =>
    obtain ⟨⟨s₁, replacement⟩, hstep, he⟩ := Option.bind_eq_some_iff.mp he
    obtain ⟨⟨s₂, rest⟩, hrest, he⟩ := Option.bind_eq_some_iff.mp he
    obtain ⟨rfl, rfl⟩ := Prod.mk.inj (Option.some.inj he)
    have hst : s.atomTable.isStored h = true :=
      (hlinks h List.mem_cons_self).2.resolve_right (handleMap_of_updateLink hstep)
    have hfirst := updateLink_swaps hs hst hsafe.1 hstep
    have hlinks₁ : ∀ k ∈ links, k < s₁.atomTable.brkUuid ∧
        (s₁.atomTable.isStored k = true ∨ s₁.atomTable.handleMap k = none) := by
      intro k hk
      obtain ⟨hlt, hor⟩ := hlinks k (List.mem_cons_of_mem h hk)
      refine ⟨Nat.lt_of_lt_of_le hlt hfirst.grows, ?_⟩
      by_cases hc : ∃ c ∈ (replacement.map (h, ·)).toList, k = c.1
      · obtain ⟨c, hc, rfl⟩ := hc
        exact .inr (hfirst.gone c hc)
      · push Not at hc
        obtain ⟨hkey, -, hstored⟩ := hfirst.kept k hlt hc
        rcases hor with hor | hor
        · exact .inl (hstored.trans hor)
        · refine .inr ?_
          simpa [AtomTable.key, hor] using hkey
    obtain ⟨hswaps, hmem⟩ := ih hfirst.orderly hlinks₁ (hsafe.2 s₁ replacement hstep) hrest
    refine ⟨hfirst.trans hs hswaps fun d hd => ?_, fun c hc => ?_⟩
    · exact (hlinks d.1 (List.mem_cons_of_mem h (hmem d hd))).1
    · rcases List.mem_append.mp hc with hc | hc
      · cases replacement with
        | none => simp at hc
        | some h' =>
          obtain rfl := List.mem_singleton.mp hc
          exact List.mem_cons_self
      · exact List.mem_cons_of_mem h (hmem c hc)

/-- What conversion is to do over one run of the agent. -/
structure Lossless (s s' : AtomSpace TV σ) (conversions : List (Handle × Handle)) : Prop where
  removed : ∀ c ∈ conversions, s'.atomTable.isStored c.1 = false
  replaced : ∀ c ∈ conversions, s'.atomTable.isStored c.2 = true ∧
    (s'.atomTable.outgoing c.2).Perm (s.atomTable.outgoing c.1) ∧
    s'.atomTable.avOf c.2 = s.atomTable.avOf c.1
  others : ∀ g, s.atomTable.isStored g = true → (∀ c ∈ conversions, g ≠ c.1 ∧ g ≠ c.2) →
    s'.atomTable.isStored g = true ∧ s'.atomTable.avOf g = s.atomTable.avOf g
  fundsSTI : s'.fundsSTI = s.fundsSTI
  fundsLTI : s'.fundsLTI = s.fundsLTI

theorem Swaps.lossless {conversions : List (Handle × Handle)} (hs : s.atomTable.Orderly)
    (h : Swaps s s' conversions) : Lossless s s' conversions where
  removed c hc := not_stored (h.gone c hc)
  replaced c hc := ⟨(h.new c hc).2, h.members c hc, h.avOf c hc⟩
  others g hg hn := by
    obtain ⟨-, hav, hst⟩ := h.kept g (lt_brk hs hg) fun c hc => (hn c hc).1
    exact ⟨hst.trans hg, hav⟩
  fundsSTI := h.fundsSTI
  fundsLTI := h.fundsLTI

theorem mem_hebbianLinks (hs : s.atomTable.Orderly) (hm : h ∈ hebbianLinks cs s) :
    s.atomTable.isStored h = true := by
  obtain ⟨t, -, hm⟩ := List.mem_flatMap.mp hm
  split at hm
  · exact hs.isStored (List.mem_dedup.mp hm)
  · cases hm

/-- In every space and every run whose conversions all find a link that can be taken out and
put back, conversion loses nothing. -/
theorem lossless_of_allSafe (agent : HebbianUpdatingAgent TV) (cs : ClassServer)
    (ops : TruthOps TV) (slots : Slots TV σ) (servers : σ) (fundsSTI fundsLTI : Int)
    (s : AtomSpace TV σ)
    (r : AtomSpace.Reachable cs ops slots (AtomSpace.opened servers fundsSTI fundsLTI) s)
    (hsafe : AllSafe agent cs ops slots (hebbianLinks cs s) s) (s' : AtomSpace TV σ)
    (conversions : List (Handle × Handle))
    (he : agent.hebbianUpdatingUpdate cs ops slots s = some (s', conversions)) :
    Lossless s s' conversions := by
  have hs := r.orderly
  have hlinks : ∀ k ∈ hebbianLinks cs s, k < s.atomTable.brkUuid ∧
      (s.atomTable.isStored k = true ∨ s.atomTable.handleMap k = none) := fun k hk =>
    ⟨Swaps.lt_brk hs (mem_hebbianLinks hs hk), .inl (mem_hebbianLinks hs hk)⟩
  exact (updateLinks_swaps hs hlinks hsafe he).1.lossless hs

end Runs

end Step

/-! ## An inverse link that points the wrong way -/

/-- Truth values that are their mean. -/
def meanOps : TruthOps ℚ := ⟨fun _ => false, fun tv _ => tv, 0⟩

def silent : Slots ℚ Unit := ⟨fun _ s _ => (s, true), fun _ s _ => (s, true)⟩

def converting : HebbianUpdatingAgent ℚ where
  convertLinks := true
  conversionThreshold := 1
  attentionalFocusBoundary := 0
  maxSTI := 10
  minSTI := -10
  getMean := id
  setMean _ mean := some mean
  SimpleTruthValue mean _ := mean

def start : AtomSpace ℚ Unit := AtomSpace.opened () 100 100

theorem ten_short : -32768 ≤ (10 : Int) ∧ (10 : Int) ≤ 32767 := by decide

/-- Two nodes with the extreme STIs, and a link of STI 5 from the poor to the rich one. -/
def wrongWay : List (SpaceOp ℚ) :=
  [.addNode CONCEPT_NODE "a" 0, .addNode CONCEPT_NODE "b" 0, .setSTI 1 ⟨10, ten_short⟩,
    .setSTI 2 ⟨-10, by decide⟩, .addLink INVERSE_HEBBIAN_LINK [2, 1] 0, .setSTI 3 ⟨5, by decide⟩]

def after (calls : List (SpaceOp ℚ)) : AtomSpace ℚ Unit :=
  (start.applyAll .script meanOps silent calls).getD start

theorem reachable_after (calls : List (SpaceOp ℚ))
    (h : (start.applyAll .script meanOps silent calls).isSome = true) :
    AtomSpace.Reachable .script meanOps silent start (after calls) := by
  obtain ⟨s, hs⟩ := Option.isSome_iff_exists.mp h
  have r := AtomSpace.Reachable.start.calls hs
  rwa [after, hs]

theorem convertible_wrongWay :
    Convertible converting .script (after wrongWay).atomTable 3 INVERSE_HEBBIAN_LINK true where
  bare := by decide +kernel
  oneSource _ := by decide +kernel
  unused o ho g hg := by
    have hmoved : converting.rearranged (after wrongWay).atomTable 3 true = [1, 2] := by
      decide +kernel
    have hkept : Atom.setOutgoingSet .script INVERSE_HEBBIAN_LINK [1, 2] = [1, 2] := by
      decide +kernel
    have hsame : o = [1, 2] := by
      rw [hmoved, hkept] at ho
      exact ho.elim id id
    have hnone : (after wrongWay).atomTable.getHandleBySeq INVERSE_HEBBIAN_LINK [1, 2] = none := by
      decide +kernel
    rw [hsame, hnone] at hg
    cases hg

theorem updateOf_wrongWay : converting.updateOf (after wrongWay).atomTable 3 =
    some (.convert INVERSE_HEBBIAN_LINK true (1 / 10)) := by
  decide +kernel

/-- The link is turned around: handle 4 replaces handle 3. -/
theorem lossless_wrongWay : ∃ s', converting.hebbianUpdatingUpdate .script meanOps silent
      (after wrongWay) = some (s', [(3, 4)]) ∧
    Lossless (after wrongWay) s' [(3, 4)] := by
  have hlinks : hebbianLinks .script (after wrongWay) = [3] := by decide +kernel
  have hsafe : AllSafe converting .script meanOps silent
      (hebbianLinks .script (after wrongWay)) (after wrongWay) := by
    rw [hlinks]
    refine ⟨fun t sourceToFront tv hu => ?_, fun _ _ _ => trivial⟩
    rw [updateOf_wrongWay, Option.some.injEq, Update.convert.injEq] at hu
    obtain ⟨rfl, rfl, -⟩ := hu
    exact convertible_wrongWay
  have hrun : (converting.hebbianUpdatingUpdate .script meanOps silent (after wrongWay)).map
      Prod.snd = some [(3, 4)] := by
    decide +kernel
  obtain ⟨⟨s', conversions⟩, he, rfl⟩ := Option.map_eq_some_iff.mp hrun
  exact ⟨s', he, lossless_of_allSafe converting .script meanOps silent () 100 100 (after wrongWay)
    (reachable_after wrongWay (by decide +kernel)) hsafe s' _ he⟩

/-- A list over the link keeps it from being removed, and it is added again all the same. -/
theorem not_lossless : ¬ ∀ (s : AtomSpace ℚ Unit)
    (_ : AtomSpace.Reachable .script meanOps silent start s) (s' : AtomSpace ℚ Unit)
    (conversions : List (Handle × Handle)),
    converting.hebbianUpdatingUpdate .script meanOps silent s = some (s', conversions) →
      Lossless s s' conversions := by
  intro hall
  set calls := wrongWay ++ [.addLink LIST_LINK [3] 0] with hcalls
  have hrun : (converting.hebbianUpdatingUpdate .script meanOps silent (after calls)).map
      (fun r => (r.2, r.1.atomTable.isStored 3, r.1.fundsSTI)) = some ([(3, 5)], true, 90) := by
    decide +kernel
  obtain ⟨⟨s', conversions⟩, he, hr⟩ := Option.map_eq_some_iff.mp hrun
  simp only [Prod.mk.injEq] at hr
  obtain ⟨rfl, hst, -⟩ := hr
  have hloss := hall (after calls) (reachable_after calls (by decide +kernel)) s' _ he
  have hgone := hloss.removed (3, 5) (List.mem_singleton_self _)
  rw [hst] at hgone
  cases hgone

end HebbianUpdatingAgent

end OpenCog
