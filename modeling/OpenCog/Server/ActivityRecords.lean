import OpenCog.Server.CogServer

/-! Which records stand in the table of activity along a run of the server: those of live
agents, newest first and no more than the maximum, over atoms of the space. -/
namespace OpenCog.Server

variable {TV : Type}

/-- What a sequence of the table is to be. -/
structure Recorded (s : CogServer TV) (p : Address) (seq : List Activity) : Prop where
  live : ∃ a, s.heap p = some a ∧ ∀ r ∈ seq, r.loggedBy = a.serial
  newest : seq.Pairwise fun r r' => r'.loggedAt < r.loggedAt
  bounded : seq.length ≤ s.systemActivityTable.maxAgentActivityTableSeqSize
  present : ∀ r ∈ seq, ∀ set ∈ r.utilizedHandleSets, ∀ h ∈ set,
    s.atomSpace.atomTable.isStored h = true

structure Inv (s : CogServer TV) : Prop where
  orderly : s.atomSpace.atomTable.Orderly
  recorded : ∀ p seq, s.systemActivityTable.agentActivityTable p = some seq → Recorded s p seq
  past : ∀ p seq, s.systemActivityTable.agentActivityTable p = some seq →
    ∀ r ∈ seq, r.loggedAt < s.logged

theorem mem_forgetAtom (removed : List Handle) {sets : List (Finset Handle)} {set : Finset Handle}
    {h : Handle} (hset : set ∈ removed.foldl forgetAtom sets) (hh : h ∈ set) :
    h ∉ removed ∧ ∃ old ∈ sets, h ∈ old := by
  induction removed generalizing sets with
  | nil => exact ⟨List.not_mem_nil, set, hset, hh⟩
  | cons g removed ih =>
    obtain ⟨hn, old, hold, hmem⟩ := ih hset
    obtain ⟨old', hold', rfl⟩ := List.mem_map.mp hold
    obtain ⟨hne, hmem⟩ := Finset.mem_erase.mp hmem
    refine ⟨fun hc => ?_, old', hold', hmem⟩
    rcases List.mem_cons.mp hc with rfl | hc
    · exact hne rfl
    · exact hn hc

section Steps
variable {cs : ClassServer} {ops : TruthOps TV} {s s' : CogServer TV} {p : Address}

/-- What a call of the space does to the listeners. -/
structure Heard (s s' : CogServer TV) (removed : List Handle) : Prop where
  heap : ∀ p, s'.heap p = (s.heap p).map fun a =>
    { a with utilizedHandleSets := removed.foldl forgetAtom a.utilizedHandleSets }
  table : ∀ p, s'.systemActivityTable.agentActivityTable p =
    (s.systemActivityTable.agentActivityTable p).map fun seq => seq.map fun r =>
      { r with utilizedHandleSets := removed.foldl forgetAtom r.utilizedHandleSets }
  max : s'.systemActivityTable.maxAgentActivityTableSeqSize =
    s.systemActivityTable.maxAgentActivityTableSeqSize
  logged : s'.logged = s.logged
  orderly : s'.atomSpace.atomTable.Orderly
  kept : ∀ h, s.atomSpace.atomTable.isStored h = true → h ∉ removed →
    s'.atomSpace.atomTable.isStored h = true

/-- Sets over atoms of the space are again, once the removed atoms are forgotten. -/
theorem Heard.present {removed : List Handle} (hh : Heard s s' removed)
    {sets : List (Finset Handle)}
    (hsets : ∀ set ∈ sets, ∀ h ∈ set, s.atomSpace.atomTable.isStored h = true) :
    ∀ set ∈ removed.foldl forgetAtom sets, ∀ h ∈ set,
      s'.atomSpace.atomTable.isStored h = true := by
  intro set hset h hmem
  obtain ⟨hn, old, hold, hmem⟩ := mem_forgetAtom removed hset hmem
  exact hh.kept h (hsets old hold h hmem) hn

theorem Heard.inv {removed : List Handle} (hs : Inv s) (hh : Heard s s' removed) : Inv s' := by
  refine ⟨hh.orderly, fun q seq hq => ?_, fun q seq hq r hr => ?_⟩
  · rw [hh.table] at hq
    obtain ⟨old, hold, rfl⟩ := Option.map_eq_some_iff.mp hq
    obtain ⟨⟨a, ha, hserial⟩, hnewest, hbounded, hpresent⟩ := hs.recorded q old hold
    refine ⟨⟨_, by rw [hh.heap, ha, Option.map_some], fun r hr => ?_⟩, ?_, ?_, fun r hr => ?_⟩
    · obtain ⟨r', hr', rfl⟩ := List.mem_map.mp hr
      exact hserial r' hr'
    · exact List.pairwise_map.mpr hnewest
    · rw [List.length_map, hh.max]
      exact hbounded
    · obtain ⟨r', hr', rfl⟩ := List.mem_map.mp hr
      exact hh.present (hpresent r' hr')
  · rw [hh.table] at hq
    obtain ⟨old, hold, rfl⟩ := Option.map_eq_some_iff.mp hq
    obtain ⟨r', hr', rfl⟩ := List.mem_map.mp hr
    rw [hh.logged]
    exact hs.past q old hold r' hr'

/-! ## Single writes -/

/-- A step that changes no record, ends no agent of the table and removes no atom. -/
theorem Inv.of_same (hs : Inv s) (hspace : s'.atomSpace.atomTable = s.atomSpace.atomTable)
    (htable : s'.systemActivityTable = s.systemActivityTable) (hlogged : s'.logged = s.logged)
    (hheap : ∀ q, s.systemActivityTable.agentActivityTable q ≠ none → ∀ a, s.heap q = some a →
      ∃ a', s'.heap q = some a' ∧ a'.serial = a.serial) : Inv s' := by
  refine ⟨by rw [hspace]; exact hs.orderly, fun q seq hq => ?_, fun q seq hq => ?_⟩
  · rw [htable] at hq
    obtain ⟨⟨a, ha, hserial⟩, hnewest, hbounded, hpresent⟩ := hs.recorded q seq hq
    obtain ⟨a', ha', hsame⟩ := hheap q (by rw [hq]; exact Option.some_ne_none seq) a ha
    refine ⟨⟨a', ha', fun r hr => (hserial r hr).trans hsame.symm⟩, hnewest, ?_, ?_⟩
    · rw [htable]
      exact hbounded
    · rw [hspace]
      exact hpresent
  · rw [htable] at hq
    rw [hlogged]
    exact hs.past q seq hq

theorem heap_setAgent (s : CogServer TV) (p : Address) (a : Option Agent) (q : Address) :
    (s.setAgent p a).heap q = if q = p then a else s.heap q := rfl

/-- An agent keeps its serial, or had no records. -/
theorem Inv.setAgent (hs : Inv s) {a : Option Agent}
    (ha : s.systemActivityTable.agentActivityTable p ≠ none → ∀ old, s.heap p = some old →
      ∃ new, a = some new ∧ new.serial = old.serial) : Inv (s.setAgent p a) := by
  refine hs.of_same rfl rfl rfl fun q hq old hold => ?_
  rw [heap_setAgent]
  by_cases e : q = p
  · rw [if_pos e]
    subst e
    exact ha hq old hold
  · exact ⟨old, by rw [if_neg e]; exact hold, rfl⟩

/-- Some sequences are cut off behind, or dropped. -/
theorem Inv.setTable (hs : Inv s) {t : SystemActivityTable}
    (ht : ∀ q seq, t.agentActivityTable q = some seq →
      ∃ old, s.systemActivityTable.agentActivityTable q = some old ∧ seq.Sublist old ∧
        seq.length ≤ t.maxAgentActivityTableSeqSize) : Inv (s.setTable t) := by
  refine ⟨hs.orderly, fun q seq hq => ?_, fun q seq hq r hr => ?_⟩
  · obtain ⟨old, hold, hsub, hlen⟩ := ht q seq hq
    obtain ⟨⟨a, ha, hserial⟩, hnewest, -, hpresent⟩ := hs.recorded q old hold
    exact ⟨⟨a, ha, fun r hr => hserial r (hsub.subset hr)⟩, hnewest.sublist hsub, hlen,
      fun r hr => hpresent r (hsub.subset hr)⟩
  · obtain ⟨old, hold, hsub, -⟩ := ht q seq hq
    exact hs.past q old hold r (hsub.subset hr)

/-- What the agent is to claim in a run: atoms of the space. -/
def ClaimsAtoms (s : CogServer TV) : AgentEvent TV → Prop
  | .call _ => True
  | .utilize set => ∀ h ∈ set, s.atomSpace.atomTable.isStored h = true

/-- The run of an agent that claims atoms of the space. -/
def CarefulRun (cs : ClassServer) (ops : TruthOps TV) (s : CogServer TV) (p : Address)
    (run : AgentRun TV) : Prop :=
  ∀ a, s.heap p = some a → Fold.AllAlong (CogServer.agentEvent cs ops p) ClaimsAtoms run.events
    (s.resetUtilizedHandleSets p a)

/-- A turn of `processAgents`, where the agent runs in it. -/
def CarefulTurn (cs : ClassServer) (ops : TruthOps TV) (s : CogServer TV)
    (x : Address × AgentRun TV) : Prop :=
  ∀ a, s.heap x.1 = some a → s.cycleCount.tmod a.frequency = 0 → CarefulRun cs ops s x.1 x.2

/-- No agent is destroyed alone while the table holds records of it, and agents claim atoms
of the space. -/
def Careful (cs : ClassServer) (ops : TruthOps TV) (s : CogServer TV) : ServerOp TV → Prop
  | .destroyAgent agent => s.systemActivityTable.agentActivityTable agent = none
  | .runAgent agent run => CarefulRun cs ops s agent run
  | .processAgents runs =>
    Fold.AllAlong (CogServer.turn cs ops) (CarefulTurn cs ops) (s.agents.zip runs) s
  | _ => True

inductive Reachable (cs : ClassServer) (ops : TruthOps TV)
    (ok : CogServer TV → ServerOp TV → Prop) (start : CogServer TV) : CogServer TV → Prop
  | start : Reachable cs ops ok start start
  | step {s s' : CogServer TV} (op : ServerOp TV) (r : Reachable cs ops ok start s) (h : ok s op)
      (e : s.apply cs ops op = some s') : Reachable cs ops ok start s'

theorem Inv.agents (hs : Inv s) (agents : List Address) : Inv { s with agents := agents } :=
  hs.of_same rfl rfl rfl fun _ _ a ha => ⟨a, ha, rfl⟩

theorem Inv.factories (hs : Inv s) (factories : String → Option Factory) :
    Inv { s with factories := factories } :=
  hs.of_same rfl rfl rfl fun _ _ a ha => ⟨a, ha, rfl⟩

end Steps

def opened : CogServer Unit := CogServer.opened 100 100

/-- The server after each of some calls, from the last to the first. -/
def after : List (ServerOp Unit) → CogServer Unit
  | [] => opened
  | op :: before => ((after before).apply .script AtomTable.unitOps op).getD (after before)

theorem reachable_after {ok : CogServer Unit → ServerOp Unit → Prop} {op : ServerOp Unit}
    {before : List (ServerOp Unit)}
    (r : Reachable .script AtomTable.unitOps ok opened (after before)) (hok : ok (after before) op)
    (h : ((after before).apply .script AtomTable.unitOps op).isSome = true) :
    Reachable .script AtomTable.unitOps ok opened (after (op :: before)) := by
  obtain ⟨s, hs⟩ := Option.isSome_iff_exists.mp h
  have hafter : after (op :: before) = s := by simp [after, hs]
  rw [hafter]
  exact .step op r hok hs

end OpenCog.Server
