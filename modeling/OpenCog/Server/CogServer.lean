import OpenCog.AtomSpace.Signals

/-! The agents of the server and the table of their activity: agents are made, scheduled, run
and destroyed while the table logs their runs and listens to the atom space. -/
namespace OpenCog.Server

variable {TV : Type}

/-- Where an agent stands in memory. -/
abbrev Address := Nat

/-- The address of no agent. -/
def NULL : Address := 0

structure Agent where
  /-- `classinfo().id`. -/
  id : String
  frequency : Int
  utilizedHandleSets : List (Finset Handle)
  /-- The agents made before this one, for an address may be given out again. -/
  serial : Nat
  deriving DecidableEq

structure Activity where
  cycleCount : Int
  elapsedTime : Int
  memUsed : Nat
  atomsUsed : Nat
  utilizedHandleSets : List (Finset Handle)
  /-- The serial of the agent, and the activities logged before this one. -/
  loggedBy : Nat
  loggedAt : Nat

structure SystemActivityTable where
  agentActivityTable : Address → Option (List Activity)
  maxAgentActivityTableSeqSize : Nat

/-- What the slots of the remove signal reach. -/
structure Listeners where
  /-- The agents that were made and not deleted. -/
  heap : Address → Option Agent
  systemActivityTable : SystemActivityTable

/-! ## The remove signal -/

/-- `if (s->contains(h)) s->remove(h)` on each set. -/
def forgetAtom (sets : List (Finset Handle)) (h : Handle) : List (Finset Handle) :=
  sets.map fun set => set.erase h

def Agent.atomRemoved (a : Agent) (h : Handle) : Agent :=
  { a with utilizedHandleSets := forgetAtom a.utilizedHandleSets h }

def Activity.atomRemoved (a : Activity) (h : Handle) : Activity :=
  { a with utilizedHandleSets := forgetAtom a.utilizedHandleSets h }

def SystemActivityTable.atomRemoved (t : SystemActivityTable) (h : Handle) : SystemActivityTable :=
  { t with agentActivityTable := fun p =>
      (t.agentActivityTable p).map fun seq => seq.map (·.atomRemoved h) }

def Listeners.atomRemoved (l : Listeners) (h : Handle) : Listeners where
  heap p := (l.heap p).map (·.atomRemoved h)
  systemActivityTable := l.systemActivityTable.atomRemoved h

/-! ## The table -/

namespace SystemActivityTable

def trimActivitySeq (seq : List Activity) (max : Nat) : List Activity :=
  if seq.length ≤ max then seq else seq.take max

def setMaxAgentActivityTableSeqSize (t : SystemActivityTable) (n : Nat) : SystemActivityTable where
  agentActivityTable p := (t.agentActivityTable p).map fun seq => trimActivitySeq seq n
  maxAgentActivityTableSeqSize := n

/-- `operator[]` makes an empty sequence for an agent without one. -/
def logActivity (t : SystemActivityTable) (agent : Address) (activity : Activity) :
    SystemActivityTable :=
  let as := activity :: (t.agentActivityTable agent).getD []
  { t with agentActivityTable := fun p =>
      if p = agent then some (trimActivitySeq as t.maxAgentActivityTableSeqSize)
      else t.agentActivityTable p }

def clearActivity (t : SystemActivityTable) (agent : Address) : SystemActivityTable :=
  { t with agentActivityTable := fun p => if p = agent then none else t.agentActivityTable p }

end SystemActivityTable

/-! ## The server -/

/-- The class a factory makes agents of. -/
structure Factory where
  id : String
  frequency : Int

structure CogServer (TV : Type) where
  atomSpace : AtomSpace TV Listeners
  factories : String → Option Factory
  /-- The scheduled agents. -/
  agents : List Address
  cycleCount : Int
  /-- The agents made and the activities logged so far. -/
  created : Nat
  logged : Nat

/-- What the code of an agent does in a run: calls of the atom space, and sets that it adds to
its utilized handle sets. -/
inductive AgentEvent (TV : Type) where
  | call (op : SpaceOp TV)
  | utilize (set : Finset Handle)

/-- One run of an agent, with what the clock and the memory meter show around it. -/
structure AgentRun (TV : Type) where
  events : List (AgentEvent TV)
  timer_start : Int
  timer_end : Int
  mem_start : Nat
  mem_end : Nat

namespace CogServer

def heap (s : CogServer TV) : Address → Option Agent := s.atomSpace.servers.heap

def systemActivityTable (s : CogServer TV) : SystemActivityTable :=
  s.atomSpace.servers.systemActivityTable

def setListeners (s : CogServer TV) (l : Listeners) : CogServer TV :=
  { s with atomSpace := { s.atomSpace with servers := l } }

def setAgent (s : CogServer TV) (p : Address) (a : Option Agent) : CogServer TV :=
  s.setListeners { s.atomSpace.servers with heap := fun q => if q = p then a else s.heap q }

def setTable (s : CogServer TV) (t : SystemActivityTable) : CogServer TV :=
  s.setListeners { s.atomSpace.servers with systemActivityTable := t }

/-! ### Running -/

section Running
variable (cs : ClassServer) (ops : TruthOps TV)

/-- `none` where a call follows a null pointer. -/
def callSpace (s : CogServer TV) (op : SpaceOp TV) : Option (CogServer TV) := do
  let atomSpace ← s.atomSpace.apply cs ops (Slots.onRemoval Listeners.atomRemoved) op
  some { s with atomSpace := atomSpace }

def agentEvent (agent : Address) (s : CogServer TV) : AgentEvent TV → Option (CogServer TV)
  | .call op => s.callSpace cs ops op
  | .utilize set => do
    let a ← s.heap agent
    some (s.setAgent agent (some { a with
      utilizedHandleSets := a.utilizedHandleSets ++ [set] }))

def resetUtilizedHandleSets (s : CogServer TV) (agent : Address) (a : Agent) : CogServer TV :=
  s.setAgent agent (some { a with utilizedHandleSets := [] })

/-- `none` where the agent has been deleted or its code goes wrong. -/
def runAgent (s : CogServer TV) (agent : Address) (run : AgentRun TV) : Option (CogServer TV) := do
  let a ← s.heap agent
  let atoms_start := s.atomSpace.atomTable.size
  let s ← run.events.foldlM (agentEvent cs ops agent) (s.resetUtilizedHandleSets agent a)
  let atoms_end := s.atomSpace.atomTable.size
  let a ← s.heap agent
  let activity : Activity :=
    { cycleCount := s.cycleCount
      elapsedTime := run.timer_end - run.timer_start
      memUsed := if run.mem_start > run.mem_end then 0 else run.mem_end - run.mem_start
      atomsUsed := if atoms_start > atoms_end then 0 else (atoms_end - atoms_start).toNat
      utilizedHandleSets := a.utilizedHandleSets
      loggedBy := a.serial
      loggedAt := s.logged }
  some { s.setTable (s.systemActivityTable.logActivity agent activity) with
    logged := s.logged + 1 }

/-- The turn of an agent in `processAgents`; `none` also for a division by zero. -/
def turn (s : CogServer TV) (x : Address × AgentRun TV) : Option (CogServer TV) := do
  let a ← s.heap x.1
  if a.frequency = 0 then none
  else if s.cycleCount.tmod a.frequency = 0 then s.runAgent cs ops x.1 x.2
  else some s

/-- One run for each scheduled agent; those of agents whose turn it is not are not used. -/
def processAgents (s : CogServer TV) (runs : List (AgentRun TV)) : Option (CogServer TV) :=
  if runs.length = s.agents.length then (s.agents.zip runs).foldlM (turn cs ops) s else none

end Running

/-! ### Making and destroying -/

/-- A second factory of one id is not taken. -/
def registerAgent (s : CogServer TV) (id : String) (factory : Factory) : CogServer TV :=
  { s with factories := Index.mapInsert s.factories id factory }

def startAgent (s : CogServer TV) (agent : Address) : CogServer TV :=
  { s with agents := s.agents ++ [agent] }

def stopAgent (s : CogServer TV) (agent : Address) : CogServer TV :=
  { s with agents := s.agents.erase agent }

/-- `address` is what the allocator returns: any address but that of a live agent. -/
def createAgent (s : CogServer TV) (id : String) (start : Bool) (address : Address) :
    Option (CogServer TV) :=
  match s.factories id with
  | none => some (if start then s.startAgent NULL else s)
  | some factory =>
    if address = NULL ∨ (s.heap address).isSome then none
    else
      let a : Agent := ⟨factory.id, factory.frequency, [], s.created⟩
      let s := { s.setAgent address (some a) with created := s.created + 1 }
      some (if start then s.startAgent address else s)

/-- `delete agent`; an agent is deleted once. -/
def deleteAgent (s : CogServer TV) (agent : Address) : Option (CogServer TV) :=
  if agent = NULL then some s
  else if (s.heap agent).isSome then some (s.setAgent agent none)
  else none

def destroyAgent (s : CogServer TV) (agent : Address) : Option (CogServer TV) :=
  (s.stopAgent agent).deleteAgent agent

def isOfClass (s : CogServer TV) (id : String) (agent : Address) : Bool :=
  ((s.heap agent).map fun a => a.id == id).getD false

/-- `kept` and `to_delete` are the halves `std::partition` leaves, each in whatever order;
it reads the class of every scheduled agent. -/
def destroyAllAgents (s : CogServer TV) (id : String) (kept to_delete : List Address) :
    Option (CogServer TV) :=
  if (s.agents.all fun p => (s.heap p).isSome) ∧
      kept.isPerm (s.agents.filter (!s.isOfClass id ·)) ∧
      to_delete.isPerm (s.agents.filter (s.isOfClass id ·)) then
    let table := to_delete.foldl SystemActivityTable.clearActivity s.systemActivityTable
    to_delete.foldlM deleteAgent ({ s with agents := kept }.setTable table)
  else none

def unregisterAgent (s : CogServer TV) (id : String) (kept to_delete : List Address) :
    Option (CogServer TV) := do
  let s ← s.destroyAllAgents id kept to_delete
  some { s with factories := Index.mapErase s.factories id }

def setMaxAgentActivityTableSeqSize (s : CogServer TV) (n : Nat) : CogServer TV :=
  s.setTable (s.systemActivityTable.setMaxAgentActivityTableSeqSize n)

/-- The end of `runLoopStep`. -/
def nextCycle (s : CogServer TV) : CogServer TV := { s with cycleCount := s.cycleCount + 1 }

/-- As the constructors leave the server. -/
def opened (fundsSTI fundsLTI : Int) : CogServer TV where
  atomSpace := AtomSpace.opened ⟨fun _ => none, ⟨fun _ => none, 100⟩⟩ fundsSTI fundsLTI
  factories _ := none
  agents := []
  cycleCount := 1
  created := 0
  logged := 0

end CogServer

/-! ## Runs of the server -/

inductive ServerOp (TV : Type) where
  | registerAgent (id : String) (factory : Factory)
  | unregisterAgent (id : String) (kept to_delete : List Address)
  | createAgent (id : String) (start : Bool) (address : Address)
  | startAgent (agent : Address)
  | stopAgent (agent : Address)
  | destroyAgent (agent : Address)
  | destroyAllAgents (id : String) (kept to_delete : List Address)
  | runAgent (agent : Address) (run : AgentRun TV)
  | processAgents (runs : List (AgentRun TV))
  | setMaxAgentActivityTableSeqSize (n : Nat)
  | callSpace (op : SpaceOp TV)
  | nextCycle

def CogServer.apply (cs : ClassServer) (ops : TruthOps TV) (s : CogServer TV) :
    ServerOp TV → Option (CogServer TV)
  | .registerAgent id factory => some (s.registerAgent id factory)
  | .unregisterAgent id kept to_delete => s.unregisterAgent id kept to_delete
  | .createAgent id start address => s.createAgent id start address
  | .startAgent agent => some (s.startAgent agent)
  | .stopAgent agent => some (s.stopAgent agent)
  | .destroyAgent agent => s.destroyAgent agent
  | .destroyAllAgents id kept to_delete => s.destroyAllAgents id kept to_delete
  | .runAgent agent run => s.runAgent cs ops agent run
  | .processAgents runs => s.processAgents cs ops runs
  | .setMaxAgentActivityTableSeqSize n => some (s.setMaxAgentActivityTableSeqSize n)
  | .callSpace op => s.callSpace cs ops op
  | .nextCycle => some s.nextCycle

end OpenCog.Server
