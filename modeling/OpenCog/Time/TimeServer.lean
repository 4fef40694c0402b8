import OpenCog.AtomSpace.AtomSpace
import OpenCog.Time.TemporalTable
import OpenCog.Lib.Lines

/-! The time server of an atom space. AtTimeLinks are atoms, and the pairs of their timed
atoms and times are entries of a temporal table that the slots of the space keep. The
space server and the latest timestamp are left out. -/
namespace OpenCog

variable {TV : Type}

/-! ## Times as names of nodes -/

namespace Temporal

def getTimeNodeName (t : Temporal) : List Char :=
  if t.normal then Nat.toDigits 10 t.a ++ ':' :: (Nat.toDigits 10 t.b ++ [':', '1'])
  else if t.a = t.b then Nat.toDigits 10 t.a
  else Nat.toDigits 10 t.a ++ ':' :: Nat.toDigits 10 t.b

/-- The text behind the next colon. -/
def nextToken (text : List Char) : Option (List Char) :=
  match text.dropWhile (· ≠ ':') with
  | [] => none
  | _ :: rest => some rest

/-- `none` where the constructor throws. The last part goes through `atoi`, an int. -/
def getFromTimeNodeName (timeNodeName : List Char) : Option Temporal :=
  let a := Lines.strtoul timeNodeName
  match nextToken timeNodeName with
  | none => init a a false
  | some rest =>
    let b := Lines.strtoul rest
    match nextToken rest with
    | none => init a b false
    | some rest => init a b (decide (Lines.strtol rest % 2 ^ 32 ≠ 0))

end Temporal

/-! ## Reading pairs -/

namespace TemporalTable

/-- The handles of one time; a time without a set is a null pointer. -/
def pairsOf (s : TemporalTable) (t : Temporal) : Option (List (Handle × Temporal)) :=
  (s.lookup t).map fun e => e.2.map (·, t)

def pairsOfTimes (s : TemporalTable) (times : List Temporal) :
    Option (List (Handle × Temporal)) :=
  (times.mapM s.pairsOf).map List.flatten

/-- The internal object for `t`, looked for in the list of the first handle. -/
def internalTime (s : TemporalTable) (t : Temporal) (h : Handle) : Option Temporal :=
  ((s.handleMap h).find? fun c => decide (t.compareTo c.time = 0)).map Cell.time

/-- `get(t, criterion)`. -/
def getTime (s : TemporalTable) (t : Option Temporal) (criterion : TemporalRelationship) :
    Option (List (Handle × Temporal)) :=
  match t with
  | none => s.getAll
  | some t =>
    match criterion with
    | .EXACT =>
      match s.lookup t with
      | none => some []
      | some (_, []) => some []
      | some (_, h :: handles) => do
        let time ← s.internalTime t h
        some ((h :: handles).reverse.map (·, time))
    | .OVERLAPS =>
      if s.sortedTemporalList = [] then some []
      else do
        let cells ← s.beforeLimit t
        s.pairsOfTimes
          ((cells.filter fun c => decide (t.getLowerBound ≤ c.time.getUpperBound)).map Cell.time)
    | criterion =>
      let picked := pickLoop t criterion s.sortedTemporalList none
      s.pairsOfTimes (picked.1 ++ picked.2.toList)

def get (s : TemporalTable) (h : Handle) (t : Option Temporal) (criterion : TemporalRelationship) :
    Option (List (Handle × Temporal)) :=
  if h = UNDEFINED then s.getTime t criterion
  else
    match t with
    | none => some (s.getOfHandle h)
    | some t =>
      let picked := pickLoop t criterion (s.handleMap h) none
      some ((picked.1 ++ picked.2.toList).map (h, ·))

/-- Whether the object of a time is alive: it goes with the last handle of the time. -/
def hasTime (s : TemporalTable) (t : Temporal) : Bool := s.temporalMap.any fun e => decide (e.1 = t)

end TemporalTable

/-! ## The slots -/

def AT_TIME_LINK : TypeCode := 105
def TIME_NODE : TypeCode := 106

namespace TimeServer

/-- The name of a node, and nothing for a link. -/
def getName (a : Atom TV) : String :=
  match a.body with
  | .node name => name
  | .link _ => ""

def timeOf (timeNode : Atom TV) : Option Temporal :=
  Temporal.getFromTimeNodeName (cStr (getName timeNode)).toList

/-- `none` where something throws. An AtTimeLink of another shape only leaves a warning. -/
def atomAdded (table : AtomTable TV) (timeServer : TemporalTable) (h : Handle) :
    Option TemporalTable := do
  let a ← table.handleMap h
  if a.type = AT_TIME_LINK ∧ a.body.arity = 2 then
    let timeNode ← a.outgoing[0]? >>= table.handleMap
    if timeNode.type = TIME_NODE then
      let t ← timeOf timeNode
      let timed ← a.outgoing[1]?
      timeServer.add timed (some t)
    else some timeServer
  else some timeServer

def atomRemoved (table : AtomTable TV) (timeServer : TemporalTable) (h : Handle) :
    Option TemporalTable := do
  let a ← table.handleMap h
  if a.type = AT_TIME_LINK then
    if a.body.arity = 2 then
      let timeNode ← a.outgoing[0]? >>= table.handleMap
      if timeNode.type = TIME_NODE then
        let timedAtom ← a.outgoing[1]?
        let t ← timeOf timeNode
        (timeServer.remove timedAtom (some t) .EXACT).map Prod.fst
      else none
    else none
  else some timeServer

def slots : Slots TV TemporalTable where
  atomAdded table timeServer h :=
    match atomAdded table timeServer h with
    | some timeServer => (timeServer, true)
    | none => (timeServer, false)
  atomRemoved table timeServer h :=
    match atomRemoved table timeServer h with
    | some timeServer => (timeServer, true)
    | none => (timeServer, false)

end TimeServer

/-! ## Time information of atoms -/

namespace AtomSpace

section TimeInfo
variable (cs : ClassServer) (ops : TruthOps TV) (NULL_TV : TV)

/-- The private overload. -/
def addTimeInfoNamed (s : AtomSpace TV TemporalTable) (h : Handle) (timeNodeName : List Char)
    (tv : TV) : AtomSpace TV TemporalTable × Option Handle :=
  match s.addNode cs ops TimeServer.slots TIME_NODE (String.ofList timeNodeName) NULL_TV with
  | (s, none) => (s, none)
  | (s, some timeNode) => s.addLink cs ops TimeServer.slots AT_TIME_LINK [timeNode, h] tv

/-- The asserted handle is valid. -/
def addTimeInfo (s : AtomSpace TV TemporalTable) (h : Handle) (t : Temporal) (tv : TV) :
    AtomSpace TV TemporalTable × Option Handle :=
  if s.atomTable.isValidHandle h then s.addTimeInfoNamed cs ops NULL_TV h t.getTimeNodeName tv
  else (s, none)

def addTimeInfoTimestamp (s : AtomSpace TV TemporalTable) (h : Handle) (timestamp : Nat) (tv : TV) :
    AtomSpace TV TemporalTable × Option Handle :=
  if s.atomTable.isValidHandle h then
    s.addTimeInfoNamed cs ops NULL_TV h (Nat.toDigits 10 timestamp) tv
  else (s, none)

end TimeInfo

/-- `none` where the code reads a time that was freed, or, with a timed atom that is no
more, a set behind the end of a vector. -/
def getAtTimeLink (s : AtomSpace TV TemporalTable) (pair : Handle × Temporal) :
    Option (Option Handle) :=
  if s.servers.hasTime pair.2 then
    match (s.atomTable.getHandleByName (String.ofList pair.2.getTimeNodeName) TIME_NODE).filter
        s.atomTable.isValidHandle with
    | none => some none
    | some timeNode =>
      if s.atomTable.isValidHandle pair.1 then
        some ((s.atomTable.atomSet.find? fun g => ((s.atomTable.handleMap g).map fun b =>
          b.type == AT_TIME_LINK && b.body.sameAs (.link [timeNode, pair.1])).getD false).filter
            s.atomTable.isValidHandle)
      else none
  else none

/-- One turn of the loop; the result is absent where a call throws. -/
def removeEntry (removeDisconnectedTimeNodes recursive : Bool) (s : AtomSpace TV TemporalTable)
    (pair : Handle × Temporal) : Option (AtomSpace TV TemporalTable × Option Bool) := do
  match ← s.getAtTimeLink pair with
  | none => some (s, some false)
  | some atTimeLink =>
    let a ← s.atomTable.handleMap atTimeLink
    let timeNode ← a.outgoing[0]?
    if a.body.arity = 2 ∧ s.atomTable.isValidHandle timeNode ∧
        s.atomTable.typeOf timeNode = some TIME_NODE then
      let (s, removed) ← s.removeAtom TimeServer.slots atTimeLink recursive
      if removed = some true ∧ removeDisconnectedTimeNodes ∧ s.atomTable.incoming timeNode = [] then
        let (s, removedNode) ← s.removeAtom TimeServer.slots timeNode false
        some (s, removedNode.bind fun _ => some true)
      else some (s, removed)
    else some (s, none)

/-- The pairs one by one; the flag says whether each was removed. -/
def removeEntries (removeDisconnectedTimeNodes recursive : Bool) :
    List (Handle × Temporal) → Bool → AtomSpace TV TemporalTable →
      Option (AtomSpace TV TemporalTable × Option Bool)
  | [], result, s => some (s, some result)
  | pair :: pairs, result, s => do
    let (s, removed) ← s.removeEntry removeDisconnectedTimeNodes recursive pair
    match removed with
    | some removed => removeEntries removeDisconnectedTimeNodes recursive pairs (result && removed) s
    | none => some (s, none)

def removeTimeInfo (s : AtomSpace TV TemporalTable) (h : Handle) (t : Option Temporal)
    (criterion : TemporalRelationship) (removeDisconnectedTimeNodes recursive : Bool) :
    Option (AtomSpace TV TemporalTable × Option Bool) := do
  let existingEntries ← s.servers.get h t criterion
  removeEntries removeDisconnectedTimeNodes recursive existingEntries (!existingEntries.isEmpty) s

end AtomSpace

end OpenCog
