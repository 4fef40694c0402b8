import OpenCog.AtomSpace.ClassServer
import OpenCog.Lib.BinarySearch
import OpenCog.Time.Temporal

/-! The temporal table: each pair of a handle and a time is kept in the list of
the handle and in the set of the time, the times are kept sorted, and a lazily
rebuilt array of pointers into the sorted list serves binary search. List cells
have an address; the allocator never gives out an address again, and a freed
cell keeps its contents. An `Option` result is `none` where the code throws, or
follows a null or freed pointer into the sorted list or its array. -/
namespace OpenCog

/-- `TemporalEntry`: a cell of a linked list. -/
structure Cell where
  addr : Nat
  time : Temporal
  deriving DecidableEq

/-- `Handle::UNDEFINED`. -/
def UNDEFINED : Handle := 18446744073709551615

structure TemporalTable where
  handleMap : Handle → List Cell
  tailHandleMap : Handle → Option Cell
  /-- Keys are told apart by `compareTo`. -/
  temporalMap : List (Temporal × List Handle)
  sortedTemporalList : List Cell
  /-- The first `indexTableCount` slots. -/
  temporalIndexTable : List Cell
  indexTableSize : Nat
  pendingUpdateCount : Nat
  nextAddr : Nat

namespace TemporalEntry

/-- `TemporalEntry::add` with the cell it would allocate. -/
def add (new : Cell) : List Cell → List Cell
  | [] => [new]
  | c :: cs =>
    if c.time.compareTo new.time = 0 then c :: cs
    else if 0 < c.time.compareTo new.time then new :: c :: cs
    else c :: add new cs

/-- `TemporalEntry::add` started at a cell inside a list, its result thrown away:
a cell that belongs before the start is not linked. `none` if the start is not
a cell of the list. -/
def addFrom (start new : Cell) : List Cell → Option (List Cell)
  | [] => none
  | c :: cs =>
    if c = start then
      if 0 < c.time.compareTo new.time then some (c :: cs) else some (add new (c :: cs))
    else (addFrom start new cs).map (c :: ·)

def remove (t : Temporal) (cs : List Cell) : List Cell := cs.filter fun c => c.time ≠ t

end TemporalEntry

namespace TemporalTable

def empty : TemporalTable where
  handleMap _ := []
  tailHandleMap _ := none
  temporalMap := []
  sortedTemporalList := []
  temporalIndexTable := []
  indexTableSize := 1
  pendingUpdateCount := 0
  nextAddr := 0

def PENDING_UPDATE_RATE_THRESHOLD : Nat := 8

def getCount (s : TemporalTable) : Nat := s.temporalMap.length

def lookup (s : TemporalTable) (t : Temporal) : Option (Temporal × List Handle) :=
  s.temporalMap.find? fun e => decide (e.1.compareTo t = 0)

def eraseKey (t : Temporal) (m : List (Temporal × List Handle)) : List (Temporal × List Handle) :=
  m.filter fun e => decide (e.1.compareTo t ≠ 0)

/-! ## The index table -/

def indexTableCount (s : TemporalTable) : Nat := s.temporalIndexTable.length

/-- The cell a slot points to, if the slot is in use and the cell is alive. -/
def slot (s : TemporalTable) (pos : Int) : Option Cell :=
  if 0 ≤ pos then (s.temporalIndexTable[pos.toNat]?).filter (· ∈ s.sortedTemporalList) else none

def getTemporalIndexTablePos (s : TemporalTable) (t : Temporal) : Option Int :=
  BinarySearch.loop (fun pos => (s.slot pos).map (·.time.compareTo t)) (s.indexTableCount + 1)
    0 (s.indexTableCount - 1)

/-- Whether `pos` points to a cell of time `t`. -/
def slotHas (s : TemporalTable) (pos : Int) (t : Temporal) : Option Bool :=
  if pos < 0 then some false else (s.slot pos).map fun c => decide (c.time.compareTo t = 0)

def getPreviousTemporalEntry (s : TemporalTable) (t : Temporal) : Option (Option Cell) := do
  let pos ← s.getTemporalIndexTablePos t
  let found ← s.slotHas pos t
  let pos := if found then pos - 1 else pos
  if pos < 0 then some none else (s.slot pos).map some

def updateIndexTable (s : TemporalTable) (numEntries : Nat) : TemporalTable :=
  { s with
    indexTableSize := if s.indexTableSize < numEntries ∨ numEntries < s.indexTableSize / 4
      then numEntries * 2 else s.indexTableSize
    temporalIndexTable := s.sortedTemporalList.take numEntries
    pendingUpdateCount := 0 }

/-- One more pending update; too many of them for the entries there are, and the
table is rebuilt. -/
def countPending (s : TemporalTable) : TemporalTable :=
  let s := { s with pendingUpdateCount := s.pendingUpdateCount + 1 }
  if s.getCount / s.pendingUpdateCount < PENDING_UPDATE_RATE_THRESHOLD then
    s.updateIndexTable s.getCount
  else s

/-! ## Adding -/

/-- The list and tail of one handle after `t` is added: through the tail when `t`
lies after it. A tail that is no cell of the list takes the new cell with it. -/
def addToList (cells : List Cell) (tail : Option Cell) (new : Cell) : List Cell × Option Cell :=
  match tail with
  | some c =>
    if 0 < new.time.compareTo c.time then
      match TemporalEntry.addFrom c new cells with
      | some cells => (cells, cells.getLast?)
      | none => (cells, some new)
    else (TemporalEntry.add new cells, some c)
  | none =>
    let cells := TemporalEntry.add new cells
    (cells, cells.getLast?)

def addToMaps (s : TemporalTable) (h : Handle) (t : Temporal) : TemporalTable :=
  let list := addToList (s.handleMap h) (s.tailHandleMap h) ⟨s.nextAddr, t⟩
  let handleSet := ((s.lookup t).map Prod.snd).getD []
  { s with
    nextAddr := s.nextAddr + 1
    handleMap := Function.update s.handleMap h list.1
    tailHandleMap := Function.update s.tailHandleMap h list.2
    temporalMap := (t, handleSet.insert h) :: eraseKey t s.temporalMap }

/-- The insertion into the sorted list, and the cell a new index entry is
searched from. -/
def addSorted (s : TemporalTable) (t : Temporal) : Option (TemporalTable × Option Cell) :=
  let new : Cell := ⟨s.nextAddr, t⟩
  if 0 < s.indexTableCount then do
    match ← s.getPreviousTemporalEntry t with
    | none =>
      let cells := TemporalEntry.add new s.sortedTemporalList
      some ({ s with sortedTemporalList := cells, nextAddr := s.nextAddr + 1 }, cells.head?)
    | some previous =>
      let cells ← TemporalEntry.addFrom previous new s.sortedTemporalList
      some ({ s with sortedTemporalList := cells, nextAddr := s.nextAddr + 1 }, some previous)
  else
    let cells := TemporalEntry.add new s.sortedTemporalList
    some ({ s with sortedTemporalList := cells, nextAddr := s.nextAddr + 1 }, none)

/-- Whether a new time goes into the next free slot of the index table. -/
def fitsLast (s : TemporalTable) (previous : Option Cell) (t : Temporal) : Option Bool :=
  if previous.isSome ∧ 0 < s.indexTableCount ∧ s.indexTableCount < s.indexTableSize then
    (s.slot (s.indexTableCount - 1)).map fun c => decide (0 < t.compareTo c.time)
  else some false

/-- The cell of time `t` at or after `previous`. -/
def findFrom (s : TemporalTable) (previous : Option Cell) (t : Temporal) : Option Cell := do
  let start ← previous
  (s.sortedTemporalList.dropWhile (· ≠ start)).find? fun c => decide (c.time.compareTo t = 0)

/-- `TemporalTable::add`; with `UNDEFINED_TEMPORAL` the copy of the time throws
before anything is written. -/
def add (s : TemporalTable) (h : Handle) (t : Option Temporal) : Option TemporalTable :=
  match t with
  | none => some s
  | some t => do
    let t := ((s.lookup t).map Prod.fst).getD t
    let (s', previous) ← s.addSorted t
    let s' := s'.addToMaps h t
    if s'.getCount = s.getCount then some s'
    else if ← s'.fitsLast previous t then do
      let newEntry ← s'.findFrom previous t
      some { s' with temporalIndexTable := s'.temporalIndexTable ++ [newEntry] }
    else some s'.countPending

/-! ## Removing a time from the sorted list -/

/-- Replaces the cells at the front of a list that have the time of `old`. -/
def replaceRun (old new : Cell) : List Cell → List Cell × Nat
  | [] => ([], 0)
  | c :: cs =>
    if old.time.compareTo c.time = 0 then
      let (ds, k) := replaceRun old new cs
      (new :: ds, k + 1)
    else (c :: cs, 0)

/-- The table with every copy of the cell at `pos` replaced, and the position
before the first of them. -/
def replaceIndexTablePosition (table : List Cell) (pos : Nat) (old new : Cell) : List Cell × Int :=
  let before := replaceRun old new (table.take pos).reverse
  let after := replaceRun old new (table.drop (pos + 1))
  (before.1.reverse ++ new :: after.1, (pos : Int) - 1 - before.2)

/-- Takes the index entries of time `t` out of the table, and returns the
position the search in the list starts after. -/
def releaseIndex (s : TemporalTable) (t : Temporal) : Option (TemporalTable × Int) := do
  let pos ← s.getTemporalIndexTablePos t
  if ← s.slotHas pos t then
    let entry ← s.slot pos
    match (s.sortedTemporalList.dropWhile (· ≠ entry)).tail.head? with
    | some next =>
      let (table, pos) := replaceIndexTablePosition s.temporalIndexTable pos.toNat entry next
      some ({ s with temporalIndexTable := table }, pos)
    | none =>
      let kept := ((s.temporalIndexTable.take pos.toNat).reverse.dropWhile (· = entry)).reverse
      some ({ s with temporalIndexTable := kept }, kept.length - 1)
  else some (s, pos)

/-- The search from one cell on for the cell of time `t`; the cell and the list
without it. -/
def unlink (t : Temporal) : List Cell → Option (Cell × List Cell)
  | [] => none
  | c :: cs =>
    if c.time.compareTo t = 0 then some (c, cs)
    else if 0 < c.time.compareTo t then none
    else (unlink t cs).map fun r => (r.1, c :: r.2)

/-- The search from the cell after `previous`. -/
def unlinkAfter (previous : Cell) (t : Temporal) : List Cell → Option (Option (Cell × List Cell))
  | [] => none
  | c :: cs =>
    if c = previous then some ((unlink t cs).map fun r => (r.1, c :: r.2))
    else (unlinkAfter previous t cs).map (·.map fun r => (r.1, c :: r.2))

def unlinkAt (s : TemporalTable) (pos : Int) (t : Temporal) : Option (Option (Cell × List Cell)) :=
  if pos < 0 then some (unlink t s.sortedTemporalList)
  else do
    let previous ← s.slot pos
    unlinkAfter previous t s.sortedTemporalList

def removeFromSortedEntries (s : TemporalTable) (t : Temporal) : Option TemporalTable := do
  let (s, pos) ← s.releaseIndex t
  match ← s.unlinkAt pos t with
  | none => some s
  | some (cell, cells) =>
    let s := { s with sortedTemporalList := cells }
    if s.temporalIndexTable.getLast? = some cell then
      some { s with temporalIndexTable := s.temporalIndexTable.dropLast }
    else some s.countPending

/-! ## Removing -/

/-- `HandleSet::remove`, which throws on a missing handle; an empty set leaves
the map and its time the sorted list. -/
def removePair (s : TemporalTable) (h : Handle) (t : Temporal) : Option TemporalTable := do
  let (_, handles) ← s.lookup t
  if h ∈ handles then
    let handles := handles.erase h
    if handles = [] then
      removeFromSortedEntries { s with temporalMap := eraseKey t s.temporalMap } t
    else
      some { s with temporalMap := s.temporalMap.map fun e =>
        if e.1.compareTo t = 0 then (e.1, handles) else e }
  else none

/-- The locals of `remove`: the table, the list so far, the last match of a
`PREVIOUS` criterion and the flag to return. -/
structure Removal where
  table : TemporalTable
  te : List Cell
  previousTe : Option Cell
  result : Bool

/-- One match that is removed at once; the tail is compared as it was at the
start. -/
def Removal.take (r : Removal) (h : Handle) (tail : Option Cell) (c : Cell) : Option Removal := do
  let s ← r.table.removePair h c.time
  let s := if tail = some c then
      { s with tailHandleMap := Function.update s.tailHandleMap h none } else s
  some { r with table := s, te := TemporalEntry.remove c.time r.te, result := true }

def matchesEntry (t : Option Temporal) (criterion : TemporalRelationship) (c : Cell) : Bool × Bool :=
  match t with
  | none => (true, false)
  | some t => matchesTimeCriterion c.time t criterion

/-- What the loop does with one cell: a match of a `PREVIOUS` criterion takes the
place of the match before it. -/
def Removal.visit (r : Removal) (h : Handle) (t : Option Temporal)
    (criterion : TemporalRelationship) (tail : Option Cell) (c : Cell) : Option Removal :=
  if (matchesEntry t criterion c).1 then
    if t.isSome ∧ criterion.isPrevious then some { r with previousTe := some c, result := true }
    else r.take h tail c
  else some r

/-- The loop of `remove` over the list of one handle. -/
def removeLoop (h : Handle) (t : Option Temporal) (criterion : TemporalRelationship)
    (tail : Option Cell) : List Cell → Removal → Option Removal
  | [], r => some r
  | c :: cs, r => do
    let r ← r.visit h t criterion tail c
    if (matchesEntry t criterion c).2 then some r else removeLoop h t criterion tail cs r

def removeHandle (s : TemporalTable) (h : Handle) (t : Option Temporal)
    (criterion : TemporalRelationship) : Option (TemporalTable × Bool) := do
  let r ← removeLoop h t criterion (s.tailHandleMap h) (s.handleMap h) ⟨s, s.handleMap h, none, false⟩
  let (s, te) ← match r.previousTe with
    | none => some (r.table, r.te)
    | some c => do
      let s ← r.table.removePair h c.time
      some (s, TemporalEntry.remove c.time r.te)
  some ({ s with handleMap := Function.update s.handleMap h te }, r.result)

/-- One handle of a time that is removed for all of them: the tail goes if it is
the head of the list. -/
def dropTime (t : Temporal) (s : TemporalTable) (h : Handle) : TemporalTable :=
  let te := s.handleMap h
  { s with
    handleMap := Function.update s.handleMap h (TemporalEntry.remove t te)
    tailHandleMap :=
      if (s.tailHandleMap h).isSome ∧ s.tailHandleMap h = te.head? then
        Function.update s.tailHandleMap h none
      else s.tailHandleMap }

/-- `remove(t, EXACT)`. -/
def removeExact (s : TemporalTable) (t : Temporal) : Option TemporalTable :=
  match s.lookup t with
  | none => some s
  | some (key, handles) =>
    let s := { s with temporalMap := eraseKey t s.temporalMap }
    (handles.foldl (dropTime key) s).removeFromSortedEntries t

/-- The sorted list from a cell on. -/
def cellsFrom (s : TemporalTable) : Option Cell → List Cell
  | none => s.sortedTemporalList
  | some c => s.sortedTemporalList.dropWhile (· ≠ c)

/-- The cells an `OVERLAPS` removal looks at: those before the first one, at or
after the start of the search, that begins after `t` ends. -/
def beforeLimit (s : TemporalTable) (t : Temporal) : Option (List Cell) := do
  let start ← s.getPreviousTemporalEntry t
  let after := (s.cellsFrom start).dropWhile fun c => decide (c.time.getLowerBound ≤ t.getUpperBound)
  some (s.sortedTemporalList.take (s.sortedTemporalList.length - after.length))

/-- The default branch picks times along the sorted list. -/
def pickLoop (t : Temporal) (criterion : TemporalRelationship) :
    List Cell → Option Temporal → List Temporal × Option Temporal
  | [], previous => ([], previous)
  | c :: cs, previous =>
    let (found, finished) := matchesTimeCriterion c.time t criterion
    let previous := if found && criterion.isPrevious then some c.time else previous
    let rest := if finished then ([], previous) else pickLoop t criterion cs previous
    (if found && !criterion.isPrevious then c.time :: rest.1 else rest.1, rest.2)

/-- The times a removal without a handle takes out, in order. The loops read a
cell and its successor before they remove the time of the cell. -/
def timesToRemove (s : TemporalTable) (t : Option Temporal) (criterion : TemporalRelationship) :
    Option (List Temporal) :=
  match t with
  | none => some (s.sortedTemporalList.map Cell.time)
  | some t =>
    match criterion with
    | .EXACT => some ((s.lookup t).map Prod.fst).toList
    | .OVERLAPS =>
      if s.sortedTemporalList = [] then some []
      else do
        let cells ← s.beforeLimit t
        some ((cells.filter fun c => decide (t.getLowerBound ≤ c.time.getUpperBound)).map Cell.time)
    | criterion =>
      let picked := pickLoop t criterion s.sortedTemporalList none
      some (picked.1 ++ picked.2.toList)

def removeTime (s : TemporalTable) (t : Option Temporal) (criterion : TemporalRelationship) :
    Option (TemporalTable × Bool) := do
  let times ← s.timesToRemove t criterion
  let s ← times.foldlM removeExact s
  some (s, !times.isEmpty)

def remove (s : TemporalTable) (h : Handle) (t : Option Temporal)
    (criterion : TemporalRelationship) : Option (TemporalTable × Bool) :=
  if h = UNDEFINED then s.removeTime t criterion else s.removeHandle h t criterion

/-! ## Reading all pairs -/

/-- `get(h, UNDEFINED_TEMPORAL)` of a defined handle. -/
def getOfHandle (s : TemporalTable) (h : Handle) : List (Handle × Temporal) :=
  (s.handleMap h).map fun c => (h, c.time)

/-- `get(UNDEFINED, UNDEFINED_TEMPORAL)`; a time without a set is a null pointer. -/
def getAll (s : TemporalTable) : Option (List (Handle × Temporal)) :=
  s.sortedTemporalList.foldrM (fun c rest => do
    let (_, handles) ← s.lookup c.time
    some (handles.map (·, c.time) ++ rest)) []

end TemporalTable

end OpenCog
