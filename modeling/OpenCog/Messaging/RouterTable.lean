import OpenCog.Lib.Lines
import OpenCog.Messaging.Availability

/-! The table of network elements as a file: `persistState` writes a line for each element,
`recoveryFromPersistedData` reads lines of at most 255 characters and words from each. -/
namespace OpenCog.Messaging.RouterTable

open Lines (isSpace printInt readSigned afterSign)

/-- What is written and read as one word. -/
def IsWord (t : Text) : Prop := t ≠ [] ∧ ∀ c ∈ t, isSpace c = false

/-- The two maps of the router, which know the same elements. -/
structure ElementTable where
  ipAddress : Std.ExtTreeMap Text Text
  portNumber : Std.ExtTreeMap Text Int
  sameIds : ∀ id : Text, id ∈ portNumber ↔ id ∈ ipAddress
  ids : ∀ id : Text, id ∈ ipAddress → IsWord id
  ips : ∀ (id ip : Text), ipAddress[id]? = some ip → IsWord ip
  ports : ∀ (id : Text) port, portNumber[id]? = some port → -2 ^ 31 ≤ port ∧ port < 2 ^ 31

namespace ElementTable

variable (t : ElementTable)

def getPortNumber (id : Text) : Int := t.portNumber[id]?.getD 0

def line (id ip : Text) : Text := id ++ ' ' :: (ip ++ ' ' :: printInt (t.getPortNumber id))

/-- The file it writes. -/
def persistState : Text := t.ipAddress.toList.flatMap fun p => t.line p.1 p.2 ++ ['\n']

end ElementTable

structure Ifstream where
  rest : Text
  eof : Bool
  fail : Bool

/-- `fin.getline(line, size)`: a line that does not fit makes the stream fail, and a stream that
failed reads nothing. -/
def Ifstream.getline (size : Nat) (fin : Ifstream) : Text × Ifstream :=
  if fin.eof || fin.fail then ([], { fin with fail := true })
  else
    let line := fin.rest.takeWhile (· ≠ '\n')
    if size ≤ line.length then
      (fin.rest.take (size - 1), { fin with rest := fin.rest.drop (size - 1), fail := true })
    else
      match fin.rest.dropWhile (· ≠ '\n') with
      | [] => (line, ⟨[], true, line.isEmpty⟩)
      | _ :: rest => (line, { fin with rest })

/-- A buffer as a string ends at its first null character. -/
def cString (line : Text) : Text := line.takeWhile (· ≠ '\x00')

/-- `in >> word`, with what is left. -/
def extractWord (text : Text) : Option (Text × Text) :=
  let text := text.dropWhile isSpace
  if text = [] then none
  else some (text.takeWhile fun c => !isSpace c, text.dropWhile fun c => !isSpace c)

/-- `in >> port`. -/
def extractInt (text : Text) : Option Int :=
  let n : Int := if (readSigned text).1 then -((readSigned text).2 : Int) else (readSigned text).2
  if (afterSign text).takeWhile Char.isDigit = [] ∨ n < -2 ^ 31 ∨ 2 ^ 31 ≤ n then none else some n

/-- The state of `recoveryFromPersistedData`: the members it writes, and its variables, which
keep their values where nothing is read into them. -/
structure Recovery where
  ipAddress : Std.ExtTreeMap Text Text
  portNumber : Std.ExtTreeMap Text Int
  unavailableIds : Finset Text
  id : Text
  ip : Text
  port : Int

namespace Recovery

variable (r : Recovery)

def extract (line : Text) : Recovery :=
  match extractWord line with
  | none => r
  | some (id, line) =>
    match extractWord line with
    | none => { r with id }
    | some (ip, line) => { r with id, ip, port := (extractInt line).getD r.port }

def readLine (line : Text) : Recovery :=
  if line.head? = some '#' ∨ line = [] then r
  else
    let r := r.extract line
    { r with
      ipAddress := r.ipAddress.insert r.id r.ip
      portNumber := r.portNumber.insert r.id r.port
      unavailableIds := insert r.id r.unavailableIds }

/-- The loop goes on until the end of the file is seen; `none` when it takes longer. -/
def readLines : Nat → Ifstream → Recovery → Option Recovery
  | 0, _, _ => none
  | fuel + 1, fin, r =>
    if fin.eof then some r
    else
      let s := fin.getline 256
      readLines fuel s.2 (r.readLine (cString s.1))

end Recovery

/-- A new router with some ids marked as unavailable; `port` has no value before it is read. -/
def recoveryFromPersistedData (fuel : Nat) (file : Text) (unavailableIds : Finset Text)
    (port : Int) : Option Recovery :=
  Recovery.readLines fuel ⟨file, false, false⟩ ⟨∅, ∅, unavailableIds, [], [], port⟩

/-! ## Reading lines -/

variable {l rest : Text} {ls : List Text} {r : Recovery} {fuel : Nat}

theorem ne_newline (hl : '\n' ∉ l) {c : Char} (hc : c ∈ l) : decide (c ≠ '\n') = true := by
  rw [decide_eq_true_eq]
  rintro rfl
  exact hl hc

theorem takeWhile_line (hl : '\n' ∉ l) (rest : Text) :
    (l ++ '\n' :: rest).takeWhile (· ≠ '\n') = l := by
  rw [List.takeWhile_append_of_pos fun c hc => ne_newline hl hc,
    List.takeWhile_cons_of_neg (by simp), List.append_nil]

theorem dropWhile_line (hl : '\n' ∉ l) (rest : Text) :
    (l ++ '\n' :: rest).dropWhile (· ≠ '\n') = '\n' :: rest := by
  rw [List.dropWhile_append_of_pos fun c hc => ne_newline hl hc,
    List.dropWhile_cons_of_neg (by simp)]

theorem getline_short (hl : '\n' ∉ l) (hlen : l.length ≤ 255) :
    Ifstream.getline 256 ⟨l ++ '\n' :: rest, false, false⟩ = (l, ⟨rest, false, false⟩) := by
  simp only [Ifstream.getline, Bool.or_self, Bool.false_eq_true, if_false, takeWhile_line hl,
    dropWhile_line hl]
  rw [if_neg (by omega)]

theorem getline_long (hl : '\n' ∉ l) (hlen : 255 < l.length) :
    (Ifstream.getline 256 ⟨l ++ '\n' :: rest, false, false⟩).2.eof = false ∧
      (Ifstream.getline 256 ⟨l ++ '\n' :: rest, false, false⟩).2.fail = true := by
  simp only [Ifstream.getline, Bool.or_self, Bool.false_eq_true, if_false, takeWhile_line hl]
  rw [if_pos (by omega)]
  exact ⟨rfl, rfl⟩

/-- A stream that failed before its end is read forever. -/
theorem readLines_failed (fuel : Nat) (fin : Ifstream) (r : Recovery) (heof : fin.eof = false)
    (hfail : fin.fail = true) : Recovery.readLines fuel fin r = none := by
  induction fuel generalizing fin r with
  | zero => rfl
  | succ fuel ih =>
    have hget : fin.getline 256 = ([], { fin with fail := true }) := by
      rw [Ifstream.getline, hfail, Bool.or_true, if_pos rfl]
    rw [Recovery.readLines, heof, hget]
    exact ih _ _ heof rfl

def file (ls : List Text) : Text := ls.flatMap (· ++ ['\n'])

theorem file_cons (l : Text) (ls : List Text) : file (l :: ls) = l ++ '\n' :: file ls := by
  simp [file]

/-- A file of lines that fit ends in as many turns as it has lines, and two. -/
theorem readLines_short (hls : ∀ l ∈ ls, '\n' ∉ l ∧ l.length ≤ 255) :
    Recovery.readLines fuel ⟨file ls, false, false⟩ r =
      if ls.length + 2 ≤ fuel then some (ls.foldl (fun r l => r.readLine (cString l)) r)
      else none := by
  induction ls generalizing fuel r with
  | nil =>
    cases fuel with
    | zero => rfl
    | succ fuel =>
      cases fuel with
      | zero => rfl
      | succ fuel => simp [Recovery.readLines, file, Ifstream.getline, cString, Recovery.readLine]
  | cons l ls ih =>
    obtain ⟨hl, hlen⟩ := hls l List.mem_cons_self
    cases fuel with
    | zero => rfl
    | succ fuel =>
      rw [Recovery.readLines, file_cons, getline_short hl hlen]
      simp only [Bool.false_eq_true, if_false]
      rw [ih fun l' hl' => hls l' (List.mem_cons_of_mem _ hl')]
      simp only [List.length_cons, List.foldl_cons]
      split <;> split <;> first | rfl | omega

theorem readLines_long (hls : ∀ l ∈ ls, '\n' ∉ l) (hlong : ∃ l ∈ ls, 255 < l.length) :
    Recovery.readLines fuel ⟨file ls, false, false⟩ r = none := by
  induction ls generalizing fuel r with
  | nil => simp at hlong
  | cons l ls ih =>
    cases fuel with
    | zero => rfl
    | succ fuel =>
      have hl := hls l List.mem_cons_self
      rw [Recovery.readLines, file_cons]
      simp only [Bool.false_eq_true, if_false]
      by_cases hlen : 255 < l.length
      · obtain ⟨heof, hfail⟩ := @getline_long l (file ls) hl hlen
        exact readLines_failed _ _ _ heof hfail
      · rw [getline_short hl (by omega)]
        apply ih fun l' hl' => hls l' (List.mem_cons_of_mem _ hl')
        obtain ⟨l', hl', h⟩ := hlong
        rcases List.mem_cons.mp hl' with rfl | hl'
        · exact absurd h hlen
        · exact ⟨l', hl', h⟩

/-! ## Reading words -/

theorem IsWord.extractWord {w : Text} (hw : IsWord w) (rest : Text) :
    extractWord (w ++ ' ' :: rest) = some (w, ' ' :: rest) := by
  obtain ⟨c, w', rfl⟩ := List.exists_cons_of_ne_nil hw.1
  have hc := hw.2 c List.mem_cons_self
  have hpos : ∀ d ∈ c :: w', (!isSpace d) = true := by
    intro d hd
    rw [hw.2 d hd, Bool.not_false]
  have hsp : isSpace ' ' = true := by decide
  rw [RouterTable.extractWord, List.cons_append, List.dropWhile_cons_of_neg (by simp [hc]),
    if_neg (List.cons_ne_nil _ _), ← List.cons_append, List.takeWhile_append_of_pos hpos,
    List.dropWhile_append_of_pos hpos, List.takeWhile_cons_of_neg (by simp [hsp]),
    List.dropWhile_cons_of_neg (by simp [hsp]), List.append_nil]

theorem extractWord_blank (text : Text) : extractWord (' ' :: text) = extractWord text := by
  rw [extractWord, List.dropWhile_cons_of_pos (by decide), extractWord]

theorem extractInt_blank (text : Text) : extractInt (' ' :: text) = extractInt text := by
  have hdrop : (' ' :: text).dropWhile isSpace = text.dropWhile isSpace :=
    List.dropWhile_cons_of_pos (by decide)
  have hsigned : readSigned (' ' :: text) = readSigned text := by
    rw [readSigned, hdrop, readSigned]
  have hafter : afterSign (' ' :: text) = afterSign text := by
    rw [afterSign, hdrop, afterSign]
  rw [extractInt, hsigned, hafter, extractInt]

theorem extractInt_printInt {n : Int} (hlo : -2 ^ 31 ≤ n) (hhi : n < 2 ^ 31) :
    extractInt (printInt n) = some n := by
  cases n with
  | ofNat n =>
    obtain ⟨c, cs, e⟩ := List.exists_cons_of_ne_nil (@Nat.toDigits_ne_nil n 10)
    have hdigit := Lines.isDigit_of_mem (e ▸ List.mem_cons_self : c ∈ Nat.toDigits 10 n)
    have hread : readSigned (printInt (.ofNat n)) = (false, n) := by
      have := Lines.readSigned_toDigits n (t := []) (by simp)
      rwa [List.append_nil] at this
    have hafter : (afterSign (printInt (.ofNat n))).takeWhile Char.isDigit ≠ [] := by
      rw [printInt, e, Lines.afterSign_cons_of_isDigit hdigit, List.takeWhile_cons_of_pos hdigit]
      exact List.cons_ne_nil _ _
    rw [extractInt, hread]
    simp only [Bool.false_eq_true, if_false]
    rw [if_neg]
    · rfl
    · simp only [Int.ofNat_eq_natCast] at hlo hhi
      have hnot : ¬ ((n : Int) < -2 ^ 31 ∨ (2 : Int) ^ 31 ≤ n) := by omega
      exact fun h => h.elim hafter hnot
  | negSucc n =>
    obtain ⟨c, cs, e⟩ := List.exists_cons_of_ne_nil (@Nat.toDigits_ne_nil (n + 1) 10)
    have hdigit := Lines.isDigit_of_mem (e ▸ List.mem_cons_self : c ∈ Nat.toDigits 10 (n + 1))
    have hdrop : (printInt (.negSucc n)).dropWhile isSpace = '-' :: Nat.toDigits 10 (n + 1) :=
      List.dropWhile_cons_of_neg (by decide)
    have hread : readSigned (printInt (.negSucc n)) = (true, n + 1) := by
      rw [readSigned, hdrop]
      simp only [Lines.readDigits_toDigits]
    have hafter : (afterSign (printInt (.negSucc n))).takeWhile Char.isDigit ≠ [] := by
      rw [afterSign, hdrop]
      simp only
      rw [e, List.takeWhile_cons_of_pos hdigit]
      exact List.cons_ne_nil _ _
    rw [extractInt, hread]
    simp only [if_true]
    have hneg : -((n + 1 : Nat) : Int) = Int.negSucc n := rfl
    rw [hneg, if_neg]
    exact fun h => h.elim hafter (by omega)

/-! ## The round trip -/

variable {t : ElementTable} {id ip : Text}

/-- What it takes to read an entry back: its line fits the buffer, its id does not make it a
comment, and no null character ends it. -/
structure Readable (t : ElementTable) (id ip : Text) : Prop where
  fits : (t.line id ip).length ≤ 255
  noComment : id.head? ≠ some '#'
  id_noNull : '\x00' ∉ id
  ip_noNull : '\x00' ∉ ip

def ElementTable.lines (t : ElementTable) : List Text :=
  t.ipAddress.toList.map fun p => t.line p.1 p.2

theorem persistState_eq (t : ElementTable) : t.persistState = file t.lines := by
  rw [file, ElementTable.lines, List.flatMap_map, ElementTable.persistState]

theorem mem_toList {p : Text × Text} : p ∈ t.ipAddress.toList ↔ t.ipAddress[p.1]? = some p.2 := by
  obtain ⟨id, ip⟩ := p
  exact Std.ExtTreeMap.mem_toList_iff_getElem?_eq_some

theorem not_mem_printInt {c : Char} (hc : c.isDigit = false) (hm : c ≠ '-') (n : Int) :
    c ∉ printInt n := by
  intro h
  cases n with
  | ofNat n => rw [Lines.isDigit_of_mem h] at hc; cases hc
  | negSucc n =>
    rcases List.mem_cons.mp h with h | h
    · exact hm h
    · rw [Lines.isDigit_of_mem h] at hc; cases hc

theorem IsWord.not_mem {w : Text} (hw : IsWord w) {c : Char} (hc : isSpace c = true) : c ∉ w := by
  intro h
  rw [hw.2 c h] at hc
  cases hc

theorem mem_line {c : Char} (hd : c.isDigit = false) (hm : c ≠ '-') (hs : c ≠ ' ') :
    c ∈ t.line id ip ↔ c ∈ id ∨ c ∈ ip := by
  have hn := not_mem_printInt hd hm (t.getPortNumber id)
  simp only [ElementTable.line, List.mem_append, List.mem_cons, hs, hn, false_or, or_false]

theorem newline_notMem_line (h : t.ipAddress[id]? = some ip) : '\n' ∉ t.line id ip := by
  rw [mem_line (by decide) (by decide) (by decide)]
  have hid : id ∈ t.ipAddress := Std.ExtTreeMap.mem_iff_isSome_getElem?.mpr (by rw [h]; rfl)
  rintro (hm | hm)
  · exact (t.ids id hid).not_mem (by decide) hm
  · exact (t.ips id ip h).not_mem (by decide) hm

theorem getPortNumber_range (t : ElementTable) (id : Text) :
    -2 ^ 31 ≤ t.getPortNumber id ∧ t.getPortNumber id < 2 ^ 31 := by
  rw [ElementTable.getPortNumber]
  cases h : t.portNumber[id]? with
  | none => decide
  | some port => exact t.ports id port h

/-- A line with an entry that can be read restores the entry. -/
theorem readLine_line (h : t.ipAddress[id]? = some ip) (hr : Readable t id ip) :
    r.readLine (cString (t.line id ip)) =
      { ipAddress := r.ipAddress.insert id ip
        portNumber := r.portNumber.insert id (t.getPortNumber id)
        unavailableIds := insert id r.unavailableIds
        id, ip, port := t.getPortNumber id } := by
  have hmem : id ∈ t.ipAddress := Std.ExtTreeMap.mem_iff_isSome_getElem?.mpr (by rw [h]; rfl)
  have hid := t.ids id hmem
  have hnull : '\x00' ∉ t.line id ip := by
    rw [mem_line (by decide) (by decide) (by decide)]
    exact fun hm => hm.elim hr.id_noNull hr.ip_noNull
  have hc : cString (t.line id ip) = t.line id ip := by
    apply List.takeWhile_eq_self_iff.mpr
    intro c hc
    rw [decide_eq_true_eq]
    rintro rfl
    exact hnull hc
  obtain ⟨hlo, hhi⟩ := getPortNumber_range t id
  have hextract : r.extract (t.line id ip) =
      { r with id, ip, port := t.getPortNumber id } := by
    rw [Recovery.extract, ElementTable.line, hid.extractWord]
    simp only
    rw [extractWord_blank, (t.ips id ip h).extractWord]
    simp only
    rw [extractInt_blank, extractInt_printInt hlo hhi, Option.getD_some]
  have hne : t.line id ip ≠ [] := by simp [ElementTable.line]
  have hhead : (t.line id ip).head? ≠ some '#' := by
    obtain ⟨c, id', rfl⟩ := List.exists_cons_of_ne_nil hid.1
    exact hr.noComment
  rw [hc, Recovery.readLine, if_neg (by simp [hne, hhead]), hextract]

/-- Reading the lines of readable entries. -/
theorem foldl_readLine {ps : List (Text × Text)}
    (hps : ∀ p ∈ ps, t.ipAddress[p.1]? = some p.2 ∧ Readable t p.1 p.2) :
    let r' := (ps.map fun p => t.line p.1 p.2).foldl (fun r l => r.readLine (cString l)) r
    r'.ipAddress = ps.foldl (fun m p => m.insert p.1 p.2) r.ipAddress ∧
      r'.portNumber = ps.foldl (fun m p => m.insert p.1 (t.getPortNumber p.1)) r.portNumber ∧
      r'.unavailableIds = r.unavailableIds ∪ (ps.map (·.1)).toFinset := by
  induction ps generalizing r with
  | nil => simp
  | cons p ps ih =>
    obtain ⟨h, hr⟩ := hps p List.mem_cons_self
    have hrest := ih (r := r.readLine (cString (t.line p.1 p.2)))
      fun q hq => hps q (List.mem_cons_of_mem _ hq)
    rw [readLine_line h hr] at hrest
    obtain ⟨hip, hport, hun⟩ := hrest
    simp only [List.map_cons, List.foldl_cons]
    rw [readLine_line h hr]
    refine ⟨hip, hport, ?_⟩
    rw [hun, List.toFinset_cons, Finset.insert_union, Finset.union_insert]

theorem getElem?_foldl_insert {β : Type} (f : Text × Text → β) {ps : List (Text × Text)}
    (hnd : (ps.map (·.1)).Nodup) (m : Std.ExtTreeMap Text β) :
    (∀ p ∈ ps, (ps.foldl (fun m p => m.insert p.1 (f p)) m)[p.1]? = some (f p)) ∧
      ∀ k ∉ ps.map (·.1), (ps.foldl (fun m p => m.insert p.1 (f p)) m)[k]? = m[k]? := by
  induction ps generalizing m with
  | nil => simp
  | cons q ps ih =>
    obtain ⟨hq, hnd⟩ := List.nodup_cons.mp hnd
    obtain ⟨hin, hout⟩ := ih hnd (m.insert q.1 (f q))
    simp only [List.foldl_cons]
    constructor
    · intro p hp
      rcases List.mem_cons.mp hp with rfl | hp
      · rw [hout _ hq, Std.ExtTreeMap.getElem?_insert_self]
      · exact hin p hp
    · intro k hk
      rw [List.map_cons, List.mem_cons, not_or] at hk
      rw [hout k hk.2, Std.ExtTreeMap.getElem?_insert, if_neg]
      rw [Std.LawfulEqOrd.compare_eq_iff_eq]
      exact fun e => hk.1 e.symm

/-- Whether the entry of the table is restored. -/
structure Restored (t : ElementTable) (unavailableIds : Finset Text) (r : Recovery) : Prop where
  ipAddress : r.ipAddress = t.ipAddress
  portNumber : r.portNumber = t.portNumber
  unavailable : ∀ id, id ∈ r.unavailableIds ↔ id ∈ unavailableIds ∨ id ∈ t.ipAddress

/-- The recovery from what was saved ends, with the table as it was. -/
def RoundTrips (t : ElementTable) (unavailableIds : Finset Text) (port : Int) : Prop :=
  ∃ fuel r, recoveryFromPersistedData fuel t.persistState unavailableIds port = some r ∧
    Restored t unavailableIds r

theorem nodup_ids (t : ElementTable) : (t.ipAddress.toList.map (·.1)).Nodup := by
  rw [List.Nodup, List.pairwise_map]
  refine t.ipAddress.distinct_keys_toList.imp fun h e => h ?_
  rw [e, Std.LawfulEqOrd.compare_eq_iff_eq]

theorem mem_ids {id : Text} : id ∈ t.ipAddress.toList.map (·.1) ↔ id ∈ t.ipAddress := by
  rw [Std.ExtTreeMap.map_fst_toList_eq_keys, Std.ExtTreeMap.mem_keys]

/-- Inserting the entries of a map one by one gives the map. -/
theorem foldl_insert_eq {β : Type} (f : Text × Text → β) (m : Std.ExtTreeMap Text β)
    (hkeys : ∀ id, id ∈ m ↔ id ∈ t.ipAddress)
    (hval : ∀ p ∈ t.ipAddress.toList, m[p.1]? = some (f p)) :
    t.ipAddress.toList.foldl (fun m p => m.insert p.1 (f p)) ∅ = m := by
  obtain ⟨hin, hout⟩ := getElem?_foldl_insert f (nodup_ids t) ∅
  apply Std.ExtTreeMap.ext_getElem?
  intro id
  by_cases h : id ∈ t.ipAddress.toList.map (·.1)
  · obtain ⟨p, hp, rfl⟩ := List.mem_map.mp h
    rw [hin p hp, hval p hp]
  · have hm : id ∉ m := by rwa [hkeys, ← mem_ids]
    rw [hout id h, Std.ExtTreeMap.getElem?_empty, Std.ExtTreeMap.getElem?_eq_none hm]

theorem lines_noNewline (t : ElementTable) : ∀ l ∈ t.lines, '\n' ∉ l := by
  intro l hl
  obtain ⟨p, hp, rfl⟩ := List.mem_map.mp hl
  exact newline_notMem_line (mem_toList.mp hp)

theorem roundTrips_of_readable (h : ∀ id ip, t.ipAddress[id]? = some ip → Readable t id ip)
    (unavailableIds : Finset Text) (port : Int) : RoundTrips t unavailableIds port := by
  have hshort : ∀ l ∈ t.lines, '\n' ∉ l ∧ l.length ≤ 255 := by
    intro l hl
    refine ⟨lines_noNewline t l hl, ?_⟩
    obtain ⟨p, hp, rfl⟩ := List.mem_map.mp hl
    exact (h _ _ (mem_toList.mp hp)).fits
  have hps : ∀ p ∈ t.ipAddress.toList, t.ipAddress[p.1]? = some p.2 ∧ Readable t p.1 p.2 :=
    fun p hp => ⟨mem_toList.mp hp, h _ _ (mem_toList.mp hp)⟩
  obtain ⟨hip, hport, hun⟩ := foldl_readLine (r := ⟨∅, ∅, unavailableIds, [], [], port⟩) hps
  have hrun : recoveryFromPersistedData (t.lines.length + 2) t.persistState unavailableIds port =
      some (t.lines.foldl (fun r l => r.readLine (cString l))
        ⟨∅, ∅, unavailableIds, [], [], port⟩) := by
    rw [recoveryFromPersistedData, persistState_eq, readLines_short hshort, if_pos (Nat.le_refl _)]
  refine ⟨_, _, hrun, ?_, ?_, ?_⟩
  · rw [ElementTable.lines, hip]
    exact foldl_insert_eq _ _ (fun _ => Iff.rfl) fun p hp => mem_toList.mp hp
  · rw [ElementTable.lines, hport]
    refine foldl_insert_eq _ _ t.sameIds fun p hp => ?_
    have hmem : p.1 ∈ t.portNumber := by
      rw [t.sameIds, ← mem_ids]
      exact List.mem_map_of_mem hp
    rw [ElementTable.getPortNumber, Std.ExtTreeMap.getElem?_eq_some_getElem hmem]
    rfl
  · intro id
    rw [ElementTable.lines, hun, Finset.mem_union, List.mem_toFinset, mem_ids]

/-- What is read from a file that was saved is no comment and has no null characters. -/
structure Clean (r : Recovery) : Prop where
  entries : ∀ id ip : Text, r.ipAddress[id]? = some ip →
    id.head? ≠ some '#' ∧ '\x00' ∉ id ∧ '\x00' ∉ ip
  id : r.id.head? ≠ some '#' ∧ '\x00' ∉ r.id
  ip : '\x00' ∉ r.ip

theorem extractWord_spec {text w rest : Text} (h : extractWord text = some (w, rest)) :
    w ⊆ text ∧ rest ⊆ text ∧
      ∀ c ∈ text.head?, isSpace c = false → w.head? = some c := by
  rw [extractWord] at h
  split at h
  · cases h
  · have hdrop : text.dropWhile isSpace ⊆ text := (List.dropWhile_suffix _).subset
    simp only [Option.some.injEq, Prod.mk.injEq] at h
    obtain ⟨rfl, rfl⟩ := h
    refine ⟨fun _ hc => hdrop ((List.takeWhile_prefix _).subset hc),
      fun _ hc => hdrop ((List.dropWhile_suffix _).subset hc), fun c hc hs => ?_⟩
    obtain ⟨text', rfl⟩ := List.head?_eq_some_iff.mp hc
    rw [List.dropWhile_cons_of_neg (by simp [hs]), List.takeWhile_cons_of_pos (by simp [hs])]
    rfl

/-- Reading one line keeps to what is clean. -/
theorem Clean.readLine {line : Text} (h : Clean r) (hnull : '\x00' ∉ line)
    (hhead : ∀ c ∈ line.head?, isSpace c = false) : Clean (r.readLine line) := by
  have hextract : line.head? ≠ some '#' → line ≠ [] → Clean (r.extract line) ∧
      (r.extract line).ipAddress = r.ipAddress := by
    intro hcom hne
    rw [Recovery.extract]
    split
    · exact ⟨h, rfl⟩
    · next id rest hid =>
      obtain ⟨hsub, hrest, hfirst⟩ := extractWord_spec hid
      obtain ⟨c, line', rfl⟩ := List.exists_cons_of_ne_nil hne
      have hid' : id.head? ≠ some '#' ∧ '\x00' ∉ id := by
        rw [hfirst c rfl (hhead c rfl)]
        exact ⟨hcom, fun hm => hnull (hsub hm)⟩
      split
      · exact ⟨⟨h.entries, hid', h.ip⟩, rfl⟩
      · next ip _ hip =>
        obtain ⟨hsub', -, -⟩ := extractWord_spec hip
        exact ⟨⟨h.entries, hid', fun hm => hnull (hrest (hsub' hm))⟩, rfl⟩
  rw [Recovery.readLine]
  split
  · exact h
  · next hline =>
    rw [not_or] at hline
    obtain ⟨hclean, -⟩ := hextract hline.1 hline.2
    refine ⟨fun id ip hm => ?_, hclean.id, hclean.ip⟩
    simp only [Std.ExtTreeMap.getElem?_insert] at hm
    split at hm
    · next e =>
      rw [Std.LawfulEqOrd.compare_eq_iff_eq] at e
      obtain rfl := Option.some.inj hm
      subst e
      exact ⟨hclean.id.1, hclean.id.2, hclean.ip⟩
    · exact hclean.entries id ip hm

theorem cString_noNull (l : Text) : '\x00' ∉ cString l := by
  intro h
  simpa using List.mem_takeWhile_imp h

theorem cString_head {l : Text} {c : Char} (hc : c ∈ (cString l).head?) : c ∈ l.head? := by
  cases l with
  | nil => exact hc
  | cons d l =>
    rw [cString, List.takeWhile_cons] at hc
    split at hc
    · exact hc
    · cases hc

theorem Clean.readLines {ps : List (Text × Text)} (h : Clean r)
    (hps : ∀ p ∈ ps, t.ipAddress[p.1]? = some p.2) :
    Clean ((ps.map fun p => t.line p.1 p.2).foldl (fun r l => r.readLine (cString l)) r) := by
  induction ps generalizing r with
  | nil => exact h
  | cons p ps ih =>
    rw [List.map_cons, List.foldl_cons]
    refine ih (h.readLine (cString_noNull _) fun c hc => ?_)
      fun q hq => hps q (List.mem_cons_of_mem _ hq)
    have hmem : p.1 ∈ t.ipAddress :=
      Std.ExtTreeMap.mem_iff_isSome_getElem?.mpr (by rw [hps p List.mem_cons_self]; rfl)
    have hid := t.ids p.1 hmem
    have hin := cString_head hc
    obtain ⟨d, w, e⟩ := List.exists_cons_of_ne_nil hid.1
    rw [ElementTable.line, e] at hin
    obtain rfl : d = c := by simpa using hin
    exact hid.2 d (e ▸ List.mem_cons_self)

theorem readable_of_roundTrips {unavailableIds : Finset Text} {port : Int}
    (h : RoundTrips t unavailableIds port) (hm : t.ipAddress[id]? = some ip) :
    Readable t id ip := by
  obtain ⟨fuel, r, hrun, hr⟩ := h
  rw [recoveryFromPersistedData, persistState_eq] at hrun
  have hshort : ∀ l ∈ t.lines, l.length ≤ 255 := by
    intro l hl
    by_contra hlong
    rw [readLines_long (lines_noNewline t) ⟨l, hl, by omega⟩] at hrun
    cases hrun
  rw [readLines_short fun l hl => ⟨lines_noNewline t l hl, hshort l hl⟩] at hrun
  split at hrun
  · have hclean : Clean r := by
      rw [← Option.some.inj hrun]
      refine Clean.readLines (t := t) ⟨fun id ip hm => ?_, by simp, by simp⟩
        fun p hp => mem_toList.mp hp
      rw [Std.ExtTreeMap.getElem?_empty] at hm
      cases hm
    obtain ⟨hcom, hid, hip⟩ := hclean.entries id ip (by rw [hr.ipAddress, hm])
    exact ⟨hshort _ (List.mem_map_of_mem (@mem_toList t (id, ip) |>.mpr hm)), hcom, hid, hip⟩
  · cases hrun

/-- The table survives exactly when each of its entries is readable. -/
theorem recovery_roundTrips_iff (t : ElementTable) (unavailableIds : Finset Text) (port : Int) :
    RoundTrips t unavailableIds port ↔
      ∀ id ip : Text, t.ipAddress[id]? = some ip → Readable t id ip :=
  ⟨fun h _ _ hm => readable_of_roundTrips h hm,
    fun h => roundTrips_of_readable h unavailableIds port⟩

/-! ## One element -/

/-- The table of one element. -/
def single (id ip : Text) (port : Int) (hid : IsWord id) (hip : IsWord ip)
    (hport : -2 ^ 31 ≤ port ∧ port < 2 ^ 31) : ElementTable where
  ipAddress := Std.ExtTreeMap.insert ∅ id ip
  portNumber := Std.ExtTreeMap.insert ∅ id port
  sameIds k := by simp
  ids k hk := by
    obtain rfl : id = k := by simpa using hk
    exact hid
  ips k v hk := by
    rw [Std.ExtTreeMap.getElem?_insert] at hk
    split at hk
    · exact Option.some.inj hk ▸ hip
    · simp at hk
  ports k v hk := by
    rw [Std.ExtTreeMap.getElem?_insert] at hk
    split at hk
    · exact Option.some.inj hk ▸ hport
    · simp at hk

/-- An id that looks like a comment. -/
def numbered : ElementTable :=
  single ['#', '1'] ['1', '2', '7', '.', '0', '.', '0', '.', '1'] 5100
    ⟨by simp, by simp [isSpace]⟩ ⟨by simp, by simp [isSpace]⟩ (by decide)

theorem numbered_lost : ¬ RoundTrips numbered ∅ 0 := by
  intro h
  have hm : numbered.ipAddress[(['#', '1'] : Text)]? =
      some ['1', '2', '7', '.', '0', '.', '0', '.', '1'] :=
    Std.ExtTreeMap.getElem?_insert_self
  exact (readable_of_roundTrips h hm).noComment rfl

end OpenCog.Messaging.RouterTable
