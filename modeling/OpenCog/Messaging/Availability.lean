import Mathlib

/-! The availability notices of the router: marks put an id into one of two
pending sets, and the loop of `run` empties one set and then the other, sending a
notice to every other connected element. No connection fails here, so a notice
that is sent is delivered, in order. -/
namespace OpenCog.Messaging

/-- A `std::string` of ids and payloads. -/
abbrev Text := List Char

namespace Availability

structure Config where
  routerId : Text
  proxyId : Text
  spawnerId : Text
  lsId : Text
  comboShellId : Text
  noAckMessages : Bool

/-- What the thread of `run` does before it looks at a pending set again. -/
inductive Task where
  | notify (toId id : Text) (available : Bool)
  | markAvailable (id : Text)

/-- The pending set that is emptied next. -/
inductive Drain where
  | availability | unavailability

structure Router where
  /-- The keys of the map. -/
  ipAddress : List Text
  unavailableIds : List Text
  toNotifyAvailability : List Text
  toNotifyUnavailability : List Text
  tasks : List Task
  next : Drain
  /-- The notices each element received, the last one first. -/
  inbox : Text → List (Text × Bool)

/-- `std::set::insert`. -/
def insertId (id : Text) (ids : List Text) : List Text :=
  if id ∈ ids then ids else ids.orderedInsert (· ≤ ·) id

namespace Router

def isElementAvailable (s : Router) (id : Text) : Bool := decide (id ∉ s.unavailableIds)

def markElementUnavailable (s : Router) (id : Text) : Router :=
  { s with
    toNotifyUnavailability := insertId id s.toNotifyUnavailability
    unavailableIds := insertId id s.unavailableIds }

def markElementAvailable (s : Router) (id : Text) : Router :=
  if id ∈ s.unavailableIds then
    { s with
      unavailableIds := s.unavailableIds.erase id
      toNotifyAvailability := insertId id s.toNotifyAvailability }
  else s

/-- `notifyElementAvailability`, one notice for each known element. -/
def notifyElementAvailability (s : Router) (id : Text) (available : Bool) : List Task :=
  s.ipAddress.map fun toId => .notify toId id available

/-- Notices on internal elements are kept from the proxy. -/
def filtered (cfg : Config) (toId id : Text) : Bool :=
  decide (toId = cfg.proxyId ∧ (id = cfg.spawnerId ∨ id = cfg.lsId ∨ id = cfg.comboShellId))

/-- The answer marks the element as available, and so does the caller after it. -/
def afterSending (cfg : Config) (toId : Text) : List Task :=
  if cfg.noAckMessages then [.markAvailable toId] else [.markAvailable toId, .markAvailable toId]

def perform (cfg : Config) (s : Router) : Task → Router
  | .markAvailable id => s.markElementAvailable id
  | .notify toId id available =>
    if toId = id then s
    else if s.isElementAvailable toId = true ∨ id = cfg.routerId then
      if filtered cfg toId id then s
      else { s with
        inbox := Function.update s.inbox toId ((id, available) :: s.inbox toId)
        tasks := afterSending cfg toId ++ s.tasks }
    else s

/-- The two critical sections of the loop. -/
def drain (s : Router) : Router :=
  match s.next with
  | .availability => { s with
      tasks := s.toNotifyAvailability.flatMap (s.notifyElementAvailability · true)
      toNotifyAvailability := []
      next := .unavailability }
  | .unavailability => { s with
      tasks := s.toNotifyUnavailability.flatMap (s.notifyElementAvailability · false)
      toNotifyUnavailability := []
      next := .availability }

end Router

inductive Action where
  | markElementAvailable (id : Text)
  | markElementUnavailable (id : Text)
  | work
  | drain
  | periodic

def step (cfg : Config) (s : Router) : Action → Option Router
  | .markElementAvailable id => some (s.markElementAvailable id)
  | .markElementUnavailable id => some (s.markElementUnavailable id)
  | .work =>
    match s.tasks with
    | [] => none
    | t :: ts => some ({ s with tasks := ts }.perform cfg t)
  | .drain => if s.tasks.isEmpty then some s.drain else none
  | .periodic =>
    -- the notice on the router itself, at the top of the loop
    match s.tasks, s.next with
    | [], .availability => some { s with tasks := s.notifyElementAvailability cfg.routerId true }
    | _, _ => none

def run (cfg : Config) : List Action → Router → Option Router
  | [], s => some s
  | a :: as, s => (step cfg s a).bind (run cfg as)

/-- A router that has just started, with the elements a previous one left in its
file marked as unavailable. -/
def start (ipAddress recovered : List Text) : Router where
  ipAddress := ipAddress
  unavailableIds := recovered
  toNotifyAvailability := []
  toNotifyUnavailability := []
  tasks := []
  next := .availability
  inbox _ := []

/-! ## What an element will have been told -/

section Outlook
variable (e id : Text)

def notice : Task → Option Bool
  | .notify toId x available => if toId = e ∧ x = id then some available else none
  | .markAvailable _ => none

/-- The later of the two notices that are still pending. -/
def Router.pending (s : Router) : Option Bool :=
  match s.next with
  | .availability =>
    if id ∈ s.toNotifyUnavailability then some false
    else if id ∈ s.toNotifyAvailability then some true else none
  | .unavailability =>
    if id ∈ s.toNotifyAvailability then some true
    else if id ∈ s.toNotifyUnavailability then some false else none

def Router.scheduled (s : Router) : Option Bool := (s.tasks.filterMap (notice e id)).getLast?

/-- The last notice on `id` that `e` has received. -/
def Router.lastNotice (s : Router) : Option Bool := (s.inbox e).lookup id

/-- The last notice on `id` that `e` receives if no mark comes in between. -/
def Router.outlook (s : Router) : Option Bool :=
  (s.pending id).or ((s.scheduled e id).or (s.lastNotice e id))

/-- The notice says what the router holds. -/
def Agrees (recovered : List Text) (s : Router) (view : Option Bool) : Prop :=
  (∀ b, view = some b → b = s.isElementAvailable id) ∧
  (id ∈ s.unavailableIds → id ∉ recovered → view ≠ none)

/-- The id does not become available while the notice that it is not would be sent
after the new one. -/
def MarkedInOrder (s : Router) (x : Text) : Prop :=
  x = id → id ∈ s.unavailableIds → id ∈ s.toNotifyUnavailability → s.next = .unavailability

def PerformedInOrder (s : Router) : Task → Prop
  | .markAvailable x => MarkedInOrder id s x
  | .notify toId x _ => toId = e → x = id → e ∉ s.unavailableIds

/-- No mark overtakes the opposite notice on the same id, `e` is available when a
notice on `id` is due for it, and the router does not announce itself when it is
marked as unavailable. -/
def InOrder (cfg : Config) (s : Router) : Action → Prop
  | .markElementAvailable x => MarkedInOrder id s x
  | .markElementUnavailable x => x = id → id ∈ s.toNotifyAvailability → s.next = .availability
  | .work => ∀ t, s.tasks.head? = some t → PerformedInOrder e id s t
  | .drain => True
  | .periodic => id = cfg.routerId → id ∉ s.unavailableIds

def RunInOrder (cfg : Config) : List Action → Router → Prop
  | [], _ => True
  | a :: as, s => InOrder e id cfg s a ∧ ∀ s', step cfg s a = some s' → RunInOrder cfg as s'

end Outlook

@[simp] theorem mem_insertId {x id : Text} {ids : List Text} :
    x ∈ insertId id ids ↔ x = id ∨ x ∈ ids := by
  unfold insertId
  split
  · rename_i h
    exact ⟨.inr, fun hx => hx.elim (fun e => e ▸ h) (fun hx => hx)⟩
  · exact List.mem_orderedInsert _

section Steps
variable {cfg : Config} {ips recovered : List Text} {e id : Text} {s s' : Router}

/-- What every reachable router keeps, for one element and one id. -/
structure Inv (e id : Text) (ips recovered : List Text) (s : Router) : Prop where
  known : s.ipAddress = ips
  distinct : s.unavailableIds.Nodup
  agrees : Agrees id recovered s (s.outlook e id)

theorem outlook_of_pending {b : Bool} (h : s.pending id = some b) : s.outlook e id = some b := by
  rw [Router.outlook, h, Option.some_or]

/-- What the pending notice on an id depends on. -/
theorem pending_congr (hn : s'.next = s.next)
    (ha : id ∈ s'.toNotifyAvailability ↔ id ∈ s.toNotifyAvailability)
    (hu : id ∈ s'.toNotifyUnavailability ↔ id ∈ s.toNotifyUnavailability) :
    s'.pending id = s.pending id := by
  unfold Router.pending
  rw [hn]
  cases s.next <;> simp only [ha, hu]

theorem Agrees.congr (h : Agrees id recovered s (s.outlook e id))
    (hv : id ∈ s'.unavailableIds ↔ id ∈ s.unavailableIds)
    (ho : s'.outlook e id = s.outlook e id) : Agrees id recovered s' (s'.outlook e id) := by
  obtain ⟨h₁, h₂⟩ := h
  rw [ho]
  refine ⟨fun b hb => ?_, fun hu => h₂ (hv.mp hu)⟩
  rw [h₁ b hb]
  simp [Router.isElementAvailable, hv]

theorem agrees_markUnavailable (h : Inv e id ips recovered s) {x : Text}
    (hok : x = id → id ∈ s.toNotifyAvailability → s.next = .availability) :
    Agrees id recovered (s.markElementUnavailable x)
      ((s.markElementUnavailable x).outlook e id) := by
  by_cases hx : x = id
  · have hpend : (s.markElementUnavailable x).pending id = some false := by
      unfold Router.pending Router.markElementUnavailable
      cases hn : s.next with
      | availability => simp [hx]
      | unavailability =>
        have : id ∉ s.toNotifyAvailability := fun hm => by cases hn.symm.trans (hok hx hm)
        simp [hx, this]
    rw [outlook_of_pending hpend]
    refine ⟨fun b hb => ?_, fun _ _ => Option.some_ne_none _⟩
    rw [← Option.some.inj hb]
    simp [Router.isElementAvailable, Router.markElementUnavailable, hx]
  · have hmem : ∀ l : List Text, id ∈ insertId x l ↔ id ∈ l := by simp [Ne.symm hx]
    refine h.agrees.congr (hmem _) ?_
    exact congrArg (Option.or · _) (pending_congr rfl Iff.rfl (hmem _))

theorem agrees_markAvailable (h : Inv e id ips recovered s) {x : Text}
    (hok : MarkedInOrder id s x) :
    Agrees id recovered (s.markElementAvailable x) ((s.markElementAvailable x).outlook e id) := by
  unfold Router.markElementAvailable
  split
  · rename_i hmark
    by_cases hx : x = id
    · subst hx
      have hgone : x ∉ s.unavailableIds.erase x := h.distinct.not_mem_erase
      have hpend : ({ s with
          unavailableIds := s.unavailableIds.erase x
          toNotifyAvailability := insertId x s.toNotifyAvailability } : Router).pending x =
          some true := by
        unfold Router.pending
        cases hn : s.next with
        | availability =>
          have : x ∉ s.toNotifyUnavailability := fun hm => by
            cases hn.symm.trans (hok rfl hmark hm)
          simp [this]
        | unavailability => simp
      rw [outlook_of_pending hpend]
      refine ⟨fun b hb => ?_, fun hu => absurd hu hgone⟩
      rw [← Option.some.inj hb]
      simp [Router.isElementAvailable, hgone]
    · refine h.agrees.congr (List.mem_erase_of_ne (Ne.symm hx)) ?_
      exact congrArg (Option.or · _) (pending_congr rfl (by simp [Ne.symm hx]) Iff.rfl)
  · exact h.agrees

theorem nodup_insertId {ids : List Text} (x : Text) (h : ids.Nodup) : (insertId x ids).Nodup := by
  unfold insertId
  split
  · exact h
  · rename_i hx
    exact (List.perm_orderedInsert _ x ids).nodup_iff.mpr (List.nodup_cons.mpr ⟨hx, h⟩)

theorem inv_markUnavailable (h : Inv e id ips recovered s) {x : Text}
    (hok : x = id → id ∈ s.toNotifyAvailability → s.next = .availability) :
    Inv e id ips recovered (s.markElementUnavailable x) :=
  ⟨h.known, nodup_insertId x h.distinct, agrees_markUnavailable h hok⟩

theorem inv_markAvailable (h : Inv e id ips recovered s) {x : Text}
    (hok : MarkedInOrder id s x) : Inv e id ips recovered (s.markElementAvailable x) := by
  refine ⟨?_, ?_, agrees_markAvailable h hok⟩
  · rw [← h.known]
    unfold Router.markElementAvailable
    split <;> rfl
  · unfold Router.markElementAvailable
    split
    · exact h.distinct.erase x
    · exact h.distinct

/-! ## The loop -/

theorem getLast?_filterMap_cons (t : Task) (ts : List Task) :
    ((t :: ts).filterMap (notice e id)).getLast? =
      ((ts.filterMap (notice e id)).getLast?).or (notice e id t) := by
  cases hn : notice e id t with
  | none => simp [hn]
  | some b =>
    rw [List.filterMap_cons_some hn, List.getLast?_cons]
    cases (ts.filterMap (notice e id)).getLast? <;> rfl

theorem afterSending_silent (cfg : Config) (toId : Text) :
    (Router.afterSending cfg toId).filterMap (notice e id) = [] := by
  unfold Router.afterSending
  split <;> rfl

/-- A task is done: its notice has been received, or was for another element or
on another id. -/
theorem outlook_notify (hne : e ≠ id) (hf : Router.filtered cfg e id = false) {toId x : Text}
    {b : Bool} {ts : List Task} (ht : s.tasks = .notify toId x b :: ts)
    (hok : toId = e → x = id → e ∉ s.unavailableIds) :
    ({ s with tasks := ts }.perform cfg (.notify toId x b)).outlook e id = s.outlook e id := by
  have hbefore : s.outlook e id = (s.pending id).or
      (((ts.filterMap (notice e id)).getLast?).or
        ((notice e id (.notify toId x b)).or (s.lastNotice e id))) := by
    rw [Router.outlook, Router.scheduled, ht, getLast?_filterMap_cons, Option.or_assoc]
  rw [hbefore]
  by_cases hmine : toId = e ∧ x = id
  · obtain ⟨rfl, rfl⟩ := hmine
    have hav : s.isElementAvailable toId = true := by
      simpa [Router.isElementAvailable] using hok rfl rfl
    have hav' : ({ s with tasks := ts } : Router).isElementAvailable toId = true := hav
    simp only [Router.perform, hne, if_false, hav', true_or, if_true, hf, Bool.false_eq_true]
    simp [Router.outlook, Router.scheduled, Router.lastNotice, afterSending_silent, notice,
      List.filterMap_append, Router.pending]
  · have hnone : notice e id (.notify toId x b) = none := if_neg hmine
    rw [hnone, Option.none_or]
    simp only [Router.perform]
    split
    · rfl
    · split
      · split
        · rfl
        · have hlast : (Function.update s.inbox toId ((x, b) :: s.inbox toId) e).lookup id =
              (s.inbox e).lookup id := by
            by_cases he : e = toId
            · subst he
              have hx : (id == x) = false := beq_eq_false_iff_ne.mpr fun h => hmine ⟨rfl, h.symm⟩
              simp only [Function.update_self, List.lookup, hx]
            · rw [Function.update_of_ne he]
          simp only [Router.outlook, Router.scheduled, Router.lastNotice, hlast,
            List.filterMap_append, afterSending_silent, List.nil_append, Router.pending]
      · rfl

theorem perform_notify_kept (cfg : Config) (s : Router) (toId x : Text) (b : Bool) :
    (s.perform cfg (.notify toId x b)).ipAddress = s.ipAddress ∧
      (s.perform cfg (.notify toId x b)).unavailableIds = s.unavailableIds := by
  simp only [Router.perform]
  split
  · exact ⟨rfl, rfl⟩
  · split
    · split <;> exact ⟨rfl, rfl⟩
    · exact ⟨rfl, rfl⟩

theorem inv_work (h : Inv e id ips recovered s) (hne : e ≠ id)
    (hf : Router.filtered cfg e id = false) {t : Task} {ts : List Task} (ht : s.tasks = t :: ts)
    (hok : PerformedInOrder e id s t) :
    Inv e id ips recovered ({ s with tasks := ts }.perform cfg t) := by
  cases t with
  | notify toId x b =>
    obtain ⟨hips, hids⟩ := perform_notify_kept cfg { s with tasks := ts } toId x b
    refine ⟨hips.trans h.known, by rw [hids]; exact h.distinct, ?_⟩
    exact h.agrees.congr (by rw [hids]) (outlook_notify hne hf ht hok)
  | markAvailable x =>
    have hsame : ({ s with tasks := ts } : Router).outlook e id = s.outlook e id := by
      have : notice e id (.markAvailable x) = none := rfl
      rw [Router.outlook, Router.outlook, Router.scheduled, Router.scheduled, ht,
        getLast?_filterMap_cons, this, Option.or_none]
      rfl
    have hagrees : Agrees id recovered { s with tasks := ts }
        (({ s with tasks := ts } : Router).outlook e id) := h.agrees.congr Iff.rfl hsame
    have hinv : Inv e id ips recovered { s with tasks := ts } := ⟨h.known, h.distinct, hagrees⟩
    exact inv_markAvailable hinv hok

/-- The notices of one pass that are for `e` and on `id`. -/
theorem getLast?_notices (he : e ∈ s.ipAddress) (ids : List Text) (b : Bool) :
    ((ids.flatMap (s.notifyElementAvailability · b)).filterMap (notice e id)).getLast? =
      if id ∈ ids then some b else none := by
  have hall : ∀ c ∈ (ids.flatMap (s.notifyElementAvailability · b)).filterMap (notice e id),
      c = b ∧ id ∈ ids := by
    intro c hc
    simp only [List.mem_filterMap, List.mem_flatMap, Router.notifyElementAvailability,
      List.mem_map] at hc
    obtain ⟨t, ⟨x, hx, toId, -, rfl⟩, ht⟩ := hc
    simp only [notice] at ht
    split at ht
    · rename_i hm
      exact ⟨(Option.some.inj ht).symm, hm.2 ▸ hx⟩
    · cases ht
  split
  · rename_i hid
    have hmem : b ∈ (ids.flatMap (s.notifyElementAvailability · b)).filterMap (notice e id) := by
      simp only [List.mem_filterMap, List.mem_flatMap, Router.notifyElementAvailability,
        List.mem_map]
      exact ⟨.notify e id b, ⟨id, hid, e, he, rfl⟩, by simp [notice]⟩
    rw [List.getLast?_eq_some_getLast (List.ne_nil_of_mem hmem), Option.some.injEq]
    exact (hall _ (List.getLast_mem _)).1
  · rename_i hid
    rw [List.getLast?_eq_none_iff, List.eq_nil_iff_forall_not_mem]
    exact fun c hc => hid (hall c hc).2

theorem inv_drain (h : Inv e id ips recovered s) (he : e ∈ ips) (ht : s.tasks = []) :
    Inv e id ips recovered s.drain := by
  have he' : e ∈ s.ipAddress := h.known ▸ he
  unfold Router.drain
  cases hn : s.next with
  | availability =>
    refine ⟨h.known, h.distinct, h.agrees.congr Iff.rfl ?_⟩
    simp only [Router.outlook, Router.scheduled, getLast?_notices he', Router.pending, hn, ht]
    by_cases ha : id ∈ s.toNotifyAvailability <;> by_cases hu : id ∈ s.toNotifyUnavailability <;>
      simp [ha, hu, Router.lastNotice]
  | unavailability =>
    refine ⟨h.known, h.distinct, h.agrees.congr Iff.rfl ?_⟩
    simp only [Router.outlook, Router.scheduled, getLast?_notices he', Router.pending, hn, ht]
    by_cases ha : id ∈ s.toNotifyAvailability <;> by_cases hu : id ∈ s.toNotifyUnavailability <;>
      simp [ha, hu, Router.lastNotice]

theorem inv_periodic (h : Inv e id ips recovered s) (he : e ∈ ips) (ht : s.tasks = [])
    (hok : id = cfg.routerId → id ∉ s.unavailableIds) :
    Inv e id ips recovered { s with tasks := s.notifyElementAvailability cfg.routerId true } := by
  have he' : e ∈ s.ipAddress := h.known ▸ he
  have hsched : ((s.notifyElementAvailability cfg.routerId true).filterMap (notice e id)).getLast? =
      if id = cfg.routerId then some true else none := by
    have : (([cfg.routerId].flatMap (s.notifyElementAvailability · true)).filterMap
        (notice e id)).getLast? = _ := getLast?_notices he' [cfg.routerId] true
    simpa using this
  refine ⟨h.known, h.distinct, ?_⟩
  by_cases hid : id = cfg.routerId
  · have hav := hok hid
    rw [if_pos hid] at hsched
    obtain ⟨h₁, -⟩ := h.agrees
    refine ⟨fun b hb => ?_, fun hu => absurd hu hav⟩
    simp only [Router.outlook, Router.scheduled, hsched, Option.some_or] at hb
    have hlast : (s.pending id).or (some true) = some b := hb
    cases hp : s.pending id with
    | some c =>
      rw [hp, Option.some_or] at hlast
      exact h₁ b (by rw [outlook_of_pending hp, hlast])
    | none =>
      rw [hp, Option.none_or] at hlast
      rw [← Option.some.inj hlast]
      simpa [Router.isElementAvailable] using hav
  · rw [if_neg hid] at hsched
    refine h.agrees.congr Iff.rfl ?_
    simp only [Router.outlook, Router.scheduled, hsched, ht]
    rfl

theorem inv_step (h : Inv e id ips recovered s) (he : e ∈ ips) (hne : e ≠ id)
    (hf : Router.filtered cfg e id = false) {a : Action} (hok : InOrder e id cfg s a)
    (hs : step cfg s a = some s') : Inv e id ips recovered s' := by
  cases a with
  | markElementAvailable x =>
    obtain rfl := Option.some.inj hs
    exact inv_markAvailable h hok
  | markElementUnavailable x =>
    obtain rfl := Option.some.inj hs
    exact inv_markUnavailable h hok
  | work =>
    simp only [step] at hs
    split at hs
    · cases hs
    · rename_i t ts ht
      obtain rfl := Option.some.inj hs
      exact inv_work h hne hf ht (hok t (by rw [ht]; rfl))
  | drain =>
    simp only [step] at hs
    split at hs
    · rename_i ht
      obtain rfl := Option.some.inj hs
      exact inv_drain h he (List.isEmpty_iff.mp ht)
    · cases hs
  | periodic =>
    simp only [step] at hs
    split at hs
    · rename_i ht _
      obtain rfl := Option.some.inj hs
      exact inv_periodic h he ht hok
    · cases hs

theorem inv_run (he : e ∈ ips) (hne : e ≠ id) (hf : Router.filtered cfg e id = false)
    {as : List Action} (h : Inv e id ips recovered s) (hok : RunInOrder e id cfg as s)
    (hrun : run cfg as s = some s') : Inv e id ips recovered s' := by
  induction as generalizing s with
  | nil => exact Option.some.inj hrun ▸ h
  | cons a as ih =>
    obtain ⟨t, ht, hrest⟩ := Option.bind_eq_some_iff.mp hrun
    exact ih (inv_step h he hne hf hok.1 ht) (hok.2 t ht) hrest

theorem inv_start (hd : recovered.Nodup) : Inv e id ips recovered (start ips recovered) := by
  refine ⟨rfl, hd, fun b hb => ?_, fun hu hr => absurd hu hr⟩
  simp [Router.outlook, Router.pending, Router.scheduled, Router.lastNotice, start] at hb

/-- Once both pending sets are empty and the notices taken from them are sent, the
last notice on an id that another element received says what the router holds. -/
theorem last_notice_agrees (he : e ∈ ips) (hne : e ≠ id) (hf : Router.filtered cfg e id = false)
    (hd : recovered.Nodup) {as : List Action} (hok : RunInOrder e id cfg as (start ips recovered))
    (hrun : run cfg as (start ips recovered) = some s) (hA : s.toNotifyAvailability = [])
    (hU : s.toNotifyUnavailability = []) (ht : s.tasks = []) :
    (∀ b, s.lastNotice e id = some b → b = s.isElementAvailable id) ∧
      (id ∈ s.unavailableIds → id ∉ recovered → s.lastNotice e id ≠ none) := by
  have hinv := inv_run he hne hf (inv_start hd) hok hrun
  have hout : s.outlook e id = s.lastNotice e id := by
    cases hn : s.next <;> simp [Router.outlook, Router.pending, Router.scheduled, hA, hU, ht, hn]
  rw [← hout]
  exact hinv.agrees

end Steps

section Example

def exampleConfig : Config where
  routerId := ['R']
  proxyId := ['P']
  spawnerId := ['S']
  lsId := ['L']
  comboShellId := ['C']
  noAckMessages := true

def crash : List Action := [.markElementUnavailable ['x'], .drain, .drain, .work, .work]

theorem crash_in_order : RunInOrder ['e'] ['x'] exampleConfig crash (start [['e']] []) := by
  refine ⟨fun _ h => absurd h (by decide), fun s₁ h₁ => ?_⟩
  obtain rfl := Option.some.inj h₁
  refine ⟨trivial, fun s₂ h₂ => ?_⟩
  obtain rfl := Option.some.inj h₂
  refine ⟨trivial, fun s₃ h₃ => ?_⟩
  obtain rfl := Option.some.inj h₃
  refine ⟨fun t ht => ?_, fun s₄ h₄ => ?_⟩
  · obtain rfl := Option.some.inj ht
    exact fun _ _ => by decide
  · obtain rfl := Option.some.inj h₄
    refine ⟨fun t ht => ?_, fun s₅ _ => trivial⟩
    obtain rfl := Option.some.inj ht
    exact fun h => absurd h (by decide)

/-- An element that is marked as unavailable is known to be so after one pass. -/
theorem last_notice_of_crash :
    ∃ s, run exampleConfig crash (start [['e']] []) = some s ∧
      s.lastNotice ['e'] ['x'] = some false ∧ ∀ b, s.lastNotice ['e'] ['x'] = some b →
        b = s.isElementAvailable ['x'] :=
  ⟨_, rfl, rfl, (last_notice_agrees (by decide) (by decide) (by decide) List.nodup_nil
    crash_in_order rfl rfl rfl rfl).1⟩

/-- Marked as unavailable and as available again between two passes, the element is
announced as available and then as unavailable, and stays so for the others. -/
theorem notice_overtaken_by_return :
    ∃ s, run exampleConfig [.markElementUnavailable ['x'], .markElementAvailable ['x'], .drain,
        .work, .work, .drain, .work, .work] (start [['e']] []) = some s ∧
      s.toNotifyAvailability = [] ∧ s.toNotifyUnavailability = [] ∧ s.tasks = [] ∧
      s.lastNotice ['e'] ['x'] = some false ∧ s.isElementAvailable ['x'] = true :=
  ⟨_, rfl, rfl, rfl, rfl, rfl, rfl⟩

end Example

end Availability

end OpenCog.Messaging
