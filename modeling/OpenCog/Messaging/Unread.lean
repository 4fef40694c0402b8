import OpenCog.Messaging.Mailbox

/-! The counter of unread messages against the queue in the router. Up to the moment
when LOGIN has looked at the queue nothing may be notified, and from then on each
message is notified once. -/
namespace OpenCog.Messaging

namespace Mailbox

variable {M : Type}

/-- LOGIN has decided what it notifies; messages that come later are notified by
their senders. -/
def Login.settled : Login → Bool
  | .examined false | .marked false | .counted _ | .sending _ | .done => true
  | _ => false

/-- LOGIN has looked at the queue, and created it. -/
def Login.looked : Login → Bool
  | .out | .registered => false
  | _ => true

theorem Login.looked_of_settled {l : Login} (h : l.settled = true) : l.looked = true := by
  cases l <;> first | rfl | cases h

/-- What LOGIN is about to notify. -/
def Login.owed : Login → Nat
  | .counted n | .sending n => n
  | _ => 0

def Sender.owes : Sender M → Bool
  | .notifying | .sending => true
  | _ => false

@[simp] theorem Sender.owes_pushing (m : M) (b : Bool) : (pushing m b).owes = false := rfl
@[simp] theorem Sender.owes_notifying : (notifying : Sender M).owes = true := rfl
@[simp] theorem Sender.owes_sending : (sending : Sender M).owes = true := rfl

def Line.notified : Line M → Nat
  | .notify n => n
  | _ => 0

def Line.isMessage : Line M → Bool
  | .message _ => true
  | _ => false

def owedBySenders (b : Mailbox M) : Nat := b.senders.countP Sender.owes

def notifiedOnWire (b : Mailbox M) : Nat := (b.wire.map Line.notified).sum

/-- The messages that have left the queue and are not read yet. -/
def inTransit (b : Mailbox M) : Nat := b.wire.countP Line.isMessage + b.reading.toList.length

/-- Every message is notified once. -/
def Balanced (b : Mailbox M) : Prop :=
  b.numberOfUnreadMessages + b.notifiedOnWire + b.owedBySenders + b.login.owed =
    b.queueSize + b.inTransit

/-- The element has been told nothing. -/
structure Silent (b : Mailbox M) : Prop where
  unread : b.numberOfUnreadMessages = 0
  wire : b.wire = []
  reading : b.reading = none
  senders : b.owedBySenders = 0
  retrievals : b.retrievals = []

/-- If the element is in a message after these lines. -/
def openAfter (reading : Bool) : List (Line M) → Bool
  | [] => reading
  | .notify _ :: ls => openAfter reading ls
  | .message _ :: ls => openAfter true ls
  | .noMore :: ls => openAfter false ls

def Retrieval.delivers : Retrieval → Bool
  | .delivering _ => true
  | _ => false

structure Inv (b : Mailbox M) : Prop where
  before : b.login.settled = false → b.Silent
  after : b.login.settled = true → b.Balanced
  queued : b.login.looked = true → b.queue.isSome
  closing : openAfter b.reading.isSome b.wire = true → b.retrievals.any Retrieval.delivers = true

/-- A sender that found the id unknown pushes before LOGIN has looked at the queue
for the last time, one that found it known pushes after that; a notification finds
the element available; and LOGIN comes once. -/
def Timely (b : Mailbox M) : Action M → Prop
  | .sender i => ∀ t, b.senders[i]? = some t →
    match t with
    | .pushing _ notify => b.login.settled = notify
    | .notifying => b.unavailable = false
    | _ => True
  | .login =>
    match b.login with
    | .done => False
    | .counted _ => b.unavailable = false
    | _ => True
  | _ => True

/-- No handler is midway and no line in flight. -/
structure Quiescent (b : Mailbox M) : Prop where
  senders : b.senders = []
  retrievals : b.retrievals = []
  wire : b.wire = []
  login : b.login = .out ∨ b.login = .done

theorem replaceAt_split {α : Type} {i : Nat} {a : α} {l : List α} (h : l[i]? = some a)
    (new : List α) : ∃ l₁ l₂, l = l₁ ++ a :: l₂ ∧ replaceAt i new l = l₁ ++ new ++ l₂ := by
  obtain ⟨hi, rfl⟩ := List.getElem?_eq_some_iff.mp h
  exact ⟨l.take i, l.drop (i + 1), by simp, rfl⟩

theorem openAfter_append (r : Bool) (l₁ l₂ : List (Line M)) :
    openAfter r (l₁ ++ l₂) = openAfter (openAfter r l₁) l₂ := by
  induction l₁ generalizing r with
  | nil => rfl
  | cons l ls ih => cases l <;> exact ih _

/-! ## One lemma for each kind of step -/

@[simp] theorem queueSize_createQueue (b : Mailbox M) : b.createQueue.queueSize = b.queueSize := by
  simp [queueSize, createQueue]

/-- The element and the senders are as they were. -/
structure SameTraffic (b b' : Mailbox M) : Prop where
  unread : b'.numberOfUnreadMessages = b.numberOfUnreadMessages
  wire : b'.wire = b.wire
  reading : b'.reading = b.reading
  senders : b'.owedBySenders = b.owedBySenders
  retrievals : b'.retrievals = b.retrievals

theorem Silent.congr {b b' : Mailbox M} (h : b.Silent) (hb : SameTraffic b b') : b'.Silent :=
  ⟨hb.unread.trans h.unread, hb.wire.trans h.wire, hb.reading.trans h.reading,
    hb.senders.trans h.senders, hb.retrievals.trans h.retrievals⟩

theorem Balanced.congr {b b' : Mailbox M} (h : b.Balanced) (hb : SameTraffic b b')
    (hq : b'.queueSize = b.queueSize) (hl : b'.login.owed = b.login.owed) : b'.Balanced := by
  simp only [Balanced, notifiedOnWire, inTransit, hb.unread, hb.wire, hb.reading, hb.senders, hq,
    hl] at *
  exact h

theorem closing_congr {b b' : Mailbox M} (h : b.Inv) (hb : SameTraffic b b') :
    openAfter b'.reading.isSome b'.wire = true → b'.retrievals.any Retrieval.delivers = true := by
  rw [hb.reading, hb.wire, hb.retrievals]
  exact h.closing

/-- Nothing changed but flags, and a queue that may have been created. -/
theorem Inv.congr {b b' : Mailbox M} (h : b.Inv) (hb : SameTraffic b b') (hl : b'.login = b.login)
    (hq : b'.queueSize = b.queueSize) (hs : b.queue.isSome → b'.queue.isSome) : b'.Inv := by
  refine ⟨fun h' => (h.before (hl ▸ h')).congr hb, fun h' => ?_, fun h' => hs (h.queued (hl ▸ h')),
    closing_congr h hb⟩
  exact (h.after (hl ▸ h')).congr hb hq (by rw [hl])

theorem inv_createQueue {b : Mailbox M} (h : b.Inv) : b.createQueue.Inv :=
  h.congr ⟨rfl, rfl, rfl, rfl, rfl⟩ rfl (queueSize_createQueue b) fun _ => rfl

theorem inv_knownID {b : Mailbox M} (h : b.Inv) : b.knownID.Inv := by
  unfold knownID
  split
  · exact h
  · exact inv_createQueue h

theorem owed_replaceAt {b : Mailbox M} {t : Sender M} {i : Nat} (ht : b.senders[i]? = some t)
    (new : List (Sender M)) : (replaceAt i new b.senders).countP Sender.owes +
      (if t.owes then 1 else 0) = b.owedBySenders + new.countP Sender.owes := by
  obtain ⟨l₁, l₂, hl, hnew⟩ := replaceAt_split ht new
  rw [owedBySenders, hnew, hl, List.countP_append, List.countP_append, List.countP_append,
    List.countP_cons]
  omega

/-- A sender that owes as much after its step as before. -/
theorem inv_sender_same {b b' : Mailbox M} (h : b'.Inv) {t : Sender M} {new : List (Sender M)}
    {i : Nat} (ht : b.senders[i]? = some t) (hsame : b'.senders = b.senders)
    (howes : new.countP Sender.owes = if t.owes then 1 else 0) :
    ({ b' with senders := replaceAt i new b.senders } : Mailbox M).Inv := by
  have hcount : ({ b' with senders := replaceAt i new b.senders } : Mailbox M).owedBySenders =
      b'.owedBySenders := by
    have := owed_replaceAt ht new
    rw [howes] at this
    simp only [owedBySenders, hsame] at this ⊢
    omega
  exact h.congr ⟨rfl, rfl, rfl, hcount, rfl⟩ rfl rfl (fun hq => hq)

theorem inv_push {b : Mailbox M} (h : b.Inv) {i : Nat} {m : M}
    (ht : b.senders[i]? = some (.pushing m b.login.settled)) :
    ({ b.push m with
      senders := replaceAt i (if b.login.settled then [.notifying] else []) b.senders } :
        Mailbox M).Inv := by
  have hqueued : b.login.looked = true → (b.push m).queue.isSome := by
    intro hl
    simpa [push] using h.queued hl
  cases hs : b.login.settled with
  | false =>
    have hcount := owed_replaceAt ht []
    have hsilent := h.before hs
    simp only [hsilent.senders, Sender.owes_pushing, Bool.false_eq_true, if_false,
      List.countP_nil] at hcount
    have hsame : SameTraffic b ({ b.push m with senders := replaceAt i [] b.senders } : Mailbox M) :=
      ⟨rfl, rfl, rfl, hcount.trans hsilent.senders.symm, rfl⟩
    exact ⟨fun _ => hsilent.congr hsame, fun h' => absurd (hs.symm.trans h') (by decide),
      hqueued, h.closing⟩
  | true =>
    have hcount := owed_replaceAt ht [.notifying]
    have hbal := h.after hs
    obtain ⟨q, hq⟩ := Option.isSome_iff_exists.mp (h.queued (Login.looked_of_settled hs))
    refine ⟨fun h' => absurd (hs.symm.trans h') (by decide), fun _ => ?_, hqueued, h.closing⟩
    simp only [Sender.owes_pushing, Bool.false_eq_true, if_false, List.countP_singleton,
      Sender.owes_notifying, if_true] at hcount
    simp only [Balanced, owedBySenders, queueSize, push, hq, notifiedOnWire, inTransit,
      Option.map_some, Option.getD_some, List.length_append, List.length_singleton, if_true] at *
    omega

/-- A notification leaves for the element, paid for by the sender or by LOGIN. -/
theorem balanced_sent {b b' : Mailbox M} (h : b.Balanced) {n : Nat}
    (hw : b'.wire = b.wire ++ [.notify n])
    (hu : b'.numberOfUnreadMessages = b.numberOfUnreadMessages) (hr : b'.reading = b.reading)
    (hq : b'.queueSize = b.queueSize)
    (ho : b'.owedBySenders + b'.login.owed + n = b.owedBySenders + b.login.owed) :
    b'.Balanced := by
  simp only [Balanced, notifiedOnWire, inTransit, hw, hu, hr, hq, List.map_append, List.sum_append,
    List.map_cons, List.map_nil, List.sum_singleton, Line.notified, List.countP_append,
    List.countP_singleton, Line.isMessage, Bool.false_eq_true, if_false] at *
  omega

theorem closing_sent {b : Mailbox M} (h : b.Inv) {n : Nat}
    (ho : openAfter b.reading.isSome (b.wire ++ [.notify n]) = true) :
    b.retrievals.any Retrieval.delivers = true := by
  rw [openAfter_append] at ho
  exact h.closing ho

theorem inv_sent {b : Mailbox M} (h : b.Inv) {i : Nat} (ht : b.senders[i]? = some .sending) :
    ({ b with
      wire := b.wire ++ [.notify 1], senders := replaceAt i [] b.senders } : Mailbox M).Inv := by
  have hcount := owed_replaceAt ht []
  simp only [Sender.owes_sending, if_true, List.countP_nil] at hcount
  refine ⟨fun hs => ?_, fun hs => ?_, h.queued, closing_sent h⟩
  · have := (h.before hs).senders
    omega
  · refine balanced_sent (h.after hs) rfl rfl rfl rfl ?_
    simp only [owedBySenders] at hcount ⊢
    omega

theorem inv_sender {b : Mailbox M} (h : b.Inv) {i : Nat} {t : Sender M}
    (ht : b.senders[i]? = some t) (hok : b.Timely (.sender i)) :
    ({ (b.senderStep t).1 with
      senders := replaceAt i (b.senderStep t).2 b.senders } : Mailbox M).Inv := by
  have hok := hok t ht
  cases t with
  | testing knownFrom m =>
    refine inv_sender_same (inv_knownID h) ht ?_ ?_
    · unfold knownID
      split <;> rfl
    · cases knownFrom <;> cases hk : b.known <;> simp [senderStep, hk, Sender.owes]
  | unknown m =>
    have hinv : ({ b with unavailable := true } : Mailbox M).Inv :=
      h.congr ⟨rfl, rfl, rfl, rfl, rfl⟩ rfl rfl (fun hq => hq)
    exact inv_sender_same hinv ht rfl rfl
  | known m =>
    refine inv_sender_same h ht rfl ?_
    cases hk : b.unavailable <;> simp [senderStep, hk, Sender.owes]
  | pushing m notify =>
    simp only at hok
    subst hok
    exact inv_push h ht
  | notifying =>
    refine inv_sender_same h ht rfl ?_
    simp only at hok
    simp [senderStep, hok, Sender.owes]
  | sending => exact inv_sent h ht

theorem silent_balanced {b : Mailbox M} (h : b.Silent) (howed : b.login.owed = b.queueSize) :
    b.Balanced := by
  obtain ⟨h₁, h₂, h₃, h₄, -⟩ := h
  simp [Balanced, h₁, h₂, h₃, h₄, howed, notifiedOnWire, inTransit]

theorem inv_login {b : Mailbox M} (resets : Bool) (h : b.Inv) (hok : b.Timely .login) :
    (b.loginStep resets).Inv := by
  unfold Timely at hok
  cases hl : b.login with
  | out =>
    have hsilent := h.before (by rw [hl]; rfl)
    simp only [loginStep, hl]
    exact ⟨fun _ => hsilent.congr ⟨rfl, rfl, rfl, rfl, rfl⟩, fun hs => Bool.noConfusion hs,
      fun hs => Bool.noConfusion hs, h.closing⟩
  | registered =>
    have hsilent := h.before (by rw [hl]; rfl)
    simp only [loginStep, hl]
    split
    · exact ⟨fun hs => Bool.noConfusion hs,
        fun _ => silent_balanced (hsilent.congr ⟨rfl, rfl, rfl, rfl, rfl⟩) rfl, fun _ => rfl,
        h.closing⟩
    · have hsame : SameTraffic b
          ({ b.createQueue with login := .examined (decide (b.queueSize ≠ 0)) } : Mailbox M) :=
        ⟨rfl, rfl, rfl, rfl, rfl⟩
      refine ⟨fun _ => hsilent.congr hsame, fun hs => ?_, fun _ => rfl, h.closing⟩
      apply silent_balanced (hsilent.congr hsame)
      by_cases hq : b.queueSize = 0
      · exact (hq ▸ (queueSize_createQueue b).symm : 0 = b.createQueue.queueSize)
      · simp [hq, Login.settled] at hs
  | examined pending =>
    simp only [loginStep, hl]
    refine ⟨fun hs => ?_, fun hs => ?_, fun _ => h.queued (by rw [hl]; rfl), h.closing⟩
    · exact (h.before (by rw [hl]; cases pending <;> exact hs)).congr ⟨rfl, rfl, rfl, rfl, rfl⟩
    · exact (h.after (by rw [hl]; cases pending <;> exact hs)).congr ⟨rfl, rfl, rfl, rfl, rfl⟩ rfl
        (by rw [hl]; rfl)
  | marked pending =>
    simp only [loginStep, hl]
    refine ⟨fun hs => ?_, fun hs => ?_, fun _ => h.queued (by rw [hl]; rfl), h.closing⟩
    · cases pending <;> cases hs
    · cases pending with
      | false =>
        have hbal := h.after (by rw [hl]; rfl)
        exact hbal.congr ⟨rfl, rfl, rfl, rfl, rfl⟩ rfl (by rw [hl]; rfl)
      | true =>
        have hsilent := h.before (by rw [hl]; rfl)
        exact silent_balanced (hsilent.congr ⟨rfl, rfl, rfl, rfl, rfl⟩) rfl
  | counted n =>
    simp only [hl] at hok
    simp only [loginStep, hl, hok, Bool.false_eq_true, if_false]
    exact ⟨fun hs => Bool.noConfusion hs,
      fun _ => (h.after (by rw [hl]; rfl)).congr ⟨rfl, rfl, rfl, rfl, rfl⟩ rfl (by rw [hl]; rfl),
      fun _ => h.queued (by rw [hl]; rfl), h.closing⟩
  | sending n =>
    simp only [loginStep, hl]
    refine ⟨fun hs => Bool.noConfusion hs, fun _ => ?_, fun _ => h.queued (by rw [hl]; rfl),
      closing_sent h⟩
    refine balanced_sent (h.after (by rw [hl]; rfl)) rfl rfl rfl rfl ?_
    simp [owedBySenders, hl, Login.owed]
  | done =>
    simp only [hl] at hok

/-- While a thread delivers, the element may be left in the middle of a message. -/
theorem any_replaceAt {b : Mailbox M} {t : Retrieval} {i : Nat} (ht : b.retrievals[i]? = some t)
    {new : List Retrieval} (hd : t.delivers = true → new.any Retrieval.delivers = true)
    (h : b.retrievals.any Retrieval.delivers = true) :
    (replaceAt i new b.retrievals).any Retrieval.delivers = true := by
  obtain ⟨l₁, l₂, hl, hnew⟩ := replaceAt_split ht new
  rw [hnew]
  rw [hl] at h
  simp only [List.any_append, List.any_cons, Bool.or_eq_true] at h ⊢
  rcases h with h | h | h
  · exact .inl (.inl h)
  · exact .inl (.inr (hd h))
  · exact .inr h

/-- No request is made before the element has been told of a message. -/
theorem settled_of_retrieval {b : Mailbox M} (h : b.Inv) {t : Retrieval} {i : Nat}
    (ht : b.retrievals[i]? = some t) : b.login.settled = true := by
  cases hs : b.login.settled with
  | true => rfl
  | false =>
    rw [(h.before hs).retrievals] at ht
    cases ht

theorem inv_retrieval_same {b b' : Mailbox M} (h : b'.Inv) {t : Retrieval} {i : Nat}
    (ht : b.retrievals[i]? = some t) {new : List Retrieval} (hsame : b'.retrievals = b.retrievals)
    (hd : t.delivers = true → new.any Retrieval.delivers = true) :
    ({ b' with retrievals := replaceAt i new b.retrievals } : Mailbox M).Inv := by
  have hs := settled_of_retrieval h (hsame ▸ ht)
  refine ⟨fun h' => absurd (hs.symm.trans h') (by decide), h.after, h.queued, fun ho => ?_⟩
  exact any_replaceAt ht hd (hsame ▸ h.closing ho)

theorem inv_popped {b : Mailbox M} (h : b.Inv) {i : Nat} {limit limit' : Int}
    (ht : b.retrievals[i]? = some (.delivering limit)) {m : M} {q : List M}
    (hq : b.queue = some (m :: q)) :
    ({ b with
      queue := some q, wire := b.wire ++ [.message m],
      retrievals := replaceAt i [.delivering limit'] b.retrievals } : Mailbox M).Inv := by
  have hs := settled_of_retrieval h ht
  refine ⟨fun h' => absurd (hs.symm.trans h') (by decide), fun _ => ?_, fun _ => rfl, fun _ => ?_⟩
  · have hbal := h.after hs
    simp only [Balanced, notifiedOnWire, inTransit, owedBySenders, queueSize, hq,
      Option.getD_some, List.length_cons, List.map_append, List.sum_append, List.map_cons,
      List.map_nil, List.sum_singleton, Line.notified, List.countP_append, List.countP_singleton,
      Line.isMessage, if_true] at *
    omega
  · obtain ⟨l₁, l₂, -, hnew⟩ := replaceAt_split ht [.delivering limit']
    rw [hnew]
    simp [Retrieval.delivers]

theorem inv_finished {b : Mailbox M} (h : b.Inv) {i : Nat} {limit : Int}
    (ht : b.retrievals[i]? = some (.delivering limit)) :
    ({ b with
      wire := b.wire ++ [.noMore], retrievals := replaceAt i [] b.retrievals } : Mailbox M).Inv := by
  have hs := settled_of_retrieval h ht
  refine ⟨fun h' => absurd (hs.symm.trans h') (by decide), fun _ => ?_, h.queued, fun ho => ?_⟩
  · have hbal := h.after hs
    simp only [Balanced, notifiedOnWire, inTransit, owedBySenders, queueSize, List.map_append,
      List.sum_append, List.map_cons, List.map_nil, List.sum_singleton, Line.notified,
      List.countP_append, List.countP_singleton, Line.isMessage, Bool.false_eq_true,
      if_false] at *
    omega
  · rw [openAfter_append] at ho
    cases ho

theorem retrievalStep_delivering (b : Mailbox M) (limit : Int) :
    (∃ m q, b.queue = some (m :: q) ∧ b.retrievalStep (.delivering limit) =
      ({ b with queue := some q, wire := b.wire ++ [.message m] },
        [.delivering (if limit > 0 then limit - 1 else limit)])) ∨
    b.retrievalStep (.delivering limit) = ({ b with wire := b.wire ++ [.noMore] }, []) := by
  simp only [retrievalStep]
  split
  · rename_i m q hq
    split
    · exact .inl ⟨m, q, hq, rfl⟩
    · exact .inr rfl
  · exact .inr rfl

theorem inv_retrieval {b : Mailbox M} (h : b.Inv) {i : Nat} {t : Retrieval}
    (ht : b.retrievals[i]? = some t) :
    ({ (b.retrievalStep t).1 with
      retrievals := replaceAt i (b.retrievalStep t).2 b.retrievals } : Mailbox M).Inv := by
  cases t with
  | testing limit =>
    refine inv_retrieval_same (inv_knownID h) ht ?_ fun hd => Bool.noConfusion hd
    unfold knownID
    split <;> rfl
  | checking limit => exact inv_retrieval_same h ht rfl fun hd => Bool.noConfusion hd
  | delivering limit =>
    rcases retrievalStep_delivering b limit with ⟨m, q, hq, e⟩ | e
    · rw [e]
      exact inv_popped h ht hq
    · rw [e]
      exact inv_finished h ht

theorem inv_element {b : Mailbox M} (h : b.Inv) {l : Line M} {ls : List (Line M)}
    (hw : b.wire = l :: ls) : ({ b with wire := ls }.readLine l).Inv := by
  have hs : b.login.settled = true := by
    by_contra hs
    have := (h.before (by simpa using hs)).wire
    rw [hw] at this
    cases this
  have hbal := h.after hs
  have hclose := h.closing
  have hno : ∀ {P : Prop}, b.login.settled = false → P := fun h' =>
    absurd (hs.symm.trans h') (by decide)
  rw [hw] at hclose
  cases l with
  | notify n =>
    refine ⟨hno, fun _ => ?_, h.queued, hclose⟩
    simp only [readLine, Balanced, notifiedOnWire, inTransit, owedBySenders, queueSize, hw,
      List.map_cons, List.sum_cons, Line.notified, List.countP_cons, Line.isMessage,
      Bool.false_eq_true, if_false] at *
    omega
  | message m =>
    cases hr : b.reading with
    | none =>
      simp only [readLine, newMessageRead]
      refine ⟨hno, fun _ => ?_, h.queued, hclose⟩
      simp only [Balanced, notifiedOnWire, inTransit, owedBySenders, queueSize, hw, hr,
        List.map_cons, List.sum_cons, Line.notified, List.countP_cons, Line.isMessage, if_true,
        Option.toList_none, Option.toList_some, List.length_nil, List.length_singleton] at *
      omega
    | some m' =>
      simp only [readLine, newMessageRead]
      refine ⟨hno, fun _ => ?_, h.queued, hclose⟩
      simp only [Balanced, notifiedOnWire, inTransit, owedBySenders, queueSize, hw, hr,
        List.map_cons, List.sum_cons, Line.notified, List.countP_cons, Line.isMessage, if_true,
        Option.toList_some, List.length_singleton] at *
      omega
  | noMore =>
    cases hr : b.reading with
    | none =>
      simp only [readLine, newMessageRead]
      refine ⟨hno, fun _ => ?_, h.queued,
        fun ho => hclose (show openAfter false ls = true by simpa [hr] using ho)⟩
      simp only [Balanced, notifiedOnWire, inTransit, owedBySenders, queueSize, hw, hr,
        List.map_cons, List.sum_cons, Line.notified, List.countP_cons, Line.isMessage,
        Bool.false_eq_true, if_false, Option.toList_none, List.length_nil] at *
      omega
    | some m' =>
      simp only [readLine, newMessageRead]
      refine ⟨hno, fun _ => ?_, h.queued, hclose⟩
      simp only [Balanced, notifiedOnWire, inTransit, owedBySenders, queueSize, hw, hr,
        List.map_cons, List.sum_cons, Line.notified, List.countP_cons, Line.isMessage,
        Bool.false_eq_true, if_false, Option.toList_none, Option.toList_some, List.length_nil,
        List.length_singleton] at *
      omega

/-! ## Runs -/

theorem inv_step {resets : Bool} {b b' : Mailbox M} {a : Action M} (h : b.Inv) (hok : b.Timely a)
    (hstep : b.step resets a = some b') : b'.Inv := by
  cases a with
  | arrive knownFrom m =>
    obtain rfl := Option.some.inj hstep
    exact h.congr ⟨rfl, rfl, rfl, by simp [owedBySenders, Sender.owes], rfl⟩ rfl rfl (fun hq => hq)
  | sender i =>
    obtain ⟨t, ht, rfl⟩ := Option.map_eq_some_iff.mp hstep
    exact inv_sender h ht hok
  | login =>
    obtain rfl := Option.some.inj hstep
    exact inv_login resets h hok
  | retrieveMessages limit =>
    simp only [step] at hstep
    split at hstep
    · rename_i hpos
      obtain rfl := Option.some.inj hstep
      refine ⟨fun hs => ?_, h.after, h.queued, fun ho => ?_⟩
      · have := (h.before hs).unread
        omega
      · rw [List.any_append, h.closing ho, Bool.true_or]
    · cases hstep
  | retrieval i =>
    obtain ⟨t, ht, rfl⟩ := Option.map_eq_some_iff.mp hstep
    exact inv_retrieval h ht
  | element =>
    simp only [step] at hstep
    split at hstep
    · cases hstep
    · rename_i l ls hw
      obtain rfl := Option.some.inj hstep
      exact inv_element h hw

theorem inv_initial : (initial : Mailbox M).Inv :=
  ⟨fun _ => ⟨rfl, rfl, rfl, rfl, rfl⟩, fun h => Bool.noConfusion h, fun h => Bool.noConfusion h,
    fun h => Bool.noConfusion h⟩

/-- When all is quiet the counter is the length of the queue. -/
theorem unread_of_quiescent {b : Mailbox M} (h : b.Inv) (hq : b.Quiescent) (hl : b.login = .done) :
    b.numberOfUnreadMessages = b.queueSize := by
  have hclosed : b.reading = none := by
    cases hr : b.reading with
    | none => rfl
    | some m =>
      have := h.closing (by rw [hr, hq.wire]; rfl)
      rw [hq.retrievals] at this
      cases this
  have hbal := h.after (by rw [hl]; rfl)
  simpa [Balanced, notifiedOnWire, inTransit, owedBySenders, hq.wire, hq.senders, hl, hclosed,
    Login.owed] using hbal

end Mailbox

namespace RouterState

variable {M : Type} {resets : Text → Bool} {id : Text}

/-- The step is timely for the element. -/
def Timely (id : Text) (s : RouterState M) : Action M → Prop
  | .newMessage .. => True
  | .serve x a => x = id → (s id).Timely a

def RunTimely (resets : Text → Bool) (id : Text) : List (Action M) → RouterState M → Prop
  | [], _ => True
  | a :: as, s => Timely id s a ∧ ∀ s', step resets s a = some s' → RunTimely resets id as s'

theorem inv_update {s : RouterState M} {x : Text} {b : Mailbox M} (h : (s id).Inv)
    (hb : x = id → b.Inv) : (Function.update s x b id).Inv := by
  by_cases hx : id = x
  · subst hx
    rw [Function.update_self]
    exact hb rfl
  · rw [Function.update_of_ne hx]
    exact h

theorem inv_step {s s' : RouterState M} {a : Action M} (h : (s id).Inv) (hok : Timely id s a)
    (hstep : step resets s a = some s') : (s' id).Inv := by
  cases a with
  | newMessage fromId toId m =>
    simp only [step] at hstep
    obtain ⟨b, hb, rfl⟩ := Option.map_eq_some_iff.mp hstep
    have hfrom : (Function.update s fromId (s fromId).knownID id).Inv :=
      inv_update h fun hx => Mailbox.inv_knownID (hx ▸ h)
    refine inv_update hfrom fun hx => ?_
    subst hx
    have hok : Mailbox.Timely (Function.update s fromId (s fromId).knownID toId)
      (.arrive (s fromId).known m) := trivial
    exact Mailbox.inv_step hfrom hok hb
  | serve x a =>
    obtain ⟨b, hb, rfl⟩ := Option.map_eq_some_iff.mp hstep
    refine inv_update h fun hx => ?_
    subst hx
    exact Mailbox.inv_step h (hok rfl) hb

theorem inv_run {as : List (Action M)} {s s' : RouterState M} (h : (s id).Inv)
    (hok : RunTimely resets id as s) (hrun : run resets as s = some s') : (s' id).Inv := by
  induction as generalizing s with
  | nil => exact Option.some.inj hrun ▸ h
  | cons a as ih =>
    obtain ⟨t, ht, hrest⟩ := Option.bind_eq_some_iff.mp hrun
    exact ih (inv_step h hok.1 ht) (hok.2 t ht) hrest

/-- In a run that is timely for it, a logged-in element knows of every message in
its queue whenever all is quiet. -/
theorem no_message_stranded {as : List (Action M)} {s : RouterState M}
    (hok : RunTimely resets id as initial) (hrun : run resets as initial = some s)
    (hq : (s id).Quiescent) (hl : (s id).login = .done) :
    (s id).numberOfUnreadMessages = (s id).queueSize ∧
      ((s id).queueSize ≠ 0 → 0 < (s id).numberOfUnreadMessages) := by
  have heq := Mailbox.unread_of_quiescent (inv_run Mailbox.inv_initial hok hrun) hq hl
  exact ⟨heq, fun hne => by omega⟩

section Example

/-- The element at `e` logs in, and its own message to itself is stored. -/
def letter : List (Action Unit) :=
  List.replicate 4 (.serve ['e'] .login) ++ [.newMessage ['e'] ['e'] ()] ++
    List.replicate 5 (.serve ['e'] (.sender 0)) ++ [.serve ['e'] .element]

theorem RunTimely.cons {a : Action M} {as : List (Action M)} {s t : RouterState M}
    (ha : Timely id s a) (hs : step resets s a = some t) (h : RunTimely resets id as t) :
    RunTimely resets id (a :: as) s :=
  ⟨ha, fun _ ht' => Option.some.inj (hs.symm.trans ht') ▸ h⟩

theorem letter_timely : RunTimely (fun _ => false) ['e'] letter initial := by
  refine .cons (fun _ => trivial) rfl (.cons (fun _ => trivial) rfl ?_)
  refine .cons (fun _ => trivial) rfl (.cons (fun _ => trivial) rfl (.cons trivial rfl ?_))
  refine .cons (fun _ t ht => ?_) rfl (.cons (fun _ t ht => ?_) rfl (.cons (fun _ t ht => ?_) rfl
    (.cons (fun _ t ht => ?_) rfl (.cons (fun _ t ht => ?_) rfl ?_))))
  · obtain rfl := Option.some.inj ht
    trivial
  · obtain rfl := Option.some.inj ht
    trivial
  · obtain rfl := Option.some.inj ht
    rfl
  · obtain rfl := Option.some.inj ht
    rfl
  · obtain rfl := Option.some.inj ht
    trivial
  · exact .cons (fun _ => trivial) rfl trivial

theorem unread_of_letter :
    ∃ s, run (fun _ => false) letter initial = some s ∧ (s ['e']).queueSize = 1 ∧
      (s ['e']).numberOfUnreadMessages = (s ['e']).queueSize :=
  ⟨_, rfl, rfl, (no_message_stranded letter_timely rfl ⟨rfl, rfl, rfl, .inr rfl⟩ rfl).1⟩

/-- A sender finds `e` unknown; `e` logs in and is told of nothing; the message is
then queued without a notification. -/
theorem message_stranded_by_login :
    ∃ s : RouterState Unit, run (fun _ => false)
        (List.replicate 4 (.serve ['a'] .login) ++ [.newMessage ['a'] ['e'] (),
          .serve ['e'] (.sender 0)] ++ List.replicate 4 (.serve ['e'] .login) ++
          [.serve ['e'] (.sender 0), .serve ['e'] (.sender 0)]) initial = some s ∧
      (s ['e']).Quiescent ∧ (s ['e']).login = .done ∧ (s ['e']).queueSize = 1 ∧
      (s ['e']).numberOfUnreadMessages = 0 :=
  ⟨_, rfl, ⟨rfl, rfl, rfl, .inr rfl⟩, rfl, rfl, rfl⟩

end Example

end RouterState

end OpenCog.Messaging
