import OpenCog.Messaging.Availability

/-! Queued messages and their notifications: the handlers of the router that act on
the queue of one element, each as a thread that does one thing at a time, and the
element at the other end of the data socket. No connection fails. -/
namespace OpenCog.Messaging

namespace Mailbox

/-- A thread in `storeNewMessage`, by what it does next. -/
inductive Sender (M : Type) where
  | testing (knownFrom : Bool) (m : M)
  | unknown (m : M)
  | known (m : M)
  | pushing (m : M) (notify : Bool)
  | notifying
  | sending

/-- The thread that handles LOGIN. -/
inductive Login where
  | out
  | registered
  | examined (pending : Bool)
  | marked (pending : Bool)
  | counted (n : Nat)
  | sending (n : Nat)
  | done

/-- A thread in `sendRequestedMessages`. -/
inductive Retrieval where
  | testing (limit : Int)
  | checking (limit : Int)
  | delivering (limit : Int)

/-- What is written to the data socket. -/
inductive Line (M : Type) where
  | notify (n : Nat)
  | message (m : M)
  | noMore

end Mailbox

open Mailbox in
/-- All that belongs to one id. -/
structure Mailbox (M : Type) where
  /-- The id is a key of `portNumber`. -/
  known : Bool
  unavailable : Bool
  queue : Option (List M)
  login : Login
  senders : List (Sender M)
  retrievals : List Retrieval
  wire : List (Line M)
  /-- The message the element has begun to read. -/
  reading : Option M
  numberOfUnreadMessages : Int

namespace Mailbox

variable {M : Type}

/-- `MessageCentral::createQueue` without reset. -/
def createQueue (b : Mailbox M) : Mailbox M := { b with queue := some (b.queue.getD []) }

def knownID (b : Mailbox M) : Mailbox M := if b.known then b else b.createQueue

/-- A message for an id without a queue is dropped. -/
def push (b : Mailbox M) (m : M) : Mailbox M := { b with queue := b.queue.map (· ++ [m]) }

def queueSize (b : Mailbox M) : Nat := (b.queue.getD []).length

/-- One step of a sender, and what it goes on with. -/
def senderStep (b : Mailbox M) : Sender M → Mailbox M × List (Sender M)
  | .testing knownFrom m =>
    (b.knownID, if !knownFrom then [] else if b.known then [.known m] else [.unknown m])
  | .unknown m => ({ b with unavailable := true }, [.pushing m false])
  | .known m => (b, if b.unavailable then [] else [.pushing m true])
  | .pushing m notify => (b.push m, if notify then [.notifying] else [])
  | .notifying => (b, if b.unavailable then [] else [.sending])
  | .sending => ({ b with wire := b.wire ++ [.notify 1] }, [])

/-- `addNetworkElement`, and the notification of messages that were waiting. The
queues of some internal elements are reset. -/
def loginStep (resets : Bool) (b : Mailbox M) : Mailbox M :=
  match b.login with
  | .out | .done => { b with known := true, login := .registered }
  | .registered =>
    if resets then { b with queue := some [], login := .examined false }
    else { b.createQueue with login := .examined (decide (b.queueSize ≠ 0)) }
  | .examined pending => { b with unavailable := false, login := .marked pending }
  | .marked pending => { b with login := if pending then .counted b.queueSize else .done }
  | .counted n => { b with login := if b.unavailable then .done else .sending n }
  | .sending n => { b with wire := b.wire ++ [.notify n], login := .done }

/-- One step of `sendRequestedMessages`. The requests of an element come over one
connection, so that no other thread empties the queue between test and pop. -/
def retrievalStep (b : Mailbox M) : Retrieval → Mailbox M × List Retrieval
  | .testing limit => (b.knownID, if b.known then [.checking limit] else [])
  | .checking limit => (b, if b.queueSize = 0 then [] else [.delivering limit])
  | .delivering limit =>
    match b.queue with
    | some (m :: q) =>
      if limit ≠ 0 then
        ({ b with queue := some q, wire := b.wire ++ [.message m] },
          [.delivering (if limit > 0 then limit - 1 else limit)])
      else ({ b with wire := b.wire ++ [.noMore] }, [])
    | _ => ({ b with wire := b.wire ++ [.noMore] }, [])

/-- `newMessageRead` is called when the message after it, or the end, is seen. -/
def newMessageRead (b : Mailbox M) : Mailbox M :=
  match b.reading with
  | some _ => { b with reading := none, numberOfUnreadMessages := b.numberOfUnreadMessages - 1 }
  | none => b

def readLine (b : Mailbox M) : Line M → Mailbox M
  | .notify n => { b with numberOfUnreadMessages := b.numberOfUnreadMessages + n }
  | .message m => { b.newMessageRead with reading := some m }
  | .noMore => b.newMessageRead

def replaceAt {α : Type} (i : Nat) (new : List α) (l : List α) : List α :=
  l.take i ++ new ++ l.drop (i + 1)

inductive Action (M : Type) where
  | arrive (knownFrom : Bool) (m : M)
  | sender (i : Nat)
  | login
  | retrieveMessages (limit : Int)
  | retrieval (i : Nat)
  | element

def step (resets : Bool) (b : Mailbox M) : Action M → Option (Mailbox M)
  | .arrive knownFrom m => some { b with senders := b.senders ++ [.testing knownFrom m] }
  | .sender i => b.senders[i]?.map fun t =>
      let r := b.senderStep t
      { r.1 with senders := replaceAt i r.2 b.senders }
  | .login => some (b.loginStep resets)
  | .retrieveMessages limit =>
    if 0 < b.numberOfUnreadMessages then
      some { b with retrievals := b.retrievals ++ [.testing limit] }
    else none
  | .retrieval i => b.retrievals[i]?.map fun t =>
      let r := b.retrievalStep t
      { r.1 with retrievals := replaceAt i r.2 b.retrievals }
  | .element =>
    match b.wire with
    | [] => none
    | l :: ls => some ({ b with wire := ls }.readLine l)

/-- An element that has not logged in yet. -/
def initial : Mailbox M where
  known := false
  unavailable := false
  queue := none
  login := .out
  senders := []
  retrievals := []
  wire := []
  reading := none
  numberOfUnreadMessages := 0

end Mailbox

/-- The router with the elements it serves. -/
abbrev RouterState (M : Type) : Type := Text → Mailbox M

namespace RouterState

variable {M : Type}

inductive Action (M : Type) where
  /-- The last line of a message has come in. -/
  | newMessage (fromId toId : Text) (m : M)
  | serve (id : Text) (a : Mailbox.Action M)

/-- The sender is looked up first; the queue of an unknown one is created. -/
def step (resets : Text → Bool) (s : RouterState M) : Action M → Option (RouterState M)
  | .newMessage fromId toId m =>
    let s' : RouterState M := Function.update s fromId (s fromId).knownID
    ((s' toId).step (resets toId) (.arrive (s fromId).known m)).map (Function.update s' toId)
  | .serve id a => ((s id).step (resets id) a).map (Function.update s id)

def run (resets : Text → Bool) : List (Action M) → RouterState M → Option (RouterState M)
  | [], s => some s
  | a :: as, s => (step resets s a).bind (run resets as)

def initial : RouterState M := fun _ => .initial

end RouterState

end OpenCog.Messaging
