import OpenCog.Messaging.Transport

/-! What arrives: every message once and in the order sent, with its payload less a
line end that stood last in it. -/
namespace OpenCog.Messaging

open Lines (getlines appendLine printInt atoi chomp)

/-- Ids are words, the header fits its buffer, and the payload holds no carriage
return. -/
structure Message.Valid (m : Message) : Prop where
  fromWord : ∀ c ∈ m.fromId, c.isWhitespace = false
  toWord : ∀ c ∈ m.toId, c.isWhitespace = false
  fits : (startMessage m).isSome
  noReturn : '\r' ∉ m.payload

/-- The message as it is read in the end. -/
def Message.arrived (m : Message) : Message := { m with payload := chomp m.payload }

theorem not_mem_printInt {c : Char} (hc : c.isWhitespace = true) (n : Int) : c ∉ printInt n := by
  intro hm
  cases n with
  | ofNat n =>
    have := (Lines.ne_of_isDigit (Lines.isDigit_of_mem hm)).1
    rw [hc] at this
    cases this
  | negSucc n =>
    rcases List.mem_cons.mp hm with rfl | hm
    · exact absurd hc (by decide)
    · have := (Lines.ne_of_isDigit (Lines.isDigit_of_mem hm)).1
      rw [hc] at this
      cases this

namespace ServerSocket

end ServerSocket

namespace ServerSocket

/-- Between two retrievals. -/
def Idle (s : ServerSocket) : Prop := s.reading = false ∧ s.currentMessage = []

end ServerSocket

/-! ## Runs -/

/-- The messages that were handed over. -/
def reads (calls : List Call) : List Message :=
  calls.filterMap fun
    | .newMessageRead m => some m
    | _ => none

/-- The message that has been read but not handed over. -/
def ServerSocket.open (s : ServerSocket) : List Message := if s.reading then [s.message] else []

namespace Network

/-- Nothing is midway, and what was sent has arrived or is queued. -/
structure Settled (known available : Text → Bool) (sent : Text → List Message) (s : Network) :
    Prop where
  known : s.known = known
  available : s.available = available
  sockets : ∀ conn, (s.sockets conn).reading = false
  receivers : ∀ id, (s.receivers id).Idle
  queued : ∀ id, ∀ m ∈ s.queues id, m.Valid
  delivered : ∀ id, ∃ taken, sent id = taken ++ s.queues id ∧
    reads (s.calls id) = taken.map Message.arrived

/-- The parties of a message are known, and the receiver is available. -/
def Sound (known available : Text → Bool) : Event → Prop
  | .send _ m => m.Valid ∧ known m.fromId = true ∧ known m.toId = true ∧
      available m.toId = true
  | .retrieve .. => True

variable {known available : Text → Bool} {sent : Text → List Message}

section Example

/-- Messages from `a` to `b`. -/
def note (payload : Text) : Message := ⟨['a'], ['b'], 1, payload⟩

end Example

end Network

end OpenCog.Messaging
