import OpenCog.Lib.Lines
import OpenCog.Messaging.Availability

/-! A message on its way: `sendMessage` prints it, the socket of the router reads it
line by line and stores it, `sendRequestedMessages` prints it again, and the socket of
the receiver reads it. A front of an empty queue of arguments and a header that does
not fit its buffer have no defined result. -/
namespace OpenCog.Messaging

open Lines (getlines appendLine printInt atoi)

/-- A message on the wire. The payload is a C string. -/
structure Message where
  fromId : Text
  toId : Text
  type : Int
  payload : Text
  deriving DecidableEq

/-! ## Command words -/

namespace Command

def login : Text := ['L', 'O', 'G', 'I', 'N']
def logout : Text := ['L', 'O', 'G', 'O', 'U', 'T']
def clearMessageQueue : Text :=
  ['C', 'L', 'E', 'A', 'R', '_', 'M', 'E', 'S', 'S', 'A', 'G', 'E', '_', 'Q', 'U', 'E', 'U',
    'E']
def shutdown : Text := ['S', 'H', 'U', 'T', 'D', 'O', 'W', 'N']
def requestUnreadMessages : Text :=
  ['R', 'E', 'Q', 'U', 'E', 'S', 'T', '_', 'U', 'N', 'R', 'E', 'A', 'D', '_', 'M', 'E', 'S',
    'S', 'A', 'G', 'E', 'S']
def newMessage : Text := ['N', 'E', 'W', '_', 'M', 'E', 'S', 'S', 'A', 'G', 'E']
def startMessage : Text := ['S', 'T', 'A', 'R', 'T', '_', 'M', 'E', 'S', 'S', 'A', 'G', 'E']
def noMoreMessages : Text :=
  ['N', 'O', '_', 'M', 'O', 'R', 'E', '_', 'M', 'E', 'S', 'S', 'A', 'G', 'E', 'S']
def notifyNewMessage : Text :=
  ['N', 'O', 'T', 'I', 'F', 'Y', '_', 'N', 'E', 'W', '_', 'M', 'E', 'S', 'S', 'A', 'G', 'E']
def unavailableElement : Text :=
  ['U', 'N', 'A', 'V', 'A', 'I', 'L', 'A', 'B', 'L', 'E', '_', 'E', 'L', 'E', 'M', 'E', 'N',
    'T']
def availableElement : Text :=
  ['A', 'V', 'A', 'I', 'L', 'A', 'B', 'L', 'E', '_', 'E', 'L', 'E', 'M', 'E', 'N', 'T']

end Command

/-! ## The sender -/

/-- `NetworkElement::sendMessage`. -/
def sendMessage (m : Message) : Text :=
  let lineCount := m.payload.count '\n' + 1
  Command.newMessage ++ [' '] ++ m.fromId ++ [' '] ++ m.toId ++ [' '] ++ printInt m.type ++ [' '] ++
    printInt lineCount ++ ['\n'] ++ m.payload ++ ['\n']

/-! ## The socket of the router -/

inductive Request where
  | login (id ip : Text) (port : Int)
  | logout (id : Text)
  | clearMessageQueue (requestor : Text) (target : Option Text)
  | shutdown
  | requestUnreadMessages (id : Text) (limit : Int)
  | storeNewMessage (m : Message)
  | invalid (command : Text)

structure RouterServerSocket where
  /-- READING_MESSAGE, not WAITING_COMMAND. -/
  reading : Bool
  currentMessageFrom : Text
  currentMessageTo : Text
  currentMessageType : Int
  currentMessageSize : Int
  currentMessageText : Text
  firstLineOfMessageFlag : Bool
  messageLinesCountdown : Int

namespace RouterServerSocket

def initial : RouterServerSocket where
  reading := false
  currentMessageFrom := []
  currentMessageTo := []
  currentMessageType := 0
  currentMessageSize := 0
  currentMessageText := []
  firstLineOfMessageFlag := true
  messageLinesCountdown := 0

/-- The message that has been read. -/
def message (s : RouterServerSocket) : Message where
  fromId := s.currentMessageFrom
  toId := s.currentMessageTo
  type := s.currentMessageType
  payload := s.currentMessageText

def newMessage (s : RouterServerSocket) (fromId toId type size : Text) : RouterServerSocket :=
  { s with
    currentMessageFrom := fromId
    currentMessageTo := toId
    currentMessageType := atoi type
    currentMessageSize := atoi size
    currentMessageText := []
    reading := true
    firstLineOfMessageFlag := true
    messageLinesCountdown := atoi size }

/-- WAITING_COMMAND. -/
def onCommand (spawnerId : Text) (s : RouterServerSocket) (command : Text) (args : List Text) :
    Option (RouterServerSocket × Option Request) :=
  if command = Command.login then
    match args with
    | id :: ip :: port :: _ => some (s, some (.login id ip (atoi port)))
    | _ => none
  else if command = Command.logout then
    match args with
    | id :: _ => some (s, some (.logout id))
    | _ => none
  else if command = Command.clearMessageQueue then
    match args with
    | requestor :: args =>
      if requestor ≠ spawnerId then some (s, some (.clearMessageQueue requestor none))
      else
        match args with
        | target :: _ => some (s, some (.clearMessageQueue requestor (some target)))
        | [] => none
    | [] => none
  else if command = Command.shutdown then some (s, some .shutdown)
  else if command = Command.requestUnreadMessages then
    match args with
    | id :: limit :: _ => some (s, some (.requestUnreadMessages id (atoi limit)))
    | _ => none
  else if command = Command.newMessage then
    match args with
    | fromId :: toId :: type :: size :: _ => some (s.newMessage fromId toId type size, none)
    | _ => none
  else some (s, some (.invalid command))

/-- READING_MESSAGE. -/
def onMessageLine (s : RouterServerSocket) (line : Text) : RouterServerSocket :=
  { s with
    firstLineOfMessageFlag := false
    currentMessageText := appendLine s.firstLineOfMessageFlag s.currentMessageText line
    messageLinesCountdown := s.messageLinesCountdown - 1 }

/-- The command line is cut at every blank. -/
def onLine (spawnerId : Text) (s : RouterServerSocket) (line : Text) :
    Option (RouterServerSocket × Option Request) :=
  if s.reading then
    let s := s.onMessageLine line
    if s.messageLinesCountdown = 0 then
      some ({ s with reading := false }, some (.storeNewMessage s.message))
    else some (s, none)
  else onCommand spawnerId s ((line.splitOn ' ').head?.getD []) (line.splitOn ' ').tail

end RouterServerSocket

/-- A carriage return at the end of a line is dropped. -/
def dropReturn (line : Text) : Text := if line.getLast? = some '\r' then line.dropLast else line

/-! ## Delivery -/

/-- `sprintf` into `char s[256]`. -/
def startMessage (m : Message) : Option Text :=
  let s := ['c'] ++ Command.startMessage ++ [' '] ++ m.fromId ++ [' '] ++ m.toId ++ [' '] ++ printInt m.type
  if s.length < 256 then some s else none

def messageLines (m : Message) : Option (List Text) :=
  (startMessage m).map (· :: (getlines m.payload).map ('d' :: ·))

/-- The loop of `sendRequestedMessages`: the lines written, and what stays queued. -/
def deliver : Int → List Message → Option (List Text × List Message)
  | _, [] => some (['c' :: Command.noMoreMessages], [])
  | limit, m :: queue =>
    if limit = 0 then some (['c' :: Command.noMoreMessages], m :: queue)
    else
      (messageLines m).bind fun ls =>
        (deliver (if limit > 0 then limit - 1 else limit) queue).map fun r => (ls ++ r.1, r.2)

def sendRequestedMessages (limit : Int) (queue : List Message) :
    Option (List Text × List Message) :=
  if queue.isEmpty then some ([], []) else deliver limit queue

/-! ## The socket of the receiver -/

/-- Calls on the network element. -/
inductive Call where
  | newMessageInRouter (n : Int)
  | newMessageRead (m : Message)
  | noMoreMessages
  | unavailableElement (id : Text)
  | availableElement (id : Text)

structure ServerSocket where
  /-- READING_MESSAGES, not DOING_NOTHING. -/
  reading : Bool
  currentMessage : Text
  lineCount : Nat
  currentMessageFrom : Text
  currentMessageTo : Text
  currentMessageType : Int

namespace ServerSocket

def initial : ServerSocket where
  reading := false
  currentMessage := []
  lineCount := 0
  currentMessageFrom := []
  currentMessageTo := []
  currentMessageType := 0

def message (s : ServerSocket) : Message where
  fromId := s.currentMessageFrom
  toId := s.currentMessageTo
  type := s.currentMessageType
  payload := s.currentMessage

def cleared (s : ServerSocket) : ServerSocket :=
  { s with
    currentMessage := []
    lineCount := 0
    currentMessageFrom := []
    currentMessageTo := []
    currentMessageType := -1 }

/-- The arguments of a START_MESSAGE; too few of them are ignored. -/
def readHeader (s : ServerSocket) : List Text → ServerSocket
  | fromId :: toId :: type :: rest =>
    { s with
      currentMessageFrom := fromId
      currentMessageTo := toId
      currentMessageType := atoi ([' '].intercalate (type :: rest))
      lineCount := 0 }
  | _ => s

def startMessage (s : ServerSocket) (args : List Text) : ServerSocket × List Call :=
  if s.reading then (s.cleared.readHeader args, [.newMessageRead s.message])
  else ({ s with reading := true }.readHeader args, [])

def noMoreMessages (s : ServerSocket) : ServerSocket × List Call :=
  if s.reading then ({ s.cleared with reading := false }, [.newMessageRead s.message, .noMoreMessages])
  else (s, [])

/-- The id of an availability notice; without a blank it is the whole line. -/
def noticeId (contents : Text) : List Text → Option Text
  | [] => some contents
  | [id] => some id
  | _ => none

def onCommand (s : ServerSocket) (contents command : Text) (args : List Text) :
    ServerSocket × List Call :=
  if command = Command.notifyNewMessage then
    (s, [.newMessageInRouter (atoi (if args.isEmpty then contents else [' '].intercalate args))])
  else if command = Command.unavailableElement then
    (s, (noticeId contents args).toList.map .unavailableElement)
  else if command = Command.availableElement then
    (s, (noticeId contents args).toList.map .availableElement)
  else if command = Command.startMessage then s.startMessage args
  else if command = Command.noMoreMessages then s.noMoreMessages
  else (s, [])

def onData (s : ServerSocket) (contents : Text) : ServerSocket :=
  if s.reading then
    { s with
      currentMessage := appendLine (decide (s.lineCount = 0)) s.currentMessage contents
      lineCount := s.lineCount + 1 }
  else s

/-- The first character says if the line is a command or data. -/
def onLine (s : ServerSocket) : Text → ServerSocket × List Call
  | 'c' :: contents =>
    s.onCommand contents ((contents.splitOn ' ').head?.getD []) (contents.splitOn ' ').tail
  | 'd' :: contents => (s.onData contents, [])
  | _ => (s, [])

def onLines (s : ServerSocket) : List Text → ServerSocket × List Call
  | [] => (s, [])
  | l :: ls =>
    let r := s.onLine (dropReturn l)
    let t := r.1.onLines ls
    (t.1, r.2 ++ t.2)

end ServerSocket

/-! ## The system -/

/-- Sockets by connection, queues and receivers by id. -/
structure Network where
  spawnerId : Text
  known : Text → Bool
  available : Text → Bool
  sockets : Nat → RouterServerSocket
  queues : Text → List Message
  receivers : Text → ServerSocket
  calls : Text → List Call

namespace Network

/-- `RouterServerSocket::storeNewMessage` without the notification. -/
def storeNewMessage (s : Network) (m : Message) : Network :=
  if !s.known m.fromId then s
  else if !s.known m.toId then
    { s with
      available := Function.update s.available m.toId false
      queues := Function.update s.queues m.toId (s.queues m.toId ++ [m]) }
  else if !s.available m.toId then s
  else { s with queues := Function.update s.queues m.toId (s.queues m.toId ++ [m]) }

/-- The request of `id` for its messages, up to their arrival there. -/
def retrieve (s : Network) (id : Text) (limit : Int) : Option Network :=
  if !s.known id then some s
  else
    (sendRequestedMessages limit (s.queues id)).map fun r =>
      let t := (s.receivers id).onLines (getlines (r.1.flatMap (· ++ ['\n'])))
      { s with
        queues := Function.update s.queues id r.2
        receivers := Function.update s.receivers id t.1
        calls := Function.update s.calls id (s.calls id ++ t.2) }

def request (s : Network) : Request → Option Network
  | .storeNewMessage m => some (s.storeNewMessage m)
  | .requestUnreadMessages id limit => s.retrieve id limit
  | _ => some s

def socketLine (s : Network) (conn : Nat) (line : Text) : Option Network :=
  ((s.sockets conn).onLine s.spawnerId (dropReturn line)).bind fun r =>
    let s := { s with sockets := Function.update s.sockets conn r.1 }
    match r.2 with
    | some q => s.request q
    | none => some s

def socketLines (s : Network) (conn : Nat) : List Text → Option Network
  | [] => some s
  | l :: ls => (s.socketLine conn l).bind fun s => s.socketLines conn ls

inductive Event where
  /-- `sendMessage` over a connection to the router. -/
  | send (conn : Nat) (m : Message)
  /-- `retrieveMessages` of an element. -/
  | retrieve (id : Text) (limit : Int)

def step (s : Network) : Event → Option Network
  | .send conn m => s.socketLines conn (getlines (sendMessage m))
  | .retrieve id limit => s.retrieve id limit

def run (s : Network) : List Event → Option Network
  | [] => some s
  | e :: es => (s.step e).bind fun s => s.run es

/-- No line has been read yet. -/
def start (spawnerId : Text) (known available : Text → Bool) : Network where
  spawnerId := spawnerId
  known := known
  available := available
  sockets _ := .initial
  queues _ := []
  receivers _ := .initial
  calls _ := []

end Network

end OpenCog.Messaging
