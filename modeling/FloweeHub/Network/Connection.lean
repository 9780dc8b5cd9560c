import FloweeHub.Network.Send

/-! A connected `NetworkManagerConnection` as a state machine: what can run on its strand, and which
asynchronous operations are under way in between. A socket that is connected again is a new
connection; errors end it. -/

namespace FloweeHub.Network

open Lib Streaming

/-- The connection between two handlers, with what is outstanding on it. -/
structure Connection where
  receiver : Receiver
  receiveStream : Bytes
  sender : Sender
  readPending : Bool
  timerPending : Bool
deriving DecidableEq, Repr

/-- What the callbacks queue for one message. -/
abbrev Reply := List (Message × MessagePriority)

def Sender.finished (s : Sender) : Sender :=
  { s with
    sendingInProgress := false
    messageQueue := s.messageQueue.removeAllRead
    priorityMessageQueue := s.priorityMessageQueue.removeAllRead
    sendQHeaders := s.sendQHeaders.clear }

/-- The sender when its write failed: all that was not confirmed is sent again. -/
def Sender.failed (s : Sender) : Sender :=
  { s with
    sendingInProgress := false
    messageBytesSend := 0
    messageQueue := s.messageQueue.markAllUnread
    priorityMessageQueue := s.priorityMessageQueue.markAllUnread
    sendQHeaders := s.sendQHeaders.clear }

namespace Connection

/-- A connection that was just set up waits for its first bytes. -/
def initial (firstPackageIsForAcceptConnection : Bool) (queueSizeMain priorityQueueSize : ℕ) :
    Connection :=
  { receiver := .initial firstPackageIsForAcceptConnection, receiveStream := [],
    sender := .initial queueSizeMain priorityQueueSize, readPending := true, timerPending := false }

def isUp (conn : Connection) : Bool := conn.receiver.status = .up

def onSender (f : Sender → Option Sender) (conn : Connection) : Option Connection :=
  (f conn.sender).map fun sender => { conn with sender := sender }

def runMessageQueue (cfg : Config) (conn : Connection) : Option Connection :=
  conn.onSender (Sender.runMessageQueue cfg conn.isUp)

def queueMessage (cfg : Config) (conn : Connection) (reply : Message × MessagePriority) :
    Option Connection :=
  conn.onSender (Sender.queueMessage cfg reply.1 reply.2)

/-- The number of messages that wait in the two queues or are being sent. -/
def backlog (conn : Connection) : ℕ :=
  conn.sender.messageQueue.count + conn.sender.priorityMessageQueue.count

/-- A read is requested, or the timer that asks again later is started. -/
def requestMoreBytes_callback (cfg : Config) (conn : Connection) : Option Connection :=
  if (conn.backlog : ℤ) < cfg.throttleReceiveAtSendLimitL1 then some { conn with readPending := true }
  else if conn.isUp then runMessageQueue cfg { conn with timerPending := true }
  else some conn

/-- The queue is so long that the loop over the packets is left. -/
def mustSend (cfg : Config) (conn : Connection) : Bool :=
  cfg.forceSendLimit < conn.sender.messageQueue.count

/-- What a packet makes queue: the replies of the callbacks and the answer to a ping. -/
def answer (cfg : Config) (reply : Reply) (c : Receiver) (conn : Connection) : Option Connection :=
  if conn.receiver.delivered.length < c.delivered.length then reply.foldlM (queueMessage cfg)
    { conn with receiver := c }
  else if conn.receiver.pings < c.pings ∧ !conn.sender.messageQueue.isFull then
    queueMessage cfg { conn with receiver := c }
      (buildPingMessage (cfg.peerPort = cfg.announcePort), .normalPriority)
  else some { conn with receiver := c }

/-- The loop of `receivedSomeBytes`; each packet takes at least one byte. -/
def loop (cfg : Config) (behind : UInt8 × UInt8) : ℕ → List Reply → Connection → Option Connection
  | fuel, replies, conn =>
    if conn.receiveStream.length < 4 then conn.requestMoreBytes_callback cfg
    else if conn.mustSend cfg then conn.runMessageQueue cfg
    else
      match fuel with
      | 0 => none
      | fuel + 1 =>
        match conn.receiver.turn cfg.toSettings behind conn.receiveStream with
        | .waits c => requestMoreBytes_callback cfg { conn with receiver := c }
        | .returns c => some { conn with receiver := c }
        | .goesOn c taken =>
          (conn.answer cfg (replies.headD []) c).bind fun conn =>
            loop cfg behind fuel replies.tail
              { conn with receiveStream := conn.receiveStream.drop taken }

/-- What a handler that processes packets meets: the memory behind the stream and the replies. -/
structure Surroundings where
  behind : UInt8 × UInt8
  replies : List Reply

variable (cfg : Config)

def receivedSomeBytes (bytes : Bytes) (around : Surroundings) (conn : Connection) : Option Connection :=
  let stream := conn.receiveStream ++ bytes
  loop cfg around.behind stream.length around.replies { conn with receiveStream := stream }

/-- The test in `sentSomeBytes` for a receive that was interrupted. -/
def resumable (stream : Bytes) : Bool := 4 < stream.length ∧ packetLength stream ≤ stream.length

/-- A write went well; a receive that was interrupted is taken up again. -/
def sentSomeBytes (around : Surroundings) (conn : Connection) : Option Connection :=
  (runMessageQueue cfg { conn with sender := conn.sender.finished }).bind fun conn =>
    if resumable conn.receiveStream then conn.receivedSomeBytes cfg [] around else some conn

def close (conn : Connection) : Connection := { conn with receiver := conn.receiver.close }

/-- What can run on the strand; `connect` does nothing on a connection that is up. -/
inductive Event
  | queue (message : Message) (priority : MessagePriority)
  | run
  | sent (around : Surroundings)
  | sendFailed
  | received (bytes : Bytes) (around : Surroundings)
  | receiveFailed
  | timer
  | disconnect

variable (conn : Connection)

/-- The operation whose completion the event is, if it is one, is under way. -/
def enabled : Event → Bool
  | .queue _ _ | .run | .disconnect => conn.isUp
  | .sent _ | .sendFailed => conn.isUp && conn.sender.sendingInProgress
  | .received _ _ | .receiveFailed => conn.isUp && conn.readPending
  | .timer => conn.isUp && conn.timerPending

/-- What an event does; no result if an assertion fails. -/
def handle : Event → Option Connection
  | .queue message priority => conn.queueMessage cfg (message, priority)
  | .run => conn.runMessageQueue cfg
  | .sent around => conn.sentSomeBytes cfg around
  | .sendFailed => some { conn with sender := conn.sender.failed }
  | .received bytes around => receivedSomeBytes cfg bytes around { conn with readPending := false }
  | .receiveFailed => some conn.close
  | .timer => requestMoreBytes_callback cfg { conn with timerPending := false }
  | .disconnect => some conn.close

/-- A failed assertion ends the process and the connection with it. -/
def step (event : Event) : Connection :=
  if conn.enabled event then (conn.handle cfg event).getD conn.close else conn

end Connection

end FloweeHub.Network
