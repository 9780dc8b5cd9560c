import FloweeHub.Network.Receive

/-! The sending side of `NetworkManagerConnection`: waiting messages, their headers, and
`runMessageQueue`, which cuts large messages into chunks. A result is missing where an assertion
fails. -/

namespace FloweeHub.Network

open Lib Streaming LittleEndian HeaderTags

def CHUNK_SIZE : ℕ := 8000

/-- The items from `m_first` up to `m_next`, the first `read` of them marked as read. -/
structure RingBuffer (V : Type) where
  numItems : ℕ
  first : ℕ
  items : List V
  read : ℕ
deriving DecidableEq, Repr

namespace RingBuffer

variable {V : Type}

def ofSize (size : ℕ) : RingBuffer V := { numItems := size, first := 0, items := [], read := 0 }

variable (b : RingBuffer V)

def next : ℕ := (b.first + b.items.length) % b.numItems

def count : ℕ := b.items.length

/-- The last free place is not seen when `m_first` is 0. -/
def isFull : Bool := b.next + 1 = b.first

/-- The assertion is that `m_next` does not come round to `m_first`. -/
def append (v : V) (b : RingBuffer V) : Option (RingBuffer V) :=
  if b.items.length + 1 < b.numItems then some { b with items := b.items ++ [v] } else none

variable (b : RingBuffer V)

def unreadTip : Option V := b.items[b.read]?

def unread : ℕ := b.items.length - b.read

def isRead : Bool := b.unread = 0

def markRead : RingBuffer V := { b with read := b.read + 1 }

def markAllUnread : RingBuffer V := { b with read := 0 }

def removeAllRead : RingBuffer V :=
  { b with first := (b.first + b.read) % b.numItems, items := b.items.drop b.read, read := 0 }

def clear : RingBuffer V := { b with first := 0, items := [], read := 0 }

end RingBuffer

namespace Message

def hasHeader (m : Message) : Bool := m.header ≠ []

def rawData (m : Message) : Bytes := m.header ++ m.body

end Message

/-- The names of the legacy messages, the checksum of a body and the limits of the flow control. -/
structure Config extends Settings where
  messageIds : ℤ → Option Bytes
  checksum : Bytes → Bytes
  forceSendLimit : ℕ
  throttleReceiveAtSendLimitL1 : ℤ

/-- The header of a packet: its size in two bytes, then the fields. -/
def sizedHeader (fields : Bytes) (bodySize : ℕ) : Option Bytes :=
  if 2 + fields.length + bodySize < MAX_MESSAGE_SIZE then
    some (encode 2 (2 + fields.length + bodySize) ++ fields)
  else none

def addItem (item : ℕ × ℤ) : Bytes := MessageBuilder.addInt item.1 item.2

def headerEnd : Bytes := MessageBuilder.addBool HeaderTags.headerEnd.code true

def legacyHeader (cfg : Config) (message : Message) : Option Bytes :=
  let messageId := (cfg.messageIds message.messageId).getD []
  if messageId.length ≤ 12 then
    some (cfg.networkId ++ messageId ++ List.replicate (12 - messageId.length) 0 ++
      encode 4 message.body.length ++ cfg.checksum message.body)
  else none

/-- The header of a message, in front of its body. -/
def createHeader (cfg : Config) (message : Message) : Option Bytes :=
  if message.serviceId < 0 then none
  else if message.serviceId = Api.LegacyP2P then legacyHeader cfg message
  else sizedHeader (message.headerData.flatMap addItem ++ headerEnd) message.rawData.length

/-- The fields of a chunk: all the header data with the first one, the ids with the others. -/
def chunkFields (message : Message) (first last : Bool) : Bytes :=
  addItem (serviceId.code, message.serviceId) ++
    (if first then
      (message.headerData.filter fun item => item.1 ≠ serviceId.code).flatMap addItem ++
        addItem (sequenceStart.code, message.body.length)
    else if 0 ≤ message.messageId then addItem (messageId.code, message.messageId)
    else []) ++
    MessageBuilder.addBool lastInSequence.code last ++ headerEnd

/-- The message `m_pingMessage`, a header of its own without a body. -/
def buildPingMessage (outgoingConnection : Bool) : Message :=
  let fields := addItem (serviceId.code, SystemServiceId) ++
    MessageBuilder.addBool (if outgoingConnection then ping.code else pong.code) true ++ headerEnd
  .ofSlice (encode 2 (2 + fields.length) ++ fields) []

/-- The queues and how far they are sent. `written` is all that was given to the socket. -/
structure Sender where
  messageQueue : RingBuffer Message
  priorityMessageQueue : RingBuffer Message
  sendQHeaders : RingBuffer Bytes
  messageBytesSend : ℕ
  sendingInProgress : Bool
  written : Bytes
deriving DecidableEq, Repr

/-- The loop of `runMessageQueue`, with the room in its write. -/
structure Batch where
  sender : Sender
  bytesLeft : ℤ
deriving DecidableEq, Repr

namespace Batch

def push (bytes : Bytes) (b : Batch) : Batch :=
  { sender := { b.sender with written := b.sender.written ++ bytes },
    bytesLeft := b.bytesLeft - bytes.length }

def pushHeader (header : Bytes) (b : Batch) : Option Batch :=
  (b.sender.sendQHeaders.append header).map fun headers =>
    push header { b with sender := { b.sender with sendQHeaders := headers } }

def readPriority (b : Batch) : Batch :=
  { b with sender := { b.sender with priorityMessageQueue := b.sender.priorityMessageQueue.markRead } }

def readNormal (b : Batch) : Batch :=
  { b with sender := { b.sender with messageQueue := b.sender.messageQueue.markRead } }

def setBytesSend (bytes : ℕ) (b : Batch) : Batch :=
  { b with sender := { b.sender with messageBytesSend := bytes } }

variable (cfg : Config)

/-- The header in front of a message; its `header()` starts at its fifth byte. -/
def priorityHeader (message : Message) (b : Batch) : Option (Batch × ℕ) :=
  if message.hasHeader then
    if message.header.length < 4 then none else some (b, message.header.length - 4)
  else (createHeader cfg message).bind fun header => (b.pushHeader header).map fun b =>
    (b, header.length)

def sendPriorityMessage (message : Message) (b : Batch) : Option Batch :=
  (b.priorityHeader cfg message).bind fun r =>
    if message.body.length + r.2 < MAX_MESSAGE_SIZE then
      some (r.1.push message.rawData).readPriority else none

/-- The messages that go first. -/
def sendPriority (cfg : Config) : ℕ → Batch → Option Batch
  | 0, b => some b
  | unread + 1, b =>
    match b.sender.priorityMessageQueue.unreadTip with
    | none => some b
    | some message =>
      if b.sender.sendQHeaders.isFull then some b
      else
        (b.sendPriorityMessage cfg message).bind fun b =>
          if b.bytesLeft ≤ 0 then some b else sendPriority cfg unread b

def sendChunk (message : Message) (header : Bytes) (p : ℕ) (b : Batch) : Option Batch :=
  (b.pushHeader header).map fun b' =>
    (b'.push ((message.body.drop b.sender.messageBytesSend).take
      (p - b.sender.messageBytesSend))).setBytesSend p

/-- The loop over the chunks. All but the first and the last have the same header. -/
def sendChunks (message : Message) : ℕ → Bool → Option Bytes → Batch → Option Batch
  | 0, _, _, b => some b
  | fuel + 1, first, chunkHeader, b =>
    if b.sender.messageBytesSend < message.body.length then
      let p := min (b.sender.messageBytesSend + CHUNK_SIZE) message.body.length
      let last : Bool := p = message.body.length
      let build := first || last || chunkHeader.isNone
      let header := if build then
          sizedHeader (chunkFields message first last) (p - b.sender.messageBytesSend)
        else chunkHeader
      header.bind fun header =>
        (b.sendChunk message header p).bind fun b =>
          if b.bytesLeft ≤ 0 then some b
          else sendChunks message fuel false (if build && !first then some header else chunkHeader) b
    else some b

/-- The next chunks of a message. -/
def sendLargeMessage (message : Message) (b : Batch) : Option Batch :=
  if message.hasHeader then none
  else
    (b.sendChunks message message.body.length (b.sender.messageBytesSend = 0) none).map fun b =>
      if message.body.length ≤ b.sender.messageBytesSend then (b.setBytesSend 0).readNormal else b

def sendSmallMessage (message : Message) (b : Batch) : Option Batch :=
  (if message.hasHeader then some b else (createHeader cfg message).bind fun header =>
    b.pushHeader header).map
    fun b => (b.push message.rawData).readNormal

def sendNormalMessage (message : Message) (b : Batch) : Option Batch :=
  if CHUNK_SIZE < message.rawData.length ∧ message.serviceId ≠ Api.LegacyP2P then
    b.sendLargeMessage message
  else b.sendSmallMessage cfg message

/-- The other messages, as far as there is room. -/
def sendNormal (cfg : Config) : ℕ → Batch → Option Batch
  | 0, b => some b
  | unread + 1, b =>
    match b.sender.messageQueue.unreadTip with
    | none => some b
    | some message =>
      if b.bytesLeft ≤ 0 ∨ b.sender.sendQHeaders.isFull then some b
      else (b.sendNormalMessage cfg message).bind (sendNormal cfg unread)

end Batch

namespace Sender

def initial (queueSizeMain priorityQueueSize : ℕ) : Sender :=
  { messageQueue := .ofSize queueSizeMain, priorityMessageQueue := .ofSize priorityQueueSize,
    sendQHeaders := .ofSize queueSizeMain, messageBytesSend := 0, sendingInProgress := false,
    written := [] }

/-- Nothing happens while the socket is busy or when there is nothing to send. -/
def runMessageQueue (cfg : Config) (connected : Bool) (s : Sender) : Option Sender :=
  if s.sendingInProgress ∨ (s.messageQueue.isRead ∧ s.priorityMessageQueue.isRead) ∨
    !connected then some s
  else
    let start : Batch := { sender := { s with sendingInProgress := true }, bytesLeft := 250 * 1024 }
    (start.sendPriority cfg s.priorityMessageQueue.unread).bind fun b =>
      (b.sendNormal cfg s.messageQueue.unread).map Batch.sender

end Sender

/-- The queue that a message is put in. -/
inductive MessagePriority
  | normalPriority
  | highPriority
deriving DecidableEq, Repr

/-- `queueMessage` does not throw; the exception for too many header items is made and dropped. -/
def Sender.accepts (message : Message) (priority : MessagePriority) (s : Sender) : Bool :=
  !(!message.hasHeader && message.serviceId = -1) &&
    !(message.hasHeader && CHUNK_SIZE < message.body.length) &&
    !(priority ≠ .normalPriority && CHUNK_SIZE < message.rawData.length) &&
    match priority with
    | .normalPriority => !s.messageQueue.isFull
    | .highPriority => !s.priorityMessageQueue.isFull

def Sender.append (message : Message) (priority : MessagePriority) (s : Sender) : Option Sender :=
  match priority with
  | .normalPriority => (s.messageQueue.append message).map fun queue => { s with messageQueue := queue }
  | .highPriority =>
    (s.priorityMessageQueue.append message).map fun queue =>
    { s with priorityMessageQueue := queue }

/-- A message that is not accepted leaves the queues as they are. -/
def Sender.queueMessage (cfg : Config) (message : Message) (priority : MessagePriority)
    (s : Sender) : Option Sender :=
  if s.accepts message priority then (s.append message priority).bind
    (Sender.runMessageQueue cfg true) else some s

end FloweeHub.Network
