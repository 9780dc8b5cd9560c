import FloweeHub.Lib.Incremental
import FloweeHub.Lib.Runs
import FloweeHub.Network.Header

/-! The receiving side of `NetworkManagerConnection`. `receivedSomeBytes` takes whole packets from
the front of the stream; `processPacket` also joins the chunks of a message. Its parser covers two
bytes behind the packet, whatever memory holds there. -/

namespace FloweeHub.Network

open Lib Streaming LittleEndian

def LEGACY_HEADER_SIZE : ℕ := 24

def Api.LegacyP2P : ℤ := 0x1000

/-- The bytes between `m_start` and `m_bodyStart`, those up to `m_end` and the header map. -/
structure Message where
  header : Bytes
  body : Bytes
  headerData : HeaderData
deriving DecidableEq, Repr

namespace Message

def headerInt (m : Message) (name : ℕ) : ℤ := (m.headerData.find name).getD (-1)

def serviceId (m : Message) : ℤ := m.headerInt HeaderTags.serviceId.code

def messageId (m : Message) : ℤ := m.headerInt HeaderTags.messageId.code

def setMessageId (id : ℤ) (m : Message) : Message :=
  { m with headerData := m.headerData.set HeaderTags.messageId.code id }

def setServiceId (id : ℤ) (m : Message) : Message :=
  { m with headerData := m.headerData.set HeaderTags.serviceId.code id }

def setHeaderInt (m : Message) (item : ℕ × ℤ) : Message :=
  { m with headerData := m.headerData.insert item.1 item.2 }

def ofSlice (header body : Bytes) : Message := { header := header, body := body, headerData := [] }

def ofPayload (payload : Bytes) (serviceId messageId : ℤ) : Message :=
  ((ofSlice [] payload).setServiceId serviceId).setMessageId messageId

end Message

/-- The two protocols. -/
inductive MessageHeaderType
  | floweeNative
  | legacyP2P
deriving DecidableEq, Repr

/-- A message and who gets it: the first one may go to the first callback only. -/
structure Delivery where
  message : Message
  acceptOnly : Bool
deriving DecidableEq, Repr

/-- What does not change; `staysOpen` tells whether the socket is open after the last delivery. -/
structure Settings where
  messageHeaderType : MessageHeaderType
  networkId : Bytes
  messageIdsReverse : Bytes → Option ℤ
  peerPort : ℕ
  announcePort : ℕ
  staysOpen : List Delivery → Bool

/-- Whether the connection is up, was closed or hangs in a loop. -/
inductive Status
  | up
  | closed
  | hung
deriving DecidableEq, Repr

/-- The state beside the receive stream; `pings` counts those of a peer that connected to us. -/
structure Receiver where
  status : Status
  firstPacket : Bool
  firstPackageIsForAcceptConnection : Bool
  chunkedMessageId : ℤ
  chunkedServiceId : ℤ
  chunkedMessageBuffer : Bytes
  chunkedSize : ℤ
  chunkedHeaderData : HeaderData
  pings : ℕ
  delivered : List Delivery
deriving DecidableEq, Repr

namespace Receiver

def initial (firstPackageIsForAcceptConnection : Bool) : Receiver :=
  { status := .up, firstPacket := true,
    firstPackageIsForAcceptConnection := firstPackageIsForAcceptConnection,
    chunkedMessageId := -1, chunkedServiceId := -1, chunkedMessageBuffer := [], chunkedSize := 0,
    chunkedHeaderData := [], pings := 0, delivered := [] }

/-- The methods `close` and `disconnect`; the connection is not used after them. -/
def close (c : Receiver) : Receiver := { c with status := .closed }

/-- The capacity of the chunk buffer; a cleared buffer has the one it had when it was made. -/
def chunkedCapacity (c : Receiver) : ℤ := c.chunkedSize - c.chunkedMessageBuffer.length

variable (s : Settings)

/-- The callbacks and services run; the answer is whether the socket is still open. -/
def deliver (message : Message) (acceptOnly : Bool) (c : Receiver) : Bool × Receiver :=
  let delivered := c.delivered ++ [⟨message, acceptOnly⟩]
  if s.staysOpen delivered then (true, { c with delivered := delivered })
  else (false, close { c with delivered := delivered })

/-- The message with the ids and the header data of its packet. -/
def deliverNative (message : Message) (h : Header) (headerData : HeaderData) (c : Receiver) :
    Bool × Receiver :=
  let message := (message.setMessageId h.messageId).setServiceId h.serviceId
  deliver s (headerData.foldl Message.setHeaderInt message) c.firstPackageIsForAcceptConnection
    { c with firstPackageIsForAcceptConnection := false }

variable (h : Header)

/-- A sequence started while another one is open, or a chunk of another message. -/
def sequenceBroken (c : Receiver) : Bool :=
  if h.sequenceSize ≠ -1 then c.chunkedMessageId ≠ -1 ∨ c.chunkedServiceId ≠ -1
  else c.chunkedMessageId ≠ h.messageId ∨ c.chunkedServiceId ≠ h.serviceId

def startSequence (c : Receiver) : Receiver :=
  if h.sequenceSize ≠ -1 then
    { c with
      chunkedMessageId := h.messageId
      chunkedServiceId := h.serviceId
      chunkedMessageBuffer := []
      chunkedSize := h.sequenceSize
      chunkedHeaderData := h.messageHeaderData }
  else c

def tooMuchData (packet : Bytes) (c : Receiver) : Bool :=
  (c.startSequence h).chunkedCapacity < (packet.length : ℤ) - h.headerSize - 2

/-- A chunk with too much data is left in the receive stream and the connection stays open. -/
def processChunk (packet : Bytes) (c : Receiver) : Bool × Receiver :=
  if c.sequenceBroken h then (false, c.close)
  else if h.sequenceSize < -1 then
    -- a buffer of a negative size throws when it is made
    (false, { c with chunkedMessageId := h.messageId, chunkedServiceId := h.serviceId })
  else if c.tooMuchData h packet then (false, c.startSequence h)
  else
    let c := c.startSequence h
    let buffer := c.chunkedMessageBuffer ++ packet.drop (h.headerSize + 2)
    if h.lastInSequence = 0 then (true, { c with chunkedMessageBuffer := buffer })
    else
      deliverNative s (.ofPayload buffer c.chunkedServiceId (-1)) h c.chunkedHeaderData
        { c with chunkedMessageId := -1, chunkedServiceId := -1, chunkedMessageBuffer := [] }

/-- A native packet; the parser covers `window`. The answer is whether the packet is done with. -/
def processPacket (window packet : Bytes) (c : Receiver) : Bool × Receiver :=
  match Header.read window with
  | .closes => (false, c.close)
  | .hangs => (false, { c with status := .hung })
  | .header h =>
    if h.serviceId = -1 then (false, c.close)
    else if h.serviceId = SystemServiceId then
      if h.isPing then
        -- a peer we connected to has no reason to ping us
        if s.peerPort = s.announcePort then (false, c.close) else (true, { c with pings := c.pings + 1 })
      else (true, c)
    else if h.lastInSequence ≠ -1 then c.processChunk s h packet
    else
      let message := Message.ofSlice ((packet.drop 2).take h.headerSize) (packet.drop (2 + h.headerSize))
      deliverNative s message h h.messageHeaderData c

def command (packet : Bytes) : Bytes := ((packet.drop 4).take 12).takeWhile (· ≠ 0)

/-- A packet of the old protocol, with its command as text. -/
def processLegacyPacket (packet : Bytes) (c : Receiver) : Bool × Receiver :=
  match s.messageIdsReverse (command packet) with
  | none => (true, c)
  | some id =>
    let message := Message.ofSlice (packet.take LEGACY_HEADER_SIZE) (packet.drop LEGACY_HEADER_SIZE)
    deliver s ((message.setMessageId id).setServiceId Api.LegacyP2P) false c

end Receiver

/-! ### The loop of `receivedSomeBytes` -/

def packetLength (stream : Bytes) : ℕ := decode (stream.take 2)

def bodyLength (stream : Bytes) : ℕ := decode ((stream.drop 16).take 4)

/-- What the loop does next: wait for more bytes, return, or go on behind a packet. -/
inductive Turn
  | waits (c : Receiver)
  | returns (c : Receiver)
  | goesOn (c : Receiver) (taken : ℕ)
deriving DecidableEq, Repr

def Turn.ofResult (size : ℕ) (result : Bool × Receiver) : Turn :=
  if result.1 then .goesOn result.2 size else .returns result.2

namespace Receiver

variable (s : Settings)

def legacyTurn (stream : Bytes) (c : Receiver) : Turn :=
  if stream.length < LEGACY_HEADER_SIZE then .waits c
  else if 32000000 < bodyLength stream then .returns c.close
  else if stream.length < LEGACY_HEADER_SIZE + bodyLength stream then .waits c
  else
    .ofResult (LEGACY_HEADER_SIZE + bodyLength stream)
      (c.processLegacyPacket s (stream.take (LEGACY_HEADER_SIZE + bodyLength stream)))

def nativeTurn (window stream : Bytes) (c : Receiver) : Turn :=
  if MAX_MESSAGE_SIZE < packetLength stream then .returns c.close
  else if stream.length < packetLength stream then .waits c
  else .ofResult (packetLength stream) (c.processPacket s window (stream.take (packetLength stream)))

/-- One turn of the loop in `receivedSomeBytes`. -/
def packetTurn (window stream : Bytes) (c : Receiver) : Turn :=
  match s.messageHeaderType with
  | .floweeNative => c.nativeTurn s window stream
  | .legacyP2P => c.legacyTurn s stream

/-- The check of the first bytes; the legacy one starts from `true` and only adds to it. -/
def firstRefused (stream : Bytes) : Bool :=
  match s.messageHeaderType with
  | .floweeNative => stream[2]? ≠ some 8
  | .legacyP2P => !(List.range 4).foldl (fun ok i => ok || stream[i]? == s.networkId[i]?) true

end Receiver

/-- As many bytes as the packet has, but from its third one on; `behind` is the memory after the
stream. -/
def window (stream : Bytes) (behind : UInt8 × UInt8) : Bytes :=
  ((stream ++ [behind.1, behind.2]).drop 2).take (packetLength stream)

def Receiver.turn (s : Settings) (behind : UInt8 × UInt8) (stream : Bytes) (c : Receiver) : Turn :=
  let c' := { c with firstPacket := false }
  if c.firstPacket ∧ Receiver.firstRefused s stream then .returns c'.close
  else c'.packetTurn s (window stream behind) stream

/-- How a call ended: a read was requested, the send queue held it back, or it just returned. -/
inductive Ending
  | requests
  | held
  | returned
deriving DecidableEq, Repr

/-- The part of a connection that reads. -/
structure Incoming where
  receiver : Receiver
  receiveStream : Bytes
  ending : Ending
deriving DecidableEq, Repr

namespace Incoming

def initial (firstPackageIsForAcceptConnection : Bool) : Incoming :=
  { receiver := .initial firstPackageIsForAcceptConnection, receiveStream := [], ending := .requests }

/-- The loop, which makes `room` turns before it finds the send queue above its limit. -/
def loop (s : Settings) (behind : UInt8 × UInt8) : ℕ → Receiver → Bytes → Incoming
  | room, c, stream =>
    if stream.length < 4 then ⟨c, stream, .requests⟩
    else
      match room with
      | 0 => ⟨c, stream, .held⟩
      | room + 1 =>
        match c.turn s behind stream with
        | .waits c => ⟨c, stream, .requests⟩
        | .returns c => ⟨c, stream, .returned⟩
        | .goesOn c taken => loop s behind room c (stream.drop taken)

end Incoming

/-- The bytes of a call, the memory behind them and its turns before it is held back. -/
structure Call where
  bytes : Bytes
  behind : UInt8 × UInt8
  room : ℕ
deriving DecidableEq, Repr

def Incoming.receivedSomeBytes (s : Settings) (conn : Incoming) (call : Call) : Incoming :=
  if conn.receiver.status = .up then
    loop s call.behind call.room conn.receiver (conn.receiveStream ++ call.bytes)
  else conn

/-- What the callbacks saw and whether the connection closed after it. -/
def Incoming.outcome (conn : Incoming) : List Delivery × Status :=
  (conn.receiver.delivered, conn.receiver.status)

end FloweeHub.Network
