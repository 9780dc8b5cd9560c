import Mathlib.Data.Finset.Sort
import FloweeHub.P2P.MerkleSync

/-! The connection manager of the p2p library. A peer is in the table of peers from the start of a
connection, and in the set of connected ones from its version message on. What is sent and the
listeners are left out. -/

namespace FloweeHub.P2P

open Lib

def PUNISHMENT_MAX : ℤ := 1000

def toShort (x : ℤ) : ℤ := x.bmod (2 ^ 16)

/-- What is remembered of an address. -/
structure AddressInfo where
  punishment : ℤ := 0
  services : ℕ := 0
  segment : ℕ := 0
  lastReceivedGoodHeaders : ℕ := 0

namespace AddressInfo

def punishPeer (amount : ℤ) (a : AddressInfo) : AddressInfo :=
  { a with punishment := toShort (min (a.punishment + toShort amount) 0xeFFF) }

def successfullyConnected (a : AddressInfo) : AddressInfo :=
  if 500 < a.punishment then { a with punishment := a.punishment - 125 }
  else if a.punishment < 20 then { a with punishment := 0 }
  else a

end AddressInfo

/-- The stages of a peer. -/
inductive PeerStatus
  | Connecting
  | Connected
  | ShuttingDown
deriving DecidableEq

/-- A peer object. -/
structure Peer (Tx : Type) where
  connectionId : ℕ
  address : ℕ
  timeOffset : ℤ
  status : PeerStatus := .Connecting
  connectTime : ℕ := 0
  protocolVersion : ℤ := 0
  services : ℕ := 0
  segment : Option ℕ := none
  sync : MerkleSync Tx := {}

namespace Peer

variable {Tx : Type}

def shutdown (p : Peer Tx) : Peer Tx := { p with status := .ShuttingDown }

def supplies_network (p : Peer Tx) : Bool := p.services.testBit 0

def supplies_bloom (p : Peer Tx) : Bool := p.services.testBit 2

/-- Whether `cron` kicks the peer. Before it is connected the unsigned difference is huge. -/
def kick (now : ℕ) (p : Peer Tx) : Bool :=
  (p.status ≠ .Connected || p.protocolVersion = 0) &&
    if p.connectTime = 0 then 10 < (now : ℤ).bmod (2 ^ 32) - p.timeOffset
    else 20 < ((now : ℤ) - p.connectTime) % 2 ^ 32

end Peer

/-- The asserts that can fail. -/
inductive Assert
  | connectedPeers
  | connectionEstablished
  | disconnect
  | removePeer
  | assignSegmentToPeer
  | setPrivacySegment
  | createHash
deriving DecidableEq

/-- Peers are objects named by a number, free from `nextObject` on; they outlive the table. The
calls of `DownloadManager::peerDisconnected` are kept. -/
structure ConnectionManager (Tx : Type) where
  objects : ℕ → Peer Tx :=
    fun _ => { connectionId := 0, address := 0, timeOffset := 0, status := .ShuttingDown }
  nextObject : ℕ := 0
  peers : Table ℕ ℕ := ∅
  connectedPeers : Finset ℕ := ∅
  addresses : ℕ → AddressInfo
  segments : List ℕ
  peerDisconnected : List ℕ := []

namespace ConnectionManager

variable {Tx : Type}

instance : CoeFun (ConnectionManager Tx) fun _ => ℕ → Peer Tx := ⟨objects⟩

def setPeer (ref : ℕ) (p : Peer Tx) (s : ConnectionManager Tx) : ConnectionManager Tx :=
  { s with objects := Function.update s.objects ref p }

def updateAddress (address : ℕ) (f : AddressInfo → AddressInfo) (s : ConnectionManager Tx) :
    ConnectionManager Tx :=
  { s with addresses := Function.update s.addresses address (f (s.addresses address)) }

/-- Both tables lose the peer. -/
def removePeer (ref : ℕ) (s : ConnectionManager Tx) : Except Assert (ConnectionManager Tx) :=
  let id := (s ref).connectionId
  let s := s.setPeer ref (s ref).shutdown
  let s := if id ∈ s.connectedPeers then
      { s with connectedPeers := s.connectedPeers.erase id, peerDisconnected := s.peerDisconnected ++ [id] }
    else s
  if (s.peers.lookup id).isNone then .error .removePeer else .ok { s with peers := s.peers.erase id }

/-- The connection has the id `id`, which may be the one of a connection that exists. -/
def connect (id address now : ℕ) (s : ConnectionManager Tx) : ConnectionManager Tx :=
  if (s.peers.lookup id).isSome then s
  else
    let s := s.updateAddress address (·.punishPeer 100)
    let p := { connectionId := id, address := address, timeOffset := (now : ℤ).bmod (2 ^ 32) }
    { s.setPeer s.nextObject p with nextObject := s.nextObject + 1, peers := s.peers.insert id s.nextObject }

def disconnect (ref : ℕ) (s : ConnectionManager Tx) : Except Assert (ConnectionManager Tx) :=
  if (s.peers.lookup (s ref).connectionId).isNone then .error .disconnect else s.removePeer ref

/-- `punish` for a peer, with whether it was banned. -/
def punishPeer (ref : ℕ) (amount : ℤ) (s : ConnectionManager Tx) :
    Except Assert (ConnectionManager Tx × Bool) :=
  let address := (s ref).address
  let s := s.updateAddress address (·.punishPeer amount)
  if PUNISHMENT_MAX ≤ (s.addresses address).punishment then (s.removePeer ref).map (·, true)
  else .ok (s, false)

def punish (id : ℕ) (amount : ℤ) (s : ConnectionManager Tx) :
    Except Assert (ConnectionManager Tx × Bool) :=
  match s.peers.lookup id with
  | none => .ok (s, false)
  | some ref => s.punishPeer ref amount

def connectedPeersList (s : ConnectionManager Tx) : Except Assert (List ℕ) :=
  (s.connectedPeers.sort (· ≤ ·)).mapM fun id =>
    match s.peers.lookup id with
    | none => .error .connectedPeers
    | some ref => .ok ref

def setPrivacySegment (ref segment : ℕ) (s : ConnectionManager Tx) :
    Except Assert (ConnectionManager Tx) :=
  if (s ref).segment = some segment then .ok s
  else if (s ref).segment ≠ none then .error .setPrivacySegment
  else .ok (s.setPeer ref { s ref with segment := some segment })

variable (s : ConnectionManager Tx)

def segmentOf (id : ℕ) : Option ℕ := (s.peers.lookup id).bind fun ref => (s ref).segment

def segmentUsage (thisId segment : ℕ) : ℕ :=
  (s.connectedPeers.filter fun id => id ≠ thisId ∧ s.segmentOf id = some segment).card

def bestSegment (thisId : ℕ) : Option ℕ :=
  (s.segments.foldl (fun best segment =>
    if s.segmentUsage thisId segment < best.2 then (some segment, s.segmentUsage thisId segment)
    else best) (none, 1000)).1

/-- The segment with the fewest other peers. -/
def assignSegmentToPeer (ref : ℕ) (s : ConnectionManager Tx) : Except Assert (ConnectionManager Tx) :=
  let p := s.objects ref
  if ∃ id ∈ s.connectedPeers, id ≠ p.connectionId ∧ s.peers.lookup id = none then
    .error .assignSegmentToPeer
  else
    match s.bestSegment p.connectionId with
    | none => .ok s
    | some segment =>
      (s.setPrivacySegment ref segment).map (·.updateAddress p.address fun a =>
        { a with segment := segment })

/-- The part of `connectionEstablished` that gives a wallet to the peer. -/
def giveSegment (ref now : ℕ) (s : ConnectionManager Tx) : Except Assert (ConnectionManager Tx) :=
  let previousSegment := (s.addresses (s ref).address).segment
  let last := (s.addresses (s ref).address).lastReceivedGoodHeaders
  if previousSegment = 0 then
    if 0 < last ∧ 3600 * 36 < (now : ℤ) - last then s.assignSegmentToPeer ref else .ok s
  else if previousSegment ∈ s.segments then s.setPrivacySegment ref previousSegment
  else .ok s

def connectionEstablished (ref now : ℕ) (s : ConnectionManager Tx) :
    Except Assert (ConnectionManager Tx) :=
  let p := s.objects ref
  let s := s.updateAddress p.address fun a => { a.punishPeer (-100) with services := p.services }
  if !p.supplies_bloom || !p.supplies_network then s.removePeer ref
  else if (s.peers.lookup p.connectionId).isNone then .error .connectionEstablished
  else giveSegment ref now { s with connectedPeers := insert p.connectionId s.connectedPeers }

/-- The errors of a socket, as far as they are told apart. -/
inductive ErrorCode
  | unreachable
  | host_not_found
  | refused
  | other

/-- Whether an error removes the peer, and the punishment for it. -/
def ErrorCode.handling : ErrorCode → Bool × ℤ
  | .unreachable => (true, 900)
  | .host_not_found => (true, 450)
  | .refused => (true, 1)
  | .other => (false, 180)

def handleError_impl (id : ℕ) (error : ErrorCode) (s : ConnectionManager Tx) :
    Except Assert (ConnectionManager Tx) :=
  match s.peers.lookup id with
  | none => .ok s
  | some ref => (s.punishPeer ref error.handling.2).bind fun r =>
    if error.handling.1 && !r.2 then r.1.removePeer ref else .ok r.1

def cronPeer (now : ℕ) (s : ConnectionManager Tx) (id : ℕ) : ConnectionManager Tx :=
  match s.peers.lookup id with
  | none => s
  | some ref =>
    if (s ref).kick now then { s.setPeer ref (s ref).shutdown with peers := s.peers.erase id }
    else s

/-- Peers that are silent or useless are disconnected. -/
def cron (now : ℕ) (s : ConnectionManager Tx) : ConnectionManager Tx :=
  s.peers.keys.foldl (cronPeer now) s

/-- The messages that matter to the manager; `complete` tells that the parser had enough bytes. -/
inductive Incoming (Tx : Type)
  | version (protocolVersion : ℤ) (services : ℕ) (time : ℤ) (complete : Bool)
  | getData (items : List Bool) (complete : Bool)
  | reject (complete : Bool)
  | wallet (env : Surroundings) (message : WalletMessage Tx)
  | other

def parsingFailure (ref : ℕ) (s : ConnectionManager Tx) : Except Assert (ConnectionManager Tx) :=
  (s.updateAddress (s ref).address (·.punishPeer 200)).disconnect ref

def askedFor (id : ℕ) (items : List Bool) (s : ConnectionManager Tx) :
    Except Assert (ConnectionManager Tx) :=
  items.foldlM (fun s isTransaction => if isTransaction then .ok s else (s.punish id 10).map Prod.fst) s

section

variable (hash256 : Bytes → Uint256) (createHash : BlockHeader → Uint256) (txHash : Tx → Uint256)

/-- The punishment for a merkleblock is the id of the peer, so it is the default one for another. -/
def walletMessage (ref : ℕ) (env : Surroundings) (s : ConnectionManager Tx) :
    WalletMessage Tx → Except Assert (ConnectionManager Tx)
  | .tx tx =>
    let p := s.objects ref
    if p.segment = none then .ok s
    else .ok (s.setPeer ref { p with sync := (p.sync.processTransaction txHash tx).1 })
  | .merkleblock body =>
    let p := s.objects ref
    if p.segment = none then (s.punish PUNISHMENT_MAX.toNat 250).map Prod.fst
    else
      match p.sync.processMerkleBlock hash256 createHash env body with
      | (.assertion, _, _) => .error .createHash
      | (.punished, _, _) => (s.punish PUNISHMENT_MAX.toNat 250).map Prod.fst
      | (.parsingException _, sync, _) => (s.setPeer ref { p with sync := sync }).parsingFailure ref
      | (.done, sync, _) => .ok (s.setPeer ref { p with sync := sync })

/-- A message, by its kind. -/
def processMessage (ref now : ℕ) (m : Incoming Tx) (s : ConnectionManager Tx) :
    Except Assert (ConnectionManager Tx) :=
  let p := s.objects ref
  if p.status = .ShuttingDown then .ok s
  else
    match m with
    | .version protocolVersion services time complete =>
      if complete then
        let s := s.setPeer ref { p with
          protocolVersion := protocolVersion
          services := services
          timeOffset := (((now : ℤ) - time) - (now - p.connectTime)).bmod (2 ^ 32) }
        (s.connectionEstablished ref now).map (·.updateAddress p.address (·.successfullyConnected))
      else s.parsingFailure ref
    | .getData items complete =>
      (s.askedFor p.connectionId items).bind fun s => if complete then .ok s else s.parsingFailure ref
    | .reject complete => if complete then .ok s else s.parsingFailure ref
    | .wallet env message => s.walletMessage hash256 createHash txHash ref env message
    | .other => .ok s

/-- Callbacks of the network are for objects, other calls for the id of a peer. -/
inductive Event (Tx : Type)
  | connect (id address now : ℕ)
  | connected (ref now : ℕ)
  | message (ref now : ℕ) (m : Incoming Tx)
  | disconnected (ref : ℕ)
  | disconnect (id : ℕ)
  | punish (id : ℕ) (amount : ℤ)
  | error (id : ℕ) (code : ErrorCode)
  | cron (now : ℕ)
  | rate (address : ℕ) (punishment : ℤ) (lastReceivedGoodHeaders : ℕ)

def step (s : ConnectionManager Tx) : Event Tx → Except Assert (ConnectionManager Tx)
  | .connect id address now => .ok (s.connect id address now)
  | .connected ref now =>
    -- a peer that was shut down has no callbacks any more
    if (s ref).status = .ShuttingDown then .ok s
    else .ok (s.setPeer ref { s ref with status := .Connected, connectTime := now % 2 ^ 32 })
  | .message ref now m => s.processMessage hash256 createHash txHash ref now m
  | .disconnected ref => if (s ref).status = .ShuttingDown then .ok s else s.disconnect ref
  | .disconnect id =>
    match s.peers.lookup id with
    | none => .ok s
    | some ref => s.disconnect ref
  | .punish id amount => (s.punish id amount).map Prod.fst
  | .error id code => s.handleError_impl id code
  | .cron now => .ok (s.cron now)
  | .rate address punishment lastReceivedGoodHeaders => .ok (s.updateAddress address fun a =>
      { a with punishment := punishment, lastReceivedGoodHeaders := lastReceivedGoodHeaders })

/-- The events that happened all satisfied `ok` in the state in which they came. -/
def Reached (ok : ConnectionManager Tx → Event Tx → Prop) (start : ConnectionManager Tx) :
    ConnectionManager Tx → Prop :=
  Relation.ReflTransGen (fun s s' => ∃ event, ok s event ∧
    s.step hash256 createHash txHash event = .ok s') start

end

end ConnectionManager

end FloweeHub.P2P
