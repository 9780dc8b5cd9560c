import Mathlib.Data.BitVec
import FloweeHub.Chain.Pow
import FloweeHub.Lib.Table
import FloweeHub.Primitives.RawBlock

/-! The chain of headers of the p2p library. When the headers of a message have more work than the
tip they replace those of the longest chain. Static headers leave empty entries in that chain.
Loading and saving are left out. -/

namespace FloweeHub.P2P

open Lib

def emptyHeader : BlockHeader := ⟨0, 0, 0, 0, 0, 0⟩

def blockProof (header : BlockHeader) : BitVec 256 := BitVec.ofNat 256 (GetBlockProof header.nBits)

/-- The hash, height and work of the tip. -/
structure ChainTip where
  tip : Uint256
  height : ℕ
  chainWork : BitVec 256
deriving DecidableEq

/-- The length of `staticChain` is `m_numStaticHeaders`. -/
structure Blockchain where
  longestChain : List BlockHeader
  blockHeight : Table Uint256 ℕ
  tip : ChainTip
  staticChain : List BlockHeader := []

/-- The number a message starts with and the headers that can be read. -/
structure HeadersMessage where
  count : ℕ
  headers : List BlockHeader
  length_le : headers.length ≤ count

def powLimit : ℕ := 2 ^ 224 - 1

/-- `unordered_map::insert` does not change the value of a key. -/
def insertNew (t : Table Uint256 ℕ) (id : Uint256) (height : ℕ) : Table Uint256 ℕ :=
  if (t.lookup id).isSome then t else t.insert id height

def resize (chain : List BlockHeader) (size : ℕ) : List BlockHeader :=
  chain.take size ++ List.replicate (size - chain.length) emptyHeader

namespace Blockchain

def height (bc : Blockchain) : ℕ := bc.tip.height

variable (bc : Blockchain)

def isKnown (blockId : Uint256) : Bool := (bc.blockHeight.lookup blockId).isSome

def blockHeightFor (blockId : Uint256) : ℤ :=
  match bc.blockHeight.lookup blockId with
  | none => -1
  | some height => if bc.longestChain.length ≤ height then -1 else height

def block (height : ℕ) : BlockHeader :=
  if bc.longestChain.length ≤ height then emptyHeader
  else if height < bc.staticChain.length then bc.staticChain.getD height emptyHeader
  else bc.longestChain.getD height emptyHeader

/-- The variables of the loop over the headers; `startHeight` is none for -1. -/
structure Checking where
  prevHash : Uint256 := 0
  startHeight : Option ℕ := none
  height : ℕ := 0
  chainWork : BitVec 256 := 0
deriving DecidableEq

/-- Why the loop stops: the peer is reported, or an assert fails. -/
inductive Stop
  | failure (what : String)
  | assertion
deriving DecidableEq

/-- The work up to `startHeight`, from the tip down. -/
def rollback (startHeight : ℕ) : BitVec 256 :=
  ((bc.longestChain.take (bc.tip.height + 1)).drop startHeight).reverse.foldl (fun work header =>
    work - blockProof header)
    bc.tip.chainWork

/-- The first header: where it goes on, and the work up to there. -/
def branch (count : ℕ) (header : BlockHeader) (c : Checking) : Except Stop Checking :=
  match bc.blockHeight.lookup header.hashPrevBlock with
  | none => .error (.failure "is on a different chain, headers don't extend ours")
  | some parent =>
    let c := { c with startHeight := some (parent + 1), height := parent + 1 }
    if bc.tip.height = parent then .ok { c with chainWork := bc.tip.chainWork }
    else if (count : ℤ) < bc.tip.height - (parent + 1 : ℕ) then
      .error (.failure "is on a different chain, headers don't extend ours")
    else if bc.tip.height + 1 ≠ bc.longestChain.length then .error .assertion
    else .ok { c with chainWork := bc.rollback (parent + 1) }

def checkPow (hash : Uint256) (nBits : ℕ) : Bool :=
  let (bnTarget, fNegative, fOverflow) := SetCompact nBits
  !(fNegative || bnTarget = 0 || fOverflow || powLimit < bnTarget || bnTarget < hash.toNat)

section

variable (createHash : BlockHeader → Uint256) (checkpoints : ℕ → Option Uint256)

/-- The part behind the check of the sequence; `createHash` asserts a merkle root. -/
def checkHash (header : BlockHeader) (c : Checking) : Except Stop Checking :=
  if header.hashMerkleRoot = 0 then .error .assertion
  else if !checkPow (createHash header) header.nBits then
    .error (.failure "sent bogus headers. POW failed")
  else if (checkpoints c.height).any (· ≠ createHash header) then
    .error (.failure "is on a different chain, checkpoint failure")
  else .ok { c with
    prevHash := createHash header
    height := c.height + 1
    chainWork := c.chainWork + blockProof header }

variable (bc : Blockchain)

def checkHeader (maxFuture count : ℕ) (c : Checking) (header : BlockHeader) : Except Stop Checking :=
  if maxFuture < header.nTime then .error (.failure "sent bogus headers. Too far in future")
  else if c.startHeight = none then (bc.branch count header c).bind
    (checkHash createHash checkpoints header)
  else if c.prevHash ≠ header.hashPrevBlock then .error (.failure "sent bogus headers. Not in sequence")
  else checkHash createHash checkpoints header c

def checkHeaders (maxFuture : ℕ) (message : HeadersMessage) : Except Stop Checking :=
  (message.headers.foldlM (bc.checkHeader createHash checkpoints maxFuture message.count) {}).bind
    fun c =>
    if message.headers.length < message.count then .error (.failure "Out of range") else .ok c

def store : List BlockHeader → ℕ → List BlockHeader × Table Uint256 ℕ →
      List BlockHeader × Table Uint256 ℕ
  | [], _, s => s
  | header :: headers, height, (chain, blockHeight) =>
    store headers (height + 1) (chain.set height header,
      insertNew blockHeight (createHash header) height)

/-- The headers replace those from their height on. -/
def takeOver (headers : List BlockHeader) (startHeight : ℕ) (c : Checking) : Blockchain :=
  let stored := store createHash headers startHeight
    (resize bc.longestChain (startHeight + headers.length), bc.blockHeight)
  { bc with longestChain := stored.1, blockHeight := stored.2, tip := ⟨c.prevHash, c.height - 1, c.chainWork⟩ }

/-- The peer was reported, nothing was changed, or the headers were taken over. -/
inductive Outcome
  | rejected
  | unchanged
  | applied
deriving DecidableEq

/-- `none` is a failed assert. -/
def processBlockHeaders (maxFuture : ℕ) (message : HeadersMessage) : Option (Outcome × Blockchain) :=
  if 2000 < message.count then some (.rejected, bc)
  else
    match bc.checkHeaders createHash checkpoints maxFuture message with
    | .error (.failure _) => some (.rejected, bc)
    | .error .assertion => none
    | .ok c =>
      if c.chainWork ≤ bc.tip.chainWork then some (.unchanged, bc)
      else c.startHeight.map fun startHeight =>
        (.applied, bc.takeOver createHash message.headers startHeight c)

def createGenericGenesis (genesis : BlockHeader) : Blockchain where
  longestChain := [genesis]
  blockHeight := insertNew ∅ (createHash genesis) 0
  tip := ⟨createHash genesis, 0, blockProof genesis⟩

def insertStatic : List BlockHeader → ℕ → Table Uint256 ℕ → Table Uint256 ℕ
  | [], _, t => t
  | header :: headers, height, t =>
    insertStatic headers (height + 1) (insertNew t (createHash header) height)

/-- Whole headers and a rest; longer data that starts with another block is ignored. -/
def loadStaticChain (data : List BlockHeader) (remainder : Fin 80) : Blockchain :=
  if 80 < 80 * data.length + remainder ∧
    data.head?.map createHash ≠ bc.longestChain.head?.map createHash then bc
  else if data = [] then bc
  else { bc with
    longestChain := resize bc.longestChain data.length
    blockHeight := insertStatic createHash data.tail 1 bc.blockHeight
    tip := ⟨createHash (data.getLastD emptyHeader), data.length - 1,
      (data.tail.map blockProof).foldl (· + ·) bc.tip.chainWork⟩
    staticChain := data }

/-- The messages that were handled all satisfied `ok` in the state in which they came. -/
def Reached (ok : Blockchain → ℕ → HeadersMessage → Prop) (start : Blockchain) : Blockchain → Prop :=
  Relation.ReflTransGen (fun bc bc' => ∃ maxFuture message outcome, ok bc maxFuture message ∧
    bc.processBlockHeaders createHash checkpoints maxFuture message = some (outcome, bc')) start

end

end Blockchain

end FloweeHub.P2P
