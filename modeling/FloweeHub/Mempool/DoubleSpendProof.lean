import FloweeHub.Primitives.Serialize

/-! Double spend proofs: the data of two signatures that spend the same output, and the id of
a proof. -/

namespace FloweeHub

open Lib Serialize

/-- What one of the two transactions signed. -/
structure Spender where
  txVersion : ℕ
  outSequence : ℕ
  lockTime : ℕ
  hashPrevOutputs : Uint256
  hashSequence : Uint256
  hashOutputs : Uint256
  pushData : List Bytes
deriving DecidableEq, Repr

def Spender.serialize (s : Spender) : Bytes :=
  LittleEndian.encode 4 s.txVersion ++ LittleEndian.encode 4 s.outSequence ++ LittleEndian.encode 4
    s.lockTime ++ s.hashPrevOutputs.toBytes ++ s.hashSequence.toBytes ++ s.hashOutputs.toBytes ++
    writeVector (fun data => writeScript (Counted.ofList data)) (Counted.ofList s.pushData)

/-- The two spenders of one output, in the order of their hashes. -/
structure DoubleSpendProof where
  prevTxId : Uint256
  prevOutIndex : Int32
  spender1 : Spender
  spender2 : Spender
deriving DecidableEq, Repr

namespace DoubleSpendProof

def serialize (p : DoubleSpendProof) : Bytes :=
  p.prevTxId.toBytes ++ LittleEndian.encode 4 p.prevOutIndex.toUInt32.toNat ++ p.spender1.serialize ++
    p.spender2.serialize

def createHash (Hash : Bytes → Uint256) (p : DoubleSpendProof) : Uint256 := Hash p.serialize

def prevOut (p : DoubleSpendProof) : OutPoint := ⟨p.prevTxId, p.prevOutIndex.toUInt32.toNat⟩

end DoubleSpendProof

end FloweeHub
