import FloweeHub.Chain.BlockIndex
import FloweeHub.Script.Flags
import FloweeHub.Undo.FastUndoBlock
import FloweeHub.Utxo.UnspentOutputDatabase
import FloweeHub.Validation.Exception

/-! A block and the record that follows it through validation: `transactions` is what
`findTransactions` counted, `walk` what `Tx::Iterator` meets in the same bytes. -/

namespace FloweeHub

/-- A transaction and where it is. -/
structure PlacedTx where
  tx : Transaction
  offsetInBlock : ℤ
deriving DecidableEq, Repr

/-- What the iterator sees of one transaction. -/
structure TxWalk where
  txid : Uint256
  offsetInBlock : ℤ
  nVersion : ℤ
  vout : List TxOut
deriving DecidableEq, Repr

def PlacedTx.toWalk (t : PlacedTx) : TxWalk := ⟨t.tx.hash, t.offsetInBlock, t.tx.nVersion, t.tx.vout⟩

/-- A block, with what its readers make of the bytes. -/
structure FastBlock where
  blockId : Uint256
  previousBlockId : Uint256
  nVersion : ℤ := 0
  nTime : ℕ := 0
  nBits : ℕ := 0
  size : ℕ
  transactions : List PlacedTx
  walk : List TxWalk
  /-- The text of the exception that ends the iterator's run early. -/
  walkError : Option String := none
deriving DecidableEq, Repr

namespace FastBlock

def isFullBlock (b : FastBlock) : Bool := 80 < b.size

def vtx (b : FastBlock) : List Transaction := b.transactions.map PlacedTx.tx

/-- Both readers meet the same transactions. -/
def WalkAgrees (b : FastBlock) : Prop := b.walk = b.transactions.map PlacedTx.toWalk ∧ b.walkError = none

instance (b : FastBlock) : Decidable b.WalkAgrees := inferInstanceAs (Decidable (_ ∧ _))

/-- The output `index` of the transaction at `offset`; past the outputs there is no value. -/
def outputAt (b : FastBlock) (offset index : ℤ) : Option TxOut :=
  (b.walk.find? fun t => t.offsetInBlock = offset).bind fun t =>
    if index < 0 then none else t.vout[index.toNat]?

def txVersionAt (b : FastBlock) (offset : ℤ) : Option ℤ :=
  (b.walk.find? fun t => t.offsetInBlock = offset).map TxWalk.nVersion

/-- Whole transactions start at different places and none is without outputs. -/
structure Regular (b : FastBlock) : Prop where
  offsets : (b.walk.map TxWalk.offsetInBlock).Nodup
  outputs : ∀ t ∈ b.walk, t.vout ≠ []

theorem Regular.outputAt {b : FastBlock} (h : b.Regular) {t : TxWalk} (ht : t ∈ b.walk) {index : ℤ}
    (hlo : 0 ≤ index) (hhi : index < t.vout.length) : (b.outputAt t.offsetInBlock index).isSome := by
  have hfind : (b.walk.find? fun t' => t'.offsetInBlock = t.offsetInBlock) = some t := by
    cases hf : b.walk.find? fun t' => t'.offsetInBlock = t.offsetInBlock with
    | none => simpa using List.find?_eq_none.mp hf t ht
    | some t' =>
      have hoff : t'.offsetInBlock = t.offsetInBlock := by simpa using List.find?_some hf
      rw [List.inj_on_of_nodup_map h.offsets (List.mem_of_find?_eq_some hf) ht hoff]
  have hlt : index.toNat < t.vout.length := by omega
  simp [FastBlock.outputAt, hfind, not_lt.mpr hlo, hlt]

end FastBlock

namespace Validation

abbrev StateId := ℕ

/-- The verdict on a block up to now. -/
structure ValidationStatus where
  validHeader : Bool := false
  validTree : Bool := false
  validChainHeaders : Bool := false
  validParent : Bool := false
  invalid : Bool := false
deriving DecidableEq, Repr

/-- The record that goes through the stages. -/
structure BlockValidationState where
  block : FastBlock
  blockId : Uint256
  blockIndex : Option IndexPtr := none
  /-- The block stands in a block file; `m_blockPos` is set. -/
  blockPos : Bool := false
  saveGoodToDisk : Bool := false
  ownsIndex : Bool := false
  checkPow : Bool := true
  checkMerkleRoot : Bool := true
  checkValidityOnly : Bool := false
  checkTransactionValidity : Bool := true
  fetchFees : Bool := false
  flags : ValidationFlags := {}
  punishment : ℕ := 100
  error : String := ""
  errorCode : RejectCode := .notRejected
  isCorruptionPossible : Bool := false
  txChunkLeftToStart : ℤ := -1
  txChunkLeftToFinish : ℤ := -1
  status : ValidationStatus := {}
  blockFees : ℤ := 0
  sigChecksCounted : ℕ := 0
  undoItems : List (Option (List UndoItem)) := []
  perTxFees : List (Option (List ℤ)) := []
  chainChildren : List StateId := []
  /-- The outputs made in the block and not spent yet, with the offset of their transaction. -/
  txMap : List (TxInput × ℤ) := []
  /-- The outputs of the database that the block has spent. -/
  spentMap : List TxInput := []
  /-- Bookkeeping: the exact results of the `int64_t` additions made for this block. -/
  sums : List ℤ := []
deriving DecidableEq, Repr

namespace BlockValidationState

variable (st : BlockValidationState)

def blockFailed (punishment : ℕ) (error : String) (code : RejectCode)
    (corruptionPossible : Bool) : BlockValidationState :=
  { st with
    punishment := punishment
    error := error
    errorCode := code
    isCorruptionPossible := corruptionPossible
    status := { st.status with invalid := true } }

/-- How the stages record what they caught; `internal` is the code for other exceptions. -/
def failedBy (internal : RejectCode) : Thrown → BlockValidationState
  | .exception e => st.blockFailed e.punishment e.what e.rejectCode e.corruptionPossible
  | .runtimeError what => st.blockFailed 100 what internal false

@[simp] theorem failedBy_invalid (internal : RejectCode) (t : Thrown) :
    (st.failedBy internal t).status.invalid = true := by
  cases t <;> rfl

end BlockValidationState

end Validation

end FloweeHub
