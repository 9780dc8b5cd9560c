import FloweeHub.Lib.Guards
import FloweeHub.Validation.State

/-! The stage that adds the outputs of a block: `updateUtxoAndStartValidation` checks the order of
the ids and hands every output to the unspent outputs, or to the block's own map. -/

namespace FloweeHub.Validation

open Lib List

/-- How the transactions are shared out: chunk `k` has those from `k * itemsPerChunk` on. -/
structure ChunkSplit where
  chunks : ℕ
  itemsPerChunk : ℕ
deriving DecidableEq, Repr

/-- No transaction is left out. -/
def ChunkSplit.Covers (s : ChunkSplit) (txCount : ℕ) : Prop := txCount ≤ s.chunks * s.itemsPerChunk

instance (s : ChunkSplit) (txCount : ℕ) : Decidable (s.Covers txCount) :=
  inferInstanceAs (Decidable (_ ≤ _))

/-- The quotient is exact for the at most `0xFFFFFF` transactions of a block. -/
def calculateTxCheckChunks (hardwareConcurrency txCount : ℕ) : ChunkSplit :=
  let chunks := min ((txCount + 9) / 10) hardwareConcurrency
  ⟨chunks, (txCount + chunks - 1) / chunks⟩

theorem calculateTxCheckChunks_covers {hardwareConcurrency : ℕ} (h : 0 < hardwareConcurrency) (txCount : ℕ) :
    (calculateTxCheckChunks hardwareConcurrency txCount).Covers txCount := by
  rcases Nat.eq_zero_or_pos txCount with rfl | hpos
  · exact Nat.zero_le _
  · set chunks := min ((txCount + 9) / 10) hardwareConcurrency with hcks
    have hc : 0 < chunks := by rw [hcks]; exact lt_min (by omega) h
    have hdiv := Nat.div_add_mod (txCount + chunks - 1) chunks
    have hmod := Nat.mod_lt (txCount + chunks - 1) hc
    show txCount ≤ chunks * ((txCount + chunks - 1) / chunks)
    omega

/-- All outputs of a transaction, as they are handed to the unspent outputs. -/
def txOutputs (t : TxWalk) : TxOutputs := TxOutputs.mk' t.txid t.offsetInBlock 0 (t.vout.length - 1)

/-- The loop over the block: the outputs of each transaction, if the ids are in order. -/
def walkOutputs (hf201811Active : Bool) (txIndex : ℕ) (prevTxHash : Uint256) :
    List TxWalk → Except Thrown (List TxOutputs)
  | [] => .ok []
  | t :: rest =>
    if hf201811Active && 1 < txIndex && t.txid.toNat ≤ prevTxHash.toNat then
      .error (.exception (.invalid "tx-ordering-not-CTOR" 100))
    else
      (walkOutputs hf201811Active (txIndex + 1) t.txid rest).bind fun outputs =>
        .ok (txOutputs t :: outputs)

/-- The outputs the whole walk finds, or what ends it. -/
def blockOutputs (hf201811Active : Bool) (b : FastBlock) : Except Thrown (List TxOutputs) :=
  (walkOutputs hf201811Active 0 0 b.walk).bind fun outputs =>
    match b.walkError with
    | some what => .error (.runtimeError what)
    | none => .ok outputs

variable {hf201811Active : Bool} {outputs : List TxOutputs}

theorem walkOutputs_ok {txIndex : ℕ} {prevTxHash : Uint256} {walk : List TxWalk}
    (h : walkOutputs hf201811Active txIndex prevTxHash walk = .ok outputs) :
    outputs = walk.map txOutputs := by
  induction walk generalizing txIndex prevTxHash outputs with
  | nil => cases h; rfl
  | cons t rest ih =>
    obtain ⟨-, h⟩ := Guards.ite_error_eq_ok_iff.mp h
    obtain ⟨outputs', h', ⟨⟩⟩ := Guards.bind_eq_ok_iff.mp h
    rw [ih h', map_cons]

/-- The outputs of a block are those of all transactions the iterator met. -/
theorem blockOutputs_ok {b : FastBlock} (h : blockOutputs hf201811Active b = .ok outputs) :
    outputs = b.walk.map txOutputs := by
  obtain ⟨outputs', h', h⟩ := Guards.bind_eq_ok_iff.mp h
  split at h
  · cases h
  · cases h
    exact walkOutputs_ok h'

theorem txOutputs_range (t : TxWalk) : (txOutputs t).firstOutput = 0 ∧ 0 ≤ (txOutputs t).lastOutput ∧
      (t.vout ≠ [] → (txOutputs t).lastOutput = t.vout.length - 1) := by
  unfold txOutputs TxOutputs.mk'
  refine ⟨rfl, ?_, fun hne => ?_⟩
  · dsimp only
    split_ifs <;> omega
  · have := length_pos_iff.mpr hne
    rw [if_neg (by omega)]

/-- `m_txMap`: a second transaction with the same id is not inserted. -/
def insertTxMap (txMap : List (TxInput × ℤ)) (t : TxOutputs) : List (TxInput × ℤ) :=
  if txMap.any fun e => e.1.txid = t.txid then txMap
  else txMap ++ (range (t.lastOutput + 1).toNat).map fun i : ℕ => (⟨t.txid, i⟩, t.offsetInBlock)

namespace BlockValidationState

def startChunks (st : BlockValidationState) (chunks : ℕ) : BlockValidationState :=
  { st with
    txChunkLeftToFinish := chunks
    txChunkLeftToStart := chunks
    undoItems := replicate chunks none
    perTxFees := replicate chunks none }

/-- The flag tells whether chunks were posted; else it is `finishUp`. -/
def updateUtxoAndStartValidation (st : BlockValidationState) (blockHeight : ℤ) (isGenesis : Bool)
    (split : ChunkSplit) (utxo : UnspentOutputDatabase) :
    UnspentOutputDatabase × BlockValidationState × Bool :=
  if isGenesis then (utxo, st, false)
  else
    match blockOutputs st.flags.hf201811Active st.block with
    | .error t => (utxo, st.failedBy .rejectInternal t, false)
    | .ok outputs =>
      if st.checkValidityOnly then
        (utxo, { st with txMap := outputs.foldl insertTxMap st.txMap }.startChunks 1, true)
      else (utxo.insertAll st.blockId ⟨blockHeight, outputs⟩, st.startChunks split.chunks, true)

end BlockValidationState

end FloweeHub.Validation
