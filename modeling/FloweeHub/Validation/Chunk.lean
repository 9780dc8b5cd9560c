import FloweeHub.Validation.TxInputs
import FloweeHub.Validation.UpdateUtxo

/-! The stage that spends: `checkSignaturesChunk` takes the spent outputs out, checks the
transactions and collects fees and undo items. An exception leaves behind what was taken out before
it. -/

namespace FloweeHub.Validation

open Lib

/-- The stored output behind a record, script execution, and the median time at a height. -/
structure CheckEnv where
  read : UnspentOutput → Except String TxOut
  verify : VerifyScript
  medianTimePast : ℤ → ℤ

/-- The variables of a chunk; `sums` are the exact results of its additions. -/
structure ChunkVars where
  utxo : UnspentOutputDatabase
  txMap : List (TxInput × ℤ)
  spentMap : List TxInput
  undoItems : List UndoItem := []
  perTxFees : List ℤ := []
  chunkSigChecks : ℕ := 0
  chunkFees : ℤ := 0
  sums : List ℤ := []
deriving DecidableEq, Repr

/-- What the inputs of a transaction spend. -/
structure SpentVars where
  prevheights : List ℤ := []
  unspents : List PrevOut := []
deriving DecidableEq, Repr

def missingInputs : Thrown := .exception (.invalid "missing-inputs" 0)

/-- The exact sums of the loop in `GetValueOut`, up to the one after which it throws. -/
def valueOutSums (nValueOut : ℤ) : List TxOut → List ℤ
  | [] => []
  | txout :: rest =>
    let sum := Wrap64.add nValueOut txout.nValue
    (nValueOut + txout.nValue) ::
      if MoneyRange txout.nValue && MoneyRange sum then valueOutSums sum rest else []

/-- The exact sums that `validateTransactionInputs` forms. -/
def validateSums (tx : Transaction) (unspents : List PrevOut) : List ℤ :=
  Wrap64.partialSums 0 (unspents.map PrevOut.amount) ++ valueOutSums 0 tx.vout ++
    match tx.GetValueOut with
    | .error _ => []
    | .ok valueOut =>
      if valueIn unspents < valueOut || !MoneyRange (valueIn unspents) then []
      else valueOutSums 0 tx.vout ++ [valueIn unspents - valueOut]

namespace BlockValidationState

variable (env : CheckEnv) (st : BlockValidationState) (blockHeight : ℤ)

def prevOut (u : UnspentOutput) : Except Thrown (List PrevOut) :=
  if st.flags.enableValidation || st.fetchFees then
    match env.read u with
    | .error what => .error (.runtimeError what)
    | .ok o => .ok [{ outputScript := o.scriptPubKey, amount := o.nValue, blockheight := u.blockHeight }]
  else .ok []

variable (input : TxInput)

/-- The previous output that a transaction of the same block made. -/
def prevOutInBlock (offsetInBlock : ℤ) : List PrevOut :=
  if st.fetchFees then
    let o := (st.block.outputAt offsetInBlock input.index).getD ⟨0, []⟩
    [{ outputScript := o.scriptPubKey, amount := o.nValue, blockheight := blockHeight }]
  else []

/-- An input takes its output out of the database. -/
def spendFromUtxo (c : ChunkVars) : ChunkVars × Except Thrown SpentVars :=
  match c.utxo.find input with
  | none => (c, .error missingInputs)
  | some u =>
    match st.prevOut env u with
    | .error t => (c, .error t)
    | .ok unspents =>
      let removed := c.utxo.remove st.blockId input
      if removed.1.isValid then
        ({ c with
            utxo := removed.2
            undoItems := c.undoItems ++ [⟨input.txid, input.index, removed.1.blockHeight,
              removed.1.offsetInBlock⟩] },
          .ok ⟨[u.blockHeight], unspents⟩)
      else ({ c with utxo := removed.2 }, .error missingInputs)

/-- Spend one input of a block that is only checked, with two maps for the changes. -/
def spendChecked (c : ChunkVars) : ChunkVars × Except Thrown SpentVars :=
  match c.utxo.find input with
  | none =>
    match c.txMap.find? fun e => e.1 = input with
    | none => (c, .error missingInputs)
    | some e =>
      ({ c with txMap := c.txMap.eraseP fun e => e.1 = input },
        .ok ⟨[blockHeight], st.prevOutInBlock blockHeight input e.2⟩)
  | some u =>
    if c.spentMap.contains input then (c, .error missingInputs)
    else
      let c := { c with spentMap := c.spentMap ++ [input] }
      match st.prevOut env u with
      | .error t => (c, .error t)
      | .ok unspents => (c, .ok ⟨[u.blockHeight], unspents⟩)

def spendInput (c : ChunkVars) : ChunkVars × Except Thrown SpentVars :=
  if st.checkValidityOnly then st.spendChecked env blockHeight input c else st.spendFromUtxo env input c

def spendInputs : List TxInput → ChunkVars → ChunkVars × Except Thrown SpentVars
  | [], c => (c, .ok {})
  | input :: rest, c =>
    match st.spendInput env blockHeight input c with
    | (c, .error t) => (c, .error t)
    | (c, .ok s) =>
      match spendInputs rest c with
      | (c, .error t) => (c, .error t)
      | (c, .ok s') => (c, .ok ⟨s.prevheights ++ s'.prevheights, s.unspents ++ s'.unspents⟩)

/-- The fee and the signature checks, or nothing without fees and for the coinbase. -/
def checkFees (txIndex : ℕ) (tx : Transaction) (s : SpentVars) : Except Thrown (Option (ℤ × ℕ)) :=
  if st.flags.enableValidation && 0 < txIndex then
    if !sequenceLocks env.medianTimePast blockHeight st.flags.nLocktimeVerifySequence tx
      s.prevheights then
      throwInvalid "bad-txns-nonfinal"
    else
      (validateTransactionInputs env.verify tx s.unspents blockHeight st.flags false).bind fun r =>
        .ok (some (r.fees, r.txSigChecks))
  else if st.fetchFees && 0 < txIndex then
    .ok (some (Wrap64.sub (valueIn s.unspents) (Wrap64.sumFrom 0 (tx.vout.map TxOut.nValue)), 0))
  else .ok none

def feeSums (txIndex : ℕ) (tx : Transaction) (s : SpentVars) : List ℤ :=
  if st.flags.enableValidation && 0 < txIndex then
    if sequenceLocks env.medianTimePast blockHeight st.flags.nLocktimeVerifySequence tx
      s.prevheights then
      validateSums tx s.unspents
    else []
  else if st.fetchFees && 0 < txIndex then
    Wrap64.partialSums 0 (s.unspents.map PrevOut.amount) ++ Wrap64.partialSums 0
      (tx.vout.map TxOut.nValue) ++
      [valueIn s.unspents - Wrap64.sumFrom 0 (tx.vout.map TxOut.nValue)]
  else []

def outputItems (tx : Transaction) : List UndoItem :=
  (List.range tx.vout.length).map fun i : ℕ => UndoItem.inserted tx.hash i

/-- The end of a turn of the loop: fees and undo items are added. -/
def finishTx (tx : Transaction) (r : Option (ℤ × ℕ)) (c : ChunkVars) : ChunkVars :=
  let c :=
    match r with
    | none => c
    | some (fee, sigChecks) =>
      { c with
        perTxFees := c.perTxFees ++ [toInt32 fee]
        chunkSigChecks := (c.chunkSigChecks + sigChecks) % 2 ^ 32
        chunkFees := Wrap64.add c.chunkFees fee
        sums := c.sums ++ [c.chunkFees + fee] }
  if st.checkValidityOnly then c else { c with undoItems := c.undoItems ++ outputItems tx }

/-- One turn of the loop over the transactions. The inputs of the coinbase are skipped. -/
def checkTx (t : Transaction × ℕ) (c : ChunkVars) : ChunkVars × Option Thrown :=
  match st.spendInputs env blockHeight (if t.2 = 0 then [] else t.1.findInputs) c with
  | (c, .error e) => (c, some e)
  | (c, .ok s) =>
    let c := { c with sums := c.sums ++ st.feeSums env blockHeight t.2 t.1 s }
    match st.checkFees env blockHeight t.2 t.1 s with
    | .error e => (c, some e)
    | .ok r => (st.finishTx t.1 r c, none)

/-- The loop of a chunk, up to the first exception. -/
def checkTxs : List (Transaction × ℕ) → ChunkVars → ChunkVars × Option Thrown
  | [], c => (c, none)
  | t :: rest, c =>
    match st.checkTx env blockHeight t c with
    | (c, some e) => (c, some e)
    | (c, none) => checkTxs rest c

def chunkTxs (split : ChunkSplit) (k : ℕ) : List (Transaction × ℕ) :=
  if st.checkValidityOnly then if k = 0 then st.block.vtx.zipIdx else []
  else (st.block.vtx.zipIdx.drop (split.itemsPerChunk * k)).take split.itemsPerChunk

/-- A chunk, and what it adds to the block. -/
def checkSignaturesChunk (split : ChunkSplit) (k : ℕ) (utxo : UnspentOutputDatabase) :
    UnspentOutputDatabase × BlockValidationState :=
  let txs := if st.status.invalid then [] else st.chunkTxs split k
  let r := st.checkTxs env blockHeight txs { utxo := utxo, txMap := st.txMap, spentMap := st.spentMap }
  let c := r.1
  let st := match r.2 with
    | none => st
    | some t => st.failedBy .rejectMalformed t
  (c.utxo,
    { st with
      txMap := c.txMap
      spentMap := c.spentMap
      undoItems := st.undoItems.set k (some c.undoItems)
      perTxFees := if st.fetchFees then st.perTxFees.set k (some c.perTxFees) else st.perTxFees
      blockFees := Wrap64.add st.blockFees c.chunkFees
      sigChecksCounted := (st.sigChecksCounted + c.chunkSigChecks) % 2 ^ 32
      sums := st.sums ++ c.sums ++ [st.blockFees + c.chunkFees]
      txChunkLeftToStart := st.txChunkLeftToStart - 1
      txChunkLeftToFinish := st.txChunkLeftToFinish - 1 })

def checkChunks (split : ChunkSplit) : List ℕ → UnspentOutputDatabase × BlockValidationState →
    UnspentOutputDatabase × BlockValidationState
  | [], r => r
  | k :: rest, r => checkChunks split rest (r.2.checkSignaturesChunk env blockHeight split k r.1)

/-- Both stages of one block, with the chunks finishing in the given order. -/
def checkBlock (isGenesis : Bool) (split : ChunkSplit) (order : List ℕ) (utxo : UnspentOutputDatabase) :
    UnspentOutputDatabase × BlockValidationState :=
  match st.updateUtxoAndStartValidation blockHeight isGenesis split utxo with
  | (utxo, st, true) => checkChunks env blockHeight split order (utxo, st)
  | (utxo, st, false) => (utxo, st)

/-! ### What the stages can do to the unspent outputs and to the state -/

section Stages

variable {st : BlockValidationState} {Q : UnspentOutputDatabase → Prop} {c : ChunkVars}
  {utxo : UnspentOutputDatabase}

/-- The fields that no stage of a block changes. -/
structure SameBlock (st st' : BlockValidationState) : Prop where
  block : st'.block = st.block
  blockId : st'.blockId = st.blockId
  blockIndex : st'.blockIndex = st.blockIndex
  checkValidityOnly : st'.checkValidityOnly = st.checkValidityOnly
  fetchFees : st'.fetchFees = st.fetchFees
  flags : st'.flags = st.flags
  chainChildren : st'.chainChildren = st.chainChildren

theorem SameBlock.refl (st : BlockValidationState) : SameBlock st st :=
  ⟨rfl, rfl, rfl, rfl, rfl, rfl, rfl⟩

theorem SameBlock.trans {st1 st2 st3 : BlockValidationState} (h1 : SameBlock st1 st2)
    (h2 : SameBlock st2 st3) :
    SameBlock st1 st3 :=
  ⟨h2.block.trans h1.block, h2.blockId.trans h1.blockId, h2.blockIndex.trans h1.blockIndex,
    h2.checkValidityOnly.trans h1.checkValidityOnly, h2.fetchFees.trans h1.fetchFees,
    h2.flags.trans h1.flags, h2.chainChildren.trans h1.chainChildren⟩

theorem sameBlock_failedBy (internal : RejectCode) (t : Thrown) :
    SameBlock st (st.failedBy internal t) := by
  cases t <;> exact ⟨rfl, rfl, rfl, rfl, rfl, rfl, rfl⟩

theorem sameBlock_checkSignaturesChunk (split : ChunkSplit) (k : ℕ) (utxo : UnspentOutputDatabase) :
    SameBlock st (st.checkSignaturesChunk env blockHeight split k utxo).2 := by
  unfold checkSignaturesChunk
  dsimp only
  split
  · exact ⟨rfl, rfl, rfl, rfl, rfl, rfl, rfl⟩
  next t _ =>
    have h : SameBlock st (st.failedBy .rejectMalformed t) := sameBlock_failedBy ..
    exact ⟨h.block, h.blockId, h.blockIndex, h.checkValidityOnly, h.fetchFees, h.flags, h.chainChildren⟩

@[simp] theorem finishTx_utxo (tx : Transaction) (r : Option (ℤ × ℕ)) (c : ChunkVars) :
    (st.finishTx tx r c).utxo = c.utxo := by
  unfold finishTx
  cases r <;> dsimp only <;> split_ifs <;> rfl

/-- What holds after every single input holds after all of them. -/
theorem spendInputs_preserves {P : ChunkVars → Prop}
    (hone : ∀ i c, P c → P (st.spendInput env blockHeight i c).1) (inputs : List TxInput)
    (hc : P c) : P (st.spendInputs env blockHeight inputs c).1 := by
  induction inputs generalizing c with
  | nil => exact hc
  | cons input rest ih =>
    have h := hone input c hc
    unfold spendInputs
    split
    next c' t heq => rw [heq] at h; exact h
    next c' s heq =>
      rw [heq] at h
      have h' := ih h
      split
      next heq' => rw [heq'] at h'; exact h'
      next heq' => rw [heq'] at h'; exact h'

section

variable (hrem : ∀ db i, Q db → Q (db.remove st.blockId i).2)
include hrem

/-- One input. -/
theorem spendInput_preserves (input : TxInput) (hc : Q c.utxo) :
    Q (st.spendInput env blockHeight input c).1.utxo := by
  unfold spendInput
  split_ifs
  · unfold spendChecked
    split
    · split <;> exact hc
    · split_ifs
      · exact hc
      · dsimp only; split <;> exact hc
  · unfold spendFromUtxo
    split
    · exact hc
    · split
      · exact hc
      · dsimp only; split_ifs <;> exact hrem _ _ hc

/-- One transaction. -/
theorem checkTx_preserves (t : Transaction × ℕ) (hc : Q c.utxo) :
    Q (st.checkTx env blockHeight t c).1.utxo := by
  have h := spendInputs_preserves (P := fun c => Q c.utxo) env blockHeight
    (fun i _ => spendInput_preserves env blockHeight hrem i) (if t.2 = 0 then [] else t.1.findInputs) hc
  unfold checkTx
  split
  next heq => rw [heq] at h; exact h
  next heq =>
    rw [heq] at h
    split
    · exact h
    · simpa using h

/-- The transactions of a chunk. -/
theorem checkTxs_preserves (txs : List (Transaction × ℕ)) (hc : Q c.utxo) :
    Q (st.checkTxs env blockHeight txs c).1.utxo := by
  induction txs generalizing c with
  | nil => exact hc
  | cons t rest ih =>
    have h := checkTx_preserves env blockHeight hrem t hc
    unfold checkTxs
    split
    next heq => rw [heq] at h; exact h
    next heq => rw [heq] at h; exact ih h

/-- All chunks, in the order in which they ran. -/
theorem checkChunks_preserves (split : ChunkSplit) (order : List ℕ)
    {r : UnspentOutputDatabase × BlockValidationState} (hr : SameBlock st r.2) (hQ : Q r.1) :
    Q (checkChunks env blockHeight split order r).1 ∧
      SameBlock st (checkChunks env blockHeight split order r).2 := by
  induction order generalizing r with
  | nil => exact ⟨hQ, hr⟩
  | cons k rest ih =>
    refine ih (hr.trans (sameBlock_checkSignaturesChunk env blockHeight split k r.1)) ?_
    have hrem' : ∀ db i, Q db → Q (db.remove r.2.blockId i).2 := by rw [hr.blockId]; exact hrem
    exact checkTxs_preserves env blockHeight hrem' _ hQ

end

/-- The stage in front of the chunks. -/
theorem updateUtxo_preserves (hins : ∀ db data, Q db → Q (db.insertAll st.blockId data))
    (isGenesis : Bool) (split : ChunkSplit) (hQ : Q utxo) :
    Q (st.updateUtxoAndStartValidation blockHeight isGenesis split utxo).1 ∧
      SameBlock st (st.updateUtxoAndStartValidation blockHeight isGenesis split utxo).2.1 := by
  unfold updateUtxoAndStartValidation
  split
  · exact ⟨hQ, .refl st⟩
  · split
    · exact ⟨hQ, sameBlock_failedBy _ _⟩
    · split
      · exact ⟨hQ, ⟨rfl, rfl, rfl, rfl, rfl, rfl, rfl⟩⟩
      · exact ⟨hins _ _ hQ, ⟨rfl, rfl, rfl, rfl, rfl, rfl, rfl⟩⟩

/-- What survives inserting and removing for the block holds after both stages. -/
theorem checkBlock_preserves (hins : ∀ db data, Q db → Q (db.insertAll st.blockId data))
    (hrem : ∀ db i, Q db → Q (db.remove st.blockId i).2) (isGenesis : Bool) (split : ChunkSplit)
    (order : List ℕ) (hQ : Q utxo) : Q (st.checkBlock env blockHeight isGenesis split order utxo).1 ∧
      SameBlock st (st.checkBlock env blockHeight isGenesis split order utxo).2 := by
  have h := updateUtxo_preserves blockHeight hins isGenesis split hQ
  unfold checkBlock
  split
  next heq =>
    rw [heq] at h
    exact checkChunks_preserves env blockHeight hrem split order h.2 h.1
  next heq =>
    rw [heq] at h
    exact h

theorem sameBlock_checkBlock (st : BlockValidationState) (isGenesis : Bool) (split : ChunkSplit)
    (order : List ℕ) (utxo : UnspentOutputDatabase) :
    SameBlock st (st.checkBlock env blockHeight isGenesis split order utxo).2 :=
  (checkBlock_preserves (Q := fun _ => True) env blockHeight (fun _ _ _ => trivial)
    (fun _ _ _ => trivial) isGenesis split order trivial).2

theorem checkBlock_accounted (st : BlockValidationState) (isGenesis : Bool) (split : ChunkSplit)
    (order : List ℕ) (h : utxo.Accounted) :
    (st.checkBlock env blockHeight isGenesis split order utxo).1.Accounted :=
  (checkBlock_preserves env blockHeight (fun _ data hdb => hdb.addRecords data.records)
    (fun _ i hdb => hdb.remove i) isGenesis split order h).1

end Stages

end BlockValidationState

end FloweeHub.Validation
