import FloweeHub.Validation.Engine

/-! The end of a block's way: `processNewBlock` appends or drops the block, and `handleFailedBlock`
blames its header. Mempool, wallet and peers are left out. -/

namespace FloweeHub.Validation

open Lib

namespace Engine

/-- Every entry from `tip` down to `p`, which is left out, descends from a failed block. -/
def markDescendants (p : IndexPtr) : ℕ → Engine → IndexPtr → Engine
  | 0, e, _ => e
  | n + 1, e, tip =>
    if tip = p then e
    else
      let e := e.modifyIndex tip fun b => { b with failedChild := true }
      match (e tip).pprev with
      | none => e
      | some q => markDescendants p n e q

/-- Mark what descends from `p` on one of the header chains. -/
def failDescendants (p : IndexPtr) (e : Engine) (tip : IndexPtr) : Engine :=
  if e.db.index.GetAncestor tip (e p).nHeight = some p then
    markDescendants p ((e tip).nHeight - (e p).nHeight).toNat e tip
  else e

/-- `handleFailedBlock`, apart from what it tells the peer. -/
def handleFailedBlock (s : StateId) (e : Engine) : Except String Engine :=
  match e.states s with
  | none => .ok e
  | some st =>
    let e := recursivelyMark (e.nextState + 1) e s
    match st.blockIndex with
    | none => .ok e
    | some p =>
      if !st.isCorruptionPossible && st.checkMerkleRoot then
        let e := e.modifyIndex p fun b => { b with failedValid := true }
        let e := e.db.headerChainTips.foldl (failDescendants p) e
        let e := { e with utxo := e.utxo.setFailedBlockId st.blockId }
        if st.ownsIndex then .ok e
        else
          let currentHeaderTip := e.headerChain
          let r := e.db.appendHeader p
          let e := { e with db := r.2 }
          if r.1 && currentHeaderTip ≠ e.headerChain then e.prepareChain else .ok e
      else .ok e

variable (params : Params)

/-- The coinbase claims no more than the fees and the subsidy. -/
def coinbaseAmountOk (st : BlockValidationState) (nHeight : ℤ) : Except String Bool :=
  if st.fetchFees then
    match st.block.vtx with
    | [] => .error "vtx[0]: out of range"
    | coinbase :: _ =>
      coinbase.GetValueOut.bind fun valueOut =>
        .ok (valueOut ≤ Wrap64.add st.blockFees (GetBlockSubsidy params nHeight))
  else .ok true

def undoData (st : BlockValidationState) : Bytes :=
  UndoBlockBuilder.build st.blockId (st.undoItems.filterMap id)

/-- Commit the changes of the block and make it the tip. -/
def appendToChain (s : StateId) (st : BlockValidationState) (p : IndexPtr) (e : Engine) : Engine :=
  let e := { e with undoBlocks := Function.update e.undoBlocks p (some (undoData st)) }
  let e := e.modifyIndex p fun b => { b with haveUndo := true }.RaiseValidity BLOCK_VALID_SCRIPTS
  let e := { e with utxo := e.utxo.blockFinished st.blockId (e p).nHeight st.blockId }
  let e := e.signalChildren (((e.states s).map BlockValidationState.chainChildren).getD [])
  { e with blockchain := some p, tip := some p }

def appendGenesis (s : StateId) (st : BlockValidationState) (p : IndexPtr) (e : Engine) : Engine :=
  let e := { e with utxo := e.utxo.blockFinished st.blockId (e p).nHeight st.blockId, blockchain := some p }
  let e := e.modifyIndex p fun b => b.RaiseValidity BLOCK_VALID_SCRIPTS
  e.signalChildren (((e.states s).map BlockValidationState.chainChildren).getD [])

/-- The body of the `try` for a block that is to be appended, with the `Exception` it throws. -/
def tryAppend (s : StateId) (st : BlockValidationState) (p : IndexPtr) (e : Engine) :
    Except String (Engine × Option Exception) :=
  if e.utxo.blockId ≠ st.block.previousBlockId then
    .ok (e, some (.invalid "UnspentOutput DB inconsistent!" 100))
  else
    let parentTx := (((e p).pprev).map fun q => (e q).nChainTx).getD 0
    let e := e.modifyIndex p fun b =>
      { b with nChainTx := b.nTx + parentTx }.RaiseValidity BLOCK_VALID_CHAIN
    if (e p).nHeight = 0 then .ok (appendGenesis s st p e, none)
    else if params.blockSigCheckAcceptLimit < st.sigChecksCounted then
      .ok (e, some (.invalid "bad-blk-sigcheck" 100))
    else
      (coinbaseAmountOk params st (e p).nHeight).bind fun ok =>
        if ok then .ok (appendToChain s st p e, none) else .ok (e, some (.invalid "bad-cb-amount" 100))

/-- What becomes of a block that is not just checked, up to where the state lets go of its index. -/
def settleBlock (s : StateId) (st : BlockValidationState) (p : IndexPtr) (e : Engine) :
    Except String (Engine × Bool) :=
  let blockValid := !st.status.invalid
  let e := if blockValid then e else { e with utxo := e.utxo.rollback st.blockId }
  let isNextChainTip : Bool := (e p).nHeight = e.height + 1
  let addToChain := isNextChainTip && blockValid && e.onHeaderChain p
  let e := if isNextChainTip then e else e.modifyIndex p fun b => { b with failedChild := true }
  if addToChain then
    (tryAppend params s st p e).bind fun r =>
      match r.2 with
      | none => .ok (r.1, true)
      | some ex =>
        .ok (r.1.modifyState s fun st =>
          st.blockFailed 100 ex.what ex.rejectCode ex.corruptionPossible, false)
  else if blockValid then .ok (e, false)
  else if (e p).pprev = none then .ok (e, false)
  else
    (handleFailedBlock s e).bind fun e =>
      .ok (if (e p).nHeight = e.lastFullBlockScheduled then
        { e with lastFullBlockScheduled := e.lastFullBlockScheduled - 1 } else e, false)

/-- The block is appended, blamed or dropped, and its children go on. -/
def processNewBlock (s : StateId) (e : Engine) : Except String Engine :=
  if e.shuttingDown then .ok e
  else
    match e.states s with
    | none => .ok e
    | some st =>
      match st.blockIndex with
      | none => .ok e
      | some p =>
        if st.checkValidityOnly then
          .ok { e with blocksBeingValidated := e.blocksBeingValidated.filter fun b => b.1 ≠ st.blockId }
        else
          (settleBlock params s st p e).bind fun r =>
            let e := r.1
            let e := { e with blocksBeingValidated := e.blocksBeingValidated.filter fun b =>
              b.1 ≠ st.blockId }
            -- a genesis block that fails ends the function before the state is released
            if st.status.invalid && (e p).pprev = none then .ok e
            else
              let e := { e with chainTipChildren := st.chainChildren }
              let e := e.modifyState s fun st => { st with blockIndex := none }
              .ok (if r.2 then { e with tipFlags := st.flags } else e)

end Engine

end FloweeHub.Validation
