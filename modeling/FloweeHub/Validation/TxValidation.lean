import FloweeHub.Validation.Engine

/-! The check of a loose transaction up to its inputs, whose outputs come from the memory pool or
the unspent outputs. The fee policy and the memory pool entry are left out. -/

namespace FloweeHub.Validation

open Lib

def LOCKTIME_THRESHOLD : ℕ := 500000000

def SEQUENCE_FINAL : ℕ := 0xffffffff

def IsFinalTx (tx : Transaction) (nBlockHeight nBlockTime : ℤ) : Bool :=
  if tx.nLockTime = 0 then true
  else if (tx.nLockTime : ℤ) < (if tx.nLockTime < LOCKTIME_THRESHOLD then
    nBlockHeight else nBlockTime) then true
  else tx.vin.all fun txin => txin.nSequence = SEQUENCE_FINAL

def MAX_SIGCHEKCS_PER_TX : ℕ := 3000

/-- What the check reads besides the engine: the memory pool and the node's policy. -/
structure MempoolEnv where
  requireStandard : Bool
  /-- The reason why a transaction is not standard. -/
  nonstandardReason : Transaction → Option String
  isInputStandard : Bytes → Bytes → Bool
  /-- `CTxMemPool::lookup`. -/
  lookup : Uint256 → Option Transaction
  exists' : Uint256 → Bool

def throwNonstandard {α : Type} (error : String) : Except Thrown α :=
  .error (.exception (.rejected error .rejectNonstandard 0))

namespace Engine

variable (e : Engine) (m : MempoolEnv)

/-- The output that a transaction in the memory pool has for an input. -/
def prevOutInMempool (prevTx : Transaction) (txin : TxIn) : Except Thrown PrevOut :=
  match prevTx.vout[txin.prevout.n]? with
  | none => .error (.exception (.invalid "missing-inputs" 10))
  | some o => .ok { outputScript := o.scriptPubKey, amount := o.nValue }

/-- The output that the unspent outputs have for an input. -/
def prevOutInUtxo (txin : TxIn) : Except Thrown PrevOut :=
  match e.utxo.find txin.toInput with
  | none => .error missingInputs
  | some u =>
    match e.unspentOutputData u with
    | .error what => .error (.runtimeError what)
    | .ok o =>
      if e.prevTxVersion u < 0 || o.nValue < 0 then .error missingInputs
      else .ok ⟨o.scriptPubKey, o.nValue, u.blockHeight, u.isCoinbase⟩

/-- The previous output of an input, and whether the policy allows to spend it. -/
def mempoolPrevOut (txin : TxIn) : Except Thrown PrevOut :=
  (match m.lookup txin.prevout.hash with
    | some prevTx => prevOutInMempool prevTx txin
    | none => e.prevOutInUtxo txin).bind fun prevOut =>
  if m.requireStandard && !m.isInputStandard prevOut.outputScript txin.scriptSig then
    throwNonstandard "bad-txns-nonstandard-inputs"
  else .ok prevOut

def mempoolPrevOuts : List TxIn → Except Thrown (List PrevOut)
  | [] => .ok []
  | txin :: rest =>
    (e.mempoolPrevOut m txin).bind fun prevOut =>
      (mempoolPrevOuts rest).bind fun prevOuts => .ok (prevOut :: prevOuts)

/-- `CheckSequenceLocks` for a block on top of `tip`. -/
def checkSequenceLocks (tip : IndexPtr) (tx : Transaction) : Bool :=
  let nHeight := (e tip).nHeight + 1
  let prevHeight (txin : TxIn) : Option ℤ :=
    match m.lookup txin.prevout.hash with
    | some _ => some nHeight
    | none => (e.utxo.find txin.toInput).map UnspentOutput.blockHeight
  match tx.vin.mapM prevHeight with
  | none => false
  | some prevHeights =>
    sequenceLocks (fun h => ((e.db.index.GetAncestor tip h).map fun q =>
      (e.db.index.GetMedianTimePast q : ℤ)).getD 0)
      nHeight true tx prevHeights

/-- The part of the check that needs the tip. -/
def checkOnTip (params : Params) (tip : IndexPtr) (tx : Transaction) : Except Thrown InputsResult :=
  let nHeight := (e tip).nHeight
  if !IsFinalTx tx (nHeight + 1) (e.db.index.GetMedianTimePast tip) then throwNonstandard "non-final"
  else if m.exists' tx.hash then
    .error (.exception (.rejected "txn-already-known" .rejectAlreadyKnown 0))
  else
    (e.mempoolPrevOuts m tx.vin).bind fun unspents =>
      if !e.checkSequenceLocks m tip tx then throwNonstandard "non-BIP68-final"
      else
        (validateTransactionInputs params.verify tx unspents (nHeight + 1) e.tipFlags
          m.requireStandard).bind fun r =>
          if m.requireStandard && MAX_SIGCHEKCS_PER_TX < r.txSigChecks then
            throwNonstandard "bad-blk-sigcheck"
          else .ok r

/-- `TxValidationState::checkTransaction`; there is no result as long as there is no tip. -/
def checkLooseTransaction (params : Params) (tx : Transaction) : Except Thrown (Option InputsResult) :=
  if e.tipFlags.hf201811Active && tx.size < 100 then
    .error (.exception (.invalid "bad-txns-undersize" 2))
  else
    (checkTransaction tx).bind fun _ =>
      if tx.IsCoinBase then throwInvalid "coinbase"
      else
        match if m.requireStandard then m.nonstandardReason tx else none with
        | some reason => throwNonstandard reason
        | none =>
          if m.requireStandard && 2 ≤ tx.nVersion && !e.tipFlags.nLocktimeVerifySequence then
            throwNonstandard "premature-version2-tx"
          else
            match e.tip with
            | none => .ok none
            | some tip => (e.checkOnTip m params tip tx).bind fun r => .ok (some r)

end Engine

end FloweeHub.Validation
