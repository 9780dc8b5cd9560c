import FloweeHub.Lib.Guards
import FloweeHub.Script.Flags
import FloweeHub.Primitives.Transaction
import FloweeHub.Validation.Exception

/-! The checks of a transaction: `checkTransaction`, the relative lock times of BIP68, and
`validateTransactionInputs`. Running a script is a parameter that gives the signature checks or an
error. -/

namespace FloweeHub.Validation

open Lib Lib.Guards

def COINBASE_MATURITY : ℤ := 100

def MAX_TX_SIZE : ℕ := 1000000

/-- `ValidationPrivate::UnspentOutput`, what is known of a spent output. -/
structure PrevOut where
  outputScript : Bytes := []
  amount : ℤ := 0
  blockheight : ℤ := 0
  isCoinbase : Bool := false
deriving DecidableEq, Repr

abbrev VerifyScript := Transaction → ℕ → PrevOut → ScriptFlags → Except String ℕ

def throwInvalid {α : Type} (error : String) : Except Thrown α :=
  .error (.exception (.invalid error 100))

def checkOutputs (nValueOut : ℤ) : List TxOut → Except Thrown Unit
  | [] => .ok ()
  | txout :: rest =>
    if txout.nValue < 0 then throwInvalid "bad-txns-vout-negative"
    else if MAX_MONEY < txout.nValue then throwInvalid "bad-txns-vout-toolarge"
    else if !MoneyRange (Wrap64.add nValueOut txout.nValue) then
      throwInvalid "bad-txns-txouttotal-toolarge"
    else checkOutputs (Wrap64.add nValueOut txout.nValue) rest

/-- The checks that need nothing but the transaction. -/
def checkTransaction (tx : Transaction) : Except Thrown Unit :=
  if tx.vin = [] then .error (.exception (.invalid "bad-txns-vin-empty" 10))
  else if tx.vout = [] then .error (.exception (.invalid "bad-txns-vout-empty" 10))
  else if MAX_TX_SIZE < tx.size then throwInvalid "bad-txns-oversize"
  else
    (checkOutputs 0 tx.vout).bind fun _ =>
      if ¬ (tx.vin.map TxIn.prevout).Nodup then throwInvalid "bad-txns-inputs-duplicate"
      else if tx.IsCoinBase then
        if tx.vin.any fun txin => txin.scriptSig.length < 2 ∨ 100 < txin.scriptSig.length then
          throwInvalid "bad-cb-length"
        else .ok ()
      else if tx.vin.any fun txin => txin.prevout.IsNull then
        .error (.exception (.invalid "bad-txns-prevout-null" 10))
      else .ok ()

def SEQUENCE_LOCKTIME_DISABLE_FLAG : ℕ := 2 ^ 31

def SEQUENCE_LOCKTIME_TYPE_FLAG : ℕ := 2 ^ 22

def SEQUENCE_LOCKTIME_MASK : ℕ := 0xffff

/-- The loop of `CalculateSequenceLocks`; `medianTimePast` is that of the ancestor at a height. -/
def calculateSequenceLocks (medianTimePast : ℤ → ℤ) (nMinHeight nMinTime : ℤ) : List (TxIn × ℤ) → ℤ × ℤ
  | [] => (nMinHeight, nMinTime)
  | (txin, nCoinHeight) :: rest =>
    if txin.nSequence &&& SEQUENCE_LOCKTIME_DISABLE_FLAG ≠ 0 then
      calculateSequenceLocks medianTimePast nMinHeight nMinTime rest
    else if txin.nSequence &&& SEQUENCE_LOCKTIME_TYPE_FLAG ≠ 0 then
      let nCoinTime := medianTimePast (max (nCoinHeight - 1) 0)
      let lock : ℤ := ((txin.nSequence &&& SEQUENCE_LOCKTIME_MASK) <<< 9 : ℕ)
      calculateSequenceLocks medianTimePast nMinHeight (max nMinTime (nCoinTime + lock - 1)) rest
    else
      let lock : ℤ := (txin.nSequence &&& SEQUENCE_LOCKTIME_MASK : ℕ)
      calculateSequenceLocks medianTimePast (max nMinHeight (nCoinHeight + lock - 1)) nMinTime rest

/-- `SequenceLocks` for a block at `nHeight`; `verify` is `LOCKTIME_VERIFY_SEQUENCE`. -/
def sequenceLocks (medianTimePast : ℤ → ℤ) (nHeight : ℤ) (verify : Bool) (tx : Transaction)
    (prevHeights : List ℤ) : Bool :=
  let locks :=
    if verify && 2 ≤ tx.nVersion % 2 ^ 32 then
      calculateSequenceLocks medianTimePast (-1) (-1) (tx.vin.zip prevHeights)
    else (-1, -1)
  !(nHeight ≤ locks.1 || medianTimePast (nHeight - 1) ≤ locks.2)

/-- The loop that adds up what the inputs bring in. -/
def valueIn (unspents : List PrevOut) : ℤ := Wrap64.sumFrom 0 (unspents.map PrevOut.amount)

def mandatoryFailure (error : String) : Thrown :=
  .exception (.invalid ("mandatory-script-verify-flag-failed (" ++ error ++ ")") 100)

def nonMandatoryFailure (error : String) : Thrown :=
  .exception (.rejected ("non-mandatory-script-verify-flag (" ++ error ++ ")") .rejectNonstandard 0)

/-- Run the script of input `i`; a failure is told apart by a second run with fewer flags. -/
def checkInputScript (verify : VerifyScript) (tx : Transaction) (flags : ScriptFlags) (i : ℕ)
    (prevout : PrevOut) : Except Thrown ℕ :=
  match verify tx i prevout flags with
  | .ok sigCheckCount => .ok sigCheckCount
  | .error e =>
    if flags.hasNotMandatory then
      match verify tx i prevout flags.withoutNotMandatory with
      | .ok _ => .error (nonMandatoryFailure e)
      | .error _ => .error (mandatoryFailure e)
    else .error (mandatoryFailure e)

/-- The second loop: the signature checks and whether a coinbase is spent. -/
def checkInputs (verify : VerifyScript) (tx : Transaction) (blockHeight : ℤ) (flags : ScriptFlags)
    (i : ℕ) :
    List PrevOut → Except Thrown (ℕ × Bool)
  | [] => .ok (0, false)
  | prevout :: rest =>
    if prevout.isCoinbase && blockHeight - prevout.blockheight < COINBASE_MATURITY then
      throwInvalid "bad-txns-premature-spend-of-coinbase"
    else if !MoneyRange prevout.amount then throwInvalid "bad-txns-inputvalues-outofrange"
    else
      (checkInputScript verify tx flags i prevout).bind fun sigCheckCount =>
        (checkInputs verify tx blockHeight flags (i + 1) rest).bind fun r =>
          .ok (sigCheckCount + r.1, prevout.isCoinbase || r.2)

/-- What a valid transaction adds to its block. -/
structure InputsResult where
  fees : ℤ
  txSigChecks : ℕ
  spendsCoinbase : Bool
deriving DecidableEq, Repr

/-- The checks of a transaction against what it spends. -/
def validateTransactionInputs (verify : VerifyScript) (tx : Transaction) (unspents : List PrevOut)
    (blockHeight : ℤ) (flags : ValidationFlags) (requireStandard : Bool) : Except Thrown InputsResult :=
  (tx.GetValueOut.mapError Thrown.runtimeError).bind fun valueOut =>
    if valueIn unspents < valueOut then throwInvalid "bad-txns-in-belowout"
    else if !MoneyRange (valueIn unspents) then throwInvalid "bad-txns-inputvalues-outofrange"
    else
      let fees := Wrap64.sub (valueIn unspents) valueOut
      if fees < 0 then throwInvalid "bad-txns-fee-negative"
      else if !MoneyRange fees then throwInvalid "bad-txns-fee-outofrange"
      else
        (checkInputs verify tx blockHeight (flags.scriptValidationFlags requireStandard) 0
          unspents).bind fun r =>
          .ok ⟨fees, r.1 % 2 ^ 32, r.2⟩

section

variable {verify : VerifyScript} {tx : Transaction} {blockHeight : ℤ} {flags : ScriptFlags} {i n : ℕ}

theorem checkInputScript_ok_iff {p : PrevOut} :
    checkInputScript verify tx flags i p = .ok n ↔ verify tx i p flags = .ok n := by
  unfold checkInputScript
  cases verify tx i p flags with
  | ok m => simp
  | error e =>
    split_ifs
    · cases verify tx i p flags.withoutNotMandatory <;> simp
    · simp

/-- The signature checks of the inputs from `i` on, if all their scripts pass. -/
def scriptCounts (verify : VerifyScript) (tx : Transaction) (flags : ScriptFlags) (i : ℕ) :
    List PrevOut → Option ℕ
  | [] => some 0
  | prevout :: rest =>
    match verify tx i prevout flags with
    | .error _ => none
    | .ok n => (scriptCounts verify tx flags (i + 1) rest).map (n + ·)

/-- A coinbase output is old enough to be spent in a block at `blockHeight`. -/
def PrevOut.Mature (blockHeight : ℤ) (p : PrevOut) : Prop :=
  p.isCoinbase = true → COINBASE_MATURITY ≤ blockHeight - p.blockheight

instance (p : PrevOut) : Decidable (p.Mature blockHeight) := inferInstanceAs (Decidable (_ → _))

theorem checkInputs_ok_iff {b : Bool} {ps : List PrevOut} :
    checkInputs verify tx blockHeight flags i ps = .ok (n, b) ↔
      (∀ p ∈ ps, p.Mature blockHeight) ∧ (∀ p ∈ ps, MoneyRange p.amount) ∧
        scriptCounts verify tx flags i ps = some n ∧ ps.any PrevOut.isCoinbase = b := by
  induction ps generalizing i n b with
  | nil => simp [checkInputs, scriptCounts]
  | cons p ps ih =>
    have hguard : ¬ ((p.isCoinbase && decide (blockHeight - p.blockheight < COINBASE_MATURITY)) = true) ↔
        p.Mature blockHeight := by
      simp [PrevOut.Mature]
    have hct : scriptCounts verify tx flags i (p :: ps) = some n ↔
        ∃ k, verify tx i p flags = .ok k ∧ ∃ m, scriptCounts verify tx flags (i + 1) ps = some m ∧
          k + m = n := by
      cases hv : verify tx i p flags <;> simp [scriptCounts, hv]
    simp only [checkInputs, throwInvalid, ite_error_eq_ok_iff, bind_eq_ok_iff, hguard,
      checkInputScript_ok_iff, Prod.exists, ih, hct, List.forall_mem_cons, List.any_cons,
      Except.ok.injEq, Prod.mk.injEq, Bool.not_eq_true', Bool.not_eq_false]
    constructor
    · rintro ⟨hm, ha, k, hk, m, c, ⟨hms, has, hsc, rfl⟩, hn, rfl⟩
      exact ⟨⟨hm, hms⟩, ⟨ha, has⟩, ⟨k, hk, m, hsc, hn⟩, rfl⟩
    · rintro ⟨⟨hm, hms⟩, ⟨ha, has⟩, ⟨k, hk, m, hsc, hn⟩, rfl⟩
      exact ⟨hm, ha, k, hk, m, _, ⟨hms, has, hsc, rfl⟩, hn, rfl⟩

/-- The rules that `validateTransactionInputs` applies, stated on exact values. -/
structure InputsValid (verify : VerifyScript) (tx : Transaction) (unspents : List PrevOut)
    (blockHeight : ℤ) (flags : ScriptFlags) : Prop where
  outputs : tx.GetValueOut = .ok tx.valueOut
  enough : tx.valueOut ≤ valueIn unspents
  total : MoneyRange (valueIn unspents)
  mature : ∀ p ∈ unspents, p.Mature blockHeight
  amounts : ∀ p ∈ unspents, MoneyRange p.amount
  scripts : (scriptCounts verify tx flags 0 unspents).isSome

/-- The two checks of the fee can not fail any more when they are reached. -/
theorem validateTransactionInputs_ok {unspents : List PrevOut} {flags : ValidationFlags}
    {requireStandard : Bool} {r : InputsResult}
    (h : validateTransactionInputs verify tx unspents blockHeight flags requireStandard = .ok r) :
    InputsValid verify tx unspents blockHeight (flags.scriptValidationFlags requireStandard) ∧
      ∃ n, r = ⟨valueIn unspents - tx.valueOut, n, unspents.any PrevOut.isCoinbase⟩ := by
  cases hv : tx.GetValueOut with
  | error what => simp [validateTransactionInputs, hv, Except.mapError] at h
  | ok v =>
    obtain ⟨rfl, hrg, -⟩ := Transaction.GetValueOut_ok hv
    simp only [validateTransactionInputs, hv, Except.mapError, ok_bind, throwInvalid,
      ite_error_eq_ok_iff, bind_eq_ok_iff, Prod.exists, checkInputs_ok_iff, Except.ok.injEq, not_lt,
      Bool.not_eq_true', Bool.not_eq_false] at h
    obtain ⟨hle, htot, -, -, n, b, ⟨hm, ha, hn, rfl⟩, rfl⟩ := h
    have hsub : Wrap64.sub (valueIn unspents) tx.valueOut = valueIn unspents - tx.valueOut := by
      rw [moneyRange_iff] at hrg htot
      exact Wrap64.sub_of_fits (fits_of_abs_le (by omega) (by omega))
    exact ⟨⟨hv, hle, htot, hm, ha, by simp [hn]⟩, _, by rw [hsub]⟩

end

end FloweeHub.Validation
