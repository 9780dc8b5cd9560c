import Mathlib.Init

/-! The script verification flags as a record with one field for each bit, and the
validation flags of a block from which they are derived. -/

namespace FloweeHub

/-- The `SCRIPT_VERIFY_*`, `SCRIPT_ENABLE_*` and `SCRIPT_ALLOW_*` bits. -/
structure ScriptFlags where
  p2sh : Bool := false
  strictEnc : Bool := false
  derSig : Bool := false
  lowS : Bool := false
  nullDummy : Bool := false
  sigPushOnly : Bool := false
  minimalData : Bool := false
  discourageUpgradableNops : Bool := false
  cleanStack : Bool := false
  checkLockTimeVerify : Bool := false
  checkSequenceVerify : Bool := false
  nullFail : Bool := false
  enableSighashForkId : Bool := false
  enableCheckDataSig : Bool := false
  enableSchnorr : Bool := false
  enableSchnorrMultisig : Bool := false
  allowSegwitRecovery : Bool := false
  enableOpReverseBytes : Bool := false
deriving DecidableEq, Repr

namespace ScriptFlags

/-- Some bit of `STANDARD_NOT_MANDATORY_VERIFY_FLAGS` is set. -/
def hasNotMandatory (f : ScriptFlags) : Bool :=
  f.derSig || f.strictEnc || f.minimalData || f.nullDummy || f.discourageUpgradableNops ||
    f.cleanStack ||
    f.nullFail || f.checkLockTimeVerify || f.checkSequenceVerify || f.lowS

/-- The bits outside of `STANDARD_NOT_MANDATORY_VERIFY_FLAGS`. -/
def withoutNotMandatory (f : ScriptFlags) : ScriptFlags :=
  { f with
    derSig := false, strictEnc := false, minimalData := false, nullDummy := false
    discourageUpgradableNops := false, cleanStack := false, nullFail := false
    checkLockTimeVerify := false, checkSequenceVerify := false, lowS := false }

end ScriptFlags

/-- `ValidationFlags` with the values of its constructor as defaults. -/
structure ValidationFlags where
  strictPayToScriptHash : Bool := false
  enforceBIP34 : Bool := false
  enableValidation : Bool := true
  scriptVerifyDerSig : Bool := false
  scriptVerifyLockTimeVerify : Bool := false
  scriptVerifySequenceVerify : Bool := false
  nLocktimeVerifySequence : Bool := false
  hf201708Active : Bool := false
  hf201805Active : Bool := false
  hf201811Active : Bool := false
  hf201905Active : Bool := false
  hf201911Active : Bool := false
  hf202005Active : Bool := false
deriving DecidableEq, Repr

namespace ValidationFlags

def scriptValidationFlags (f : ValidationFlags) (requireStandard : Bool) : ScriptFlags where
  p2sh := f.strictPayToScriptHash || f.hf201811Active
  derSig := f.scriptVerifyDerSig
  checkLockTimeVerify := f.scriptVerifyLockTimeVerify
  checkSequenceVerify := f.scriptVerifySequenceVerify
  strictEnc := f.hf201708Active
  enableSighashForkId := f.hf201708Active
  enableCheckDataSig := f.hf201811Active
  sigPushOnly := f.hf201811Active
  cleanStack := f.hf201811Active
  allowSegwitRecovery := f.hf201905Active && !requireStandard
  enableSchnorr := f.hf201905Active
  minimalData := f.hf201911Active
  enableSchnorrMultisig := f.hf201911Active
  enableOpReverseBytes := f.hf202005Active

end ValidationFlags

end FloweeHub
