import Mathlib.Data.Nat.Notation

/-! What a validation step can throw; exceptions other than `Validation::Exception` are told apart
by how they are caught. -/

namespace FloweeHub.Validation

/-- The reject codes of the protocol. -/
inductive RejectCode
  | notRejected
  | rejectMalformed
  | rejectInvalid
  | rejectObsolete
  | rejectDuplicate
  | rejectExceedsLimit
  | rejectNonstandard
  | rejectDust
  | rejectInsufficientFee
  | rejectCheckpoint
  /-- Also `RejectHighfee`, which has the same number. -/
  | rejectInternal
  | rejectAlreadyKnown
  | rejectConflict
deriving DecidableEq, Repr

/-- `Validation::Exception`. -/
structure Exception where
  what : String
  rejectCode : RejectCode
  punishment : ℕ
  corruptionPossible : Bool
deriving DecidableEq, Repr

namespace Exception

def invalid (error : String) (punishment : ℕ) : Exception := ⟨error, .rejectInvalid, punishment, false⟩

/-- `Exception(error, InvalidNotFatal)`: another block with this header can be valid. -/
def invalidNotFatal (error : String) : Exception := ⟨error, .rejectInvalid, 100, true⟩

def rejected (error : String) (rejectCode : RejectCode) (punishment : ℕ) : Exception :=
  ⟨error, rejectCode, punishment, false⟩

end Exception

/-- Exceptions, by how they are caught. -/
inductive Thrown
  | exception (e : Exception)
  /-- Any other `std::runtime_error`, with its text. -/
  | runtimeError (what : String)
deriving DecidableEq, Repr

end FloweeHub.Validation
