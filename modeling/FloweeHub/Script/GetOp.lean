import FloweeHub.Primitives.Transaction

/-! The instructions of a script as `CScript::GetOp` reads them and as `operator<<` writes pushes.
Running a script is left out. -/

namespace FloweeHub.Script

open Lib LittleEndian

def OP_PUSHDATA1 : ℕ := 0x4c
def OP_PUSHDATA2 : ℕ := 0x4d
def OP_PUSHDATA4 : ℕ := 0x4e
def INVALIDOPCODE : ℕ := 0xff

/-- What a call of `GetOp` returns, with the script from the place on to which it moved. -/
structure Instruction where
  ok : Bool
  opcode : ℕ
  data : Bytes
  rest : Bytes
deriving DecidableEq, Repr

/-- A call that fails has moved over what it read. -/
def failedOp (rest : Bytes) : Instruction := ⟨false, INVALIDOPCODE, [], rest⟩

def immediate (opcode nSize : ℕ) (pc : Bytes) : Instruction :=
  if pc.length < nSize then failedOp pc else ⟨true, opcode, pc.take nSize, pc.drop nSize⟩

/-- A push whose size stands in `width` bytes behind the opcode. -/
def sizedPush (opcode width : ℕ) (pc : Bytes) : Instruction :=
  if pc.length < width then failedOp pc
  else immediate opcode (decode (pc.take width)) (pc.drop width)

def GetOp : Bytes → Instruction
  | [] => failedOp []
  | b :: pc =>
    let opcode := b.toNat
    if opcode < OP_PUSHDATA1 then immediate opcode opcode pc
    else if opcode = OP_PUSHDATA1 then sizedPush opcode 1 pc
    else if opcode = OP_PUSHDATA2 then sizedPush opcode 2 pc
    else if opcode = OP_PUSHDATA4 then sizedPush opcode 4 pc
    else ⟨true, opcode, [], pc⟩

def push (b : Bytes) : Bytes :=
  if b.length < OP_PUSHDATA1 then UInt8.ofNat b.length :: b
  else if b.length ≤ 0xff then UInt8.ofNat OP_PUSHDATA1 :: (encode 1 b.length ++ b)
  else if b.length ≤ 0xffff then UInt8.ofNat OP_PUSHDATA2 :: (encode 2 b.length ++ b)
  else UInt8.ofNat OP_PUSHDATA4 :: (encode 4 b.length ++ b)

end FloweeHub.Script
