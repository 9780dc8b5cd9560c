import FloweeHub.Primitives.Transaction

/-! The tagged message format: variable length numbers, the fields `MessageBuilder::add` writes, and
`MessageParser::next` as a step on the parser's position. -/

namespace FloweeHub.Streaming

open Lib List Nat

variable {v : ℕ} {n : ℕ} {data : Bytes}

/-! ### Variable length numbers -/

/-- The bytes of `Private::serialize`: seven bits each, all but the last with the high bit set. -/
def serializeGroups : ℕ → Bool → ℕ → Bytes
  | 0, _, _ => []
  | n + 1, more, value =>
    let last := UInt8.ofNat (value % 128 + bif more then 128 else 0)
    if value ≤ 0x7F then [last] else serializeGroups n true (value / 128 - 1) ++ [last]

def serialize (value : ℕ) : Bytes := serializeGroups 10 false value

/-- The loop of `Private::unserialize`, with the bytes `used` so far. -/
def unserializeFrom : ℕ → Bytes → ℕ → ℕ → Option (ℕ × ℕ)
  | n + 1, byte :: rest, result, used =>
    let result := (result * 128 + byte.toNat % 128) % 2 ^ 64
    if 128 ≤ byte.toNat then unserializeFrom n rest ((result + 1) % 2 ^ 64) (used + 1)
    else some (result, used + 1)
  | _, _, _, _ => none

def unserialize (data : Bytes) (position : ℕ) : Option (ℕ × ℕ) :=
  (unserializeFrom 10 (data.drop position) 0 0).map fun r => (r.1, position + r.2)

theorem unserializeFrom_more (hv : v + 1 < 2 ^ 64) (n : ℕ) (rest : Bytes) (used : ℕ) :
    unserializeFrom (n + 1) (UInt8.ofNat (v % 128 + 128) :: rest) (v / 128) used =
      unserializeFrom n rest (v + 1) (used + 1) := by
  have hb : (UInt8.ofNat (v % 128 + 128)).toNat = v % 128 + 128 := by rw [UInt8.toNat_ofNat']; omega
  simp only [unserializeFrom, hb]
  rw [if_pos (by omega)]
  congr 1
  omega

theorem unserializeFrom_last (hv : v < 2 ^ 64) (n : ℕ) (rest : Bytes) (used : ℕ) :
    unserializeFrom (n + 1) (UInt8.ofNat (v % 128) :: rest) (v / 128) used = some (v, used + 1) := by
  have hb : (UInt8.ofNat (v % 128)).toNat = v % 128 := by rw [UInt8.toNat_ofNat']; omega
  simp only [unserializeFrom, hb]
  rw [if_neg (by omega)]
  congr 2
  omega

theorem length_serializeGroups_le (n : ℕ) (more : Bool) (v : ℕ) :
    (serializeGroups n more v).length ≤ n := by
  induction n generalizing more v with
  | zero => simp [serializeGroups]
  | succ n ih =>
    simp only [serializeGroups]
    split_ifs
    all_goals simp [ih]

theorem serializeGroups_of_le (more : Bool) (h : v ≤ 0x7F) :
    serializeGroups (n + 1) more v = [UInt8.ofNat (v % 128 + bif more then 128 else 0)] := by
  rw [serializeGroups, if_pos h]

theorem serializeGroups_of_gt (more : Bool) (h : ¬ v ≤ 0x7F) : serializeGroups (n + 1) more v =
      serializeGroups n true (v / 128 - 1) ++ [UInt8.ofNat (v % 128 + bif more then 128 else 0)] := by
  rw [serializeGroups, if_neg h]

/-- Reading the groups in front of the last byte leaves the value they stand for. -/
theorem unserializeFrom_groups (n k v used : ℕ) (rest : Bytes) (hv : v + 1 < 2 ^ 64)
    (hn : v < 128 ^ (n + 1)) :
    unserializeFrom ((serializeGroups (n + 1) true v).length + k)
      (serializeGroups (n + 1) true v ++ rest) 0 used =
      unserializeFrom k rest (v + 1) (used + (serializeGroups (n + 1) true v).length) := by
  induction n generalizing v k rest with
  | zero =>
    have h := unserializeFrom_more hv k rest used
    rw [show v / 128 = 0 by omega] at h
    rw [serializeGroups_of_le true (by omega), length_singleton, add_comm 1 k]
    exact h
  | succ n ih =>
    by_cases hle : v ≤ 0x7F
    · have h := unserializeFrom_more hv k rest used
      rw [show v / 128 = 0 by omega] at h
      rw [serializeGroups_of_le true hle, length_singleton, add_comm 1 k]
      exact h
    · have hdiv : v / 128 < 128 ^ (n + 1) := by
        rw [div_lt_iff_lt_mul (by decide)]
        simpa [pow_succ] using hn
      have h := ih (k + 1) (v / 128 - 1) (UInt8.ofNat (v % 128 + 128) :: rest) (by omega) (by omega)
      rw [Nat.sub_add_cancel (by omega), unserializeFrom_more hv] at h
      rw [serializeGroups_of_gt true hle, length_append, length_singleton, append_assoc,
        singleton_append, cond_true, add_assoc, add_comm 1 k, ← add_assoc used]
      exact h

/-- A number is read back from the bytes that `serialize` writes, whatever follows. -/
theorem unserializeFrom_serialize (hv : v < 2 ^ 64) (rest : Bytes) :
    unserializeFrom 10 (serialize v ++ rest) 0 0 = some (v, (serialize v).length) := by
  by_cases hle : v ≤ 0x7F
  · have h := unserializeFrom_last hv 9 rest 0
    rw [show v / 128 = 0 by omega] at h
    rw [serialize, serializeGroups_of_le false hle]
    exact h
  · have hlen := length_serializeGroups_le 9 true (v / 128 - 1)
    obtain ⟨k, hk⟩ : ∃ k, 10 = (serializeGroups 9 true (v / 128 - 1)).length + (k + 1) :=
      ⟨9 - (serializeGroups 9 true (v / 128 - 1)).length, by omega⟩
    have h := unserializeFrom_groups 8 (k + 1) (v / 128 - 1) 0 (UInt8.ofNat (v % 128) :: rest)
      (by omega) (by omega)
    rw [Nat.sub_add_cancel (by omega), unserializeFrom_last hv, ← hk] at h
    rw [serialize, serializeGroups_of_gt false hle, append_assoc, singleton_append, cond_false,
      length_append, length_singleton]
    simpa only [add_zero, zero_add] using h

theorem unserialize_of_drop {rest : Bytes} {p : ℕ} (hv : v < 2 ^ 64)
    (h : data.drop p = serialize v ++ rest) :
    unserialize data p = some (v, p + (serialize v).length) := by
  simp [unserialize, h, unserializeFrom_serialize hv]

/-- The types of a field. -/
inductive ValueType
  | positiveNumber
  | negativeNumber
  | string
  | byteArray
  | boolTrue
  | boolFalse
  | double
deriving DecidableEq, Repr

def ValueType.code : ValueType → ℕ
  | .positiveNumber => 0
  | .negativeNumber => 1
  | .string => 2
  | .byteArray => 3
  | .boolTrue => 4
  | .boolFalse => 5
  | .double => 6

/-- Tags from 31 on do not fit in the first byte. -/
def writeTag (tag : ℕ) (type : ValueType) : Bytes :=
  if 31 ≤ tag then UInt8.ofNat (31 * 8 + type.code) :: serialize tag
  else [UInt8.ofNat (tag * 8 + type.code)]

namespace MessageBuilder

def addLong (tag value : ℕ) : Bytes := writeTag tag .positiveNumber ++ serialize value

variable (tag : ℕ)

def addInt (value : ℤ) : Bytes :=
  writeTag tag (if 0 ≤ value then .positiveNumber else .negativeNumber) ++ serialize value.natAbs

def addByteArray (data : Bytes) : Bytes := writeTag tag .byteArray ++ serialize data.length ++ data

def addUint256 (value : Uint256) : Bytes := addByteArray tag value.toBytes

def addBool (value : Bool) : Bytes := writeTag tag (if value then .boolTrue else .boolFalse)

end MessageBuilder

/-! ### The parser -/

/-- A value that was parsed. -/
inductive Value
  | int (v : ℤ)
  | bool (v : Bool)
  | long (v : ℕ)
  | double (raw : Bytes)
deriving DecidableEq, Repr

/-- Where the value of a field is. -/
inductive ValueState
  | valueParsed
  | lazyByteArray
  | lazyString
deriving DecidableEq, Repr

/-- The answers of `next`. -/
inductive ParsedType
  | foundTag
  | endOfDocument
  | error
deriving DecidableEq, Repr

/-- The parser: its buffer, its position and the last field. -/
structure MessageParser where
  data : Bytes
  position : ℕ
  tag : ℕ
  valueState : ValueState
  value : Value
  dataStart : ℤ
  dataLength : ℤ
deriving DecidableEq, Repr

namespace MessageParser

variable {type : ValueType} {v : ℕ}

def ofBuffer (buffer : Bytes) : MessageParser :=
  { data := buffer, position := 0, tag := 0, valueState := .valueParsed, value := .int 0,
    dataStart := -1, dataLength := -1 }

def numberValue (type value : ℕ) : Value :=
  if type = 1 then .int (toInt32 (-(value : ℤ)))
  else if value < 0x7FFFFFFF then .int value else .long value

/-- The `switch` of `next`; the value starts one byte behind `position`. -/
def readValue (type : ℕ) (p : MessageParser) : ParsedType × MessageParser :=
  match type with
  | 0 | 1 =>
    match unserialize p.data (p.position + 1) with
    | none => (.error, p)
    | some (value, pos) => (.foundTag, { p with position := pos, value := numberValue type value })
  | 2 | 3 =>
    match unserialize p.data (p.position + 1) with
    | none => (.error, p)
    | some (value, newPos) =>
      -- `newPos + value` is an unsigned 64 bit sum, in which a length from 2^63 on acts as a
      -- negative one; a sum below zero is then larger than any buffer
      let stop : ℤ := newPos + Wrap64.wrap value
      if stop < 0 ∨ (p.data.length : ℤ) < stop then (.error, p)
      else
        (.foundTag, { p with
          valueState := if type = 3 then .lazyByteArray else .lazyString
          dataStart := newPos
          dataLength := toInt32 value
          position := stop.toNat })
  | 4 => (.foundTag, { p with value := .bool true, position := p.position + 1 })
  | 5 => (.foundTag, { p with value := .bool false, position := p.position + 1 })
  | 6 =>
    (.foundTag, { p with
      value := .double ((p.data.drop (p.position + 1)).take 8), position := p.position + 9 })
  | _ => (.error, p)

variable (p : MessageParser) {q : MessageParser} {pos : ℕ}

def next : ParsedType × MessageParser :=
  match p.data[p.position]? with
  | none => (.endOfDocument, p)
  | some byte =>
    let p := { p with valueState := .valueParsed, tag := byte.toNat / 8 }
    if byte.toNat / 8 = 31 then
      match unserialize p.data (p.position + 1) with
      | none => (.error, p)
      | some (tag, pos) =>
        if 0xFFFFFFFF < tag then (.error, { p with position := pos - 1 })
        else readValue (byte.toNat % 8) { p with tag := tag, position := pos - 1 }
    else readValue (byte.toNat % 8) p

def intData : ℤ :=
  match p.valueState, p.value with
  | .valueParsed, .int v => v
  | .valueParsed, .long v => toInt32 v
  | _, _ => 0

def longData : ℕ :=
  match p.value with
  | .int v => (v % 2 ^ 64).toNat
  | .long v => v
  | _ => 0

def boolData : Bool :=
  match p.valueState, p.value with
  | .valueParsed, .bool v => v
  | _, _ => false

/-- The method `dataLength()`, which is zero for a number. -/
def arrayLength : ℤ := if p.valueState = .valueParsed then 0 else p.dataLength

def bytesData : Bytes :=
  if p.valueState = .lazyByteArray then (p.data.drop p.dataStart.toNat).take p.dataLength.toNat else []

def uint256Data : Uint256 :=
  if p.valueState = .lazyByteArray ∧ 32 ≤ p.dataLength then
    Uint256.ofBytes ((p.data.drop p.dataStart.toNat).take 32)
  else 0

/-! ### Reading back what a builder wrote -/

theorem toNat_tagByte {tag : ℕ} (h : tag ≤ 31) (type : ValueType) :
    (UInt8.ofNat (tag * 8 + type.code)).toNat = tag * 8 + type.code ∧ type.code < 8 := by
  have hc : type.code < 8 := by cases type <;> decide
  rw [UInt8.toNat_ofNat']
  omega

theorem getElem?_of_drop {rest : Bytes} {p : ℕ} {b : UInt8} (h : data.drop p = b :: rest) :
    data[p]? = some b := by
  rw [← add_zero p, ← getElem?_drop, h, getElem?_cons_zero]

theorem drop_add_of_drop {front rest : Bytes} {p : ℕ} (h : data.drop p = front ++ rest) :
    data.drop (p + front.length) = rest := by
  rw [← drop_drop, h, drop_left]

/-- A tag, short or long, takes the parser to the last byte of the tag. -/
theorem next_of_writeTag {p : MessageParser} {tag : ℕ} {rest : Bytes}
    (ht : tag < 2 ^ 32) (h : p.data.drop p.position = writeTag tag type ++ rest) :
    p.next = readValue type.code { p with
      valueState := .valueParsed, tag := tag,
      position := p.position + (writeTag tag type).length - 1 } := by
  unfold writeTag at h ⊢
  split_ifs at h ⊢ with hlong
  · obtain ⟨hb, hc⟩ := toNat_tagByte le_rfl type
    have htail := @drop_add_of_drop _ [_] _ _ h
    rw [length_singleton] at htail
    rw [next, getElem?_of_drop h]
    simp only [hb, show (31 * 8 + type.code) / 8 = 31 by omega,
      show (31 * 8 + type.code) % 8 = type.code by omega, if_true]
    rw [unserialize_of_drop (by omega) htail]
    simp only [length_cons]
    rw [if_neg (by omega)]
    congr 2
    omega
  · obtain ⟨hb, hc⟩ := toNat_tagByte (show tag ≤ 31 by omega) type
    rw [next, getElem?_of_drop h]
    simp only [hb, show (tag * 8 + type.code) / 8 = tag by omega,
      show (tag * 8 + type.code) % 8 = type.code by omega, length_singleton, Nat.add_sub_cancel]
    rw [if_neg (by omega)]

theorem intData_of_number {v : ℤ} (hs : q.valueState = .valueParsed)
    (hq : q.value = numberValue (if 0 ≤ v then ValueType.positiveNumber else .negativeNumber).code
      v.natAbs)
    (hlo : -2 ^ 31 ≤ v) (hhi : v < 2 ^ 31) : q.intData = v := by
  have hself : toInt32 v = v := toInt32_of_fits (by omega) (by omega)
  by_cases hv : 0 ≤ v
  · have habs : (v.natAbs : ℤ) = v := by omega
    by_cases hsm : v.natAbs < 0x7FFFFFFF
    · simp [intData, hs, hq, numberValue, hv, ValueType.code, hsm, habs]
    · simp [intData, hs, hq, numberValue, hv, ValueType.code, hsm, habs, hself]
  · have habs : toInt32 (-(v.natAbs : ℤ)) = v := by rwa [show -(v.natAbs : ℤ) = v by omega]
    simpa [intData, hs, hq, numberValue, hv, ValueType.code] using habs

theorem longData_of_number (hq : q.value = numberValue 0 v) (hv : v < 2 ^ 64) : q.longData = v := by
  by_cases hsm : v < 0x7FFFFFFF
  · simp only [longData, hq, numberValue, hsm, if_true]
    simp only [zero_ne_one, if_false]
    omega
  · simp [longData, hq, numberValue, hsm]

theorem length_writeTag_pos (tag : ℕ) (type : ValueType) : 0 < (writeTag tag type).length := by
  unfold writeTag
  split_ifs <;> simp

theorem readValue_number {p : MessageParser} {type : ℕ} (ht : type = 0 ∨ type = 1)
    (h : unserialize p.data (p.position + 1) = some (v, pos)) :
    readValue type p = (.foundTag, { p with position := pos, value := numberValue type v }) := by
  rcases ht with rfl | rfl <;> simp only [readValue, h]

/-- The value of a string or byte array stays where it is; the parser notes its place. -/
theorem readValue_array {p : MessageParser} {type : ℕ} (ht : type = 2 ∨ type = 3)
    (h : unserialize p.data (p.position + 1) = some (v, pos)) (hfit : pos + v ≤ p.data.length)
    (hv : v < 2 ^ 31) :
    readValue type p = (.foundTag, { p with
      valueState := if type = 3 then .lazyByteArray else .lazyString
      dataStart := pos, dataLength := v, position := pos + v }) := by
  have hwrap : Wrap64.wrap (v : ℤ) = v := Wrap64.wrap_eq_self ⟨by omega, by omega⟩
  have hint : toInt32 (v : ℤ) = v := toInt32_of_fits (by omega) (by omega)
  have hstop : ((pos : ℤ) + v).toNat = pos + v := by omega
  rcases ht with rfl | rfl <;> simp only [readValue, h, hwrap, hint, hstop] <;> rw [if_neg (by omega)]

/-- One call of `next` goes over a field that stands in front of `rest`. -/
structure Passes (p : MessageParser) (field rest : Bytes) (tag : ℕ) (q : MessageParser) : Prop where
  next : p.next = (.foundTag, q)
  data : q.data = p.data
  position : q.position = p.position + field.length
  rest : q.data.drop q.position = rest
  tag : q.tag = tag

variable {p : MessageParser} {tag : ℕ} {rest : Bytes} {bytes : Bytes}

theorem next_number (ht : tag < 2 ^ 32) (htype : type.code = 0 ∨ type.code = 1) (hv : v < 2 ^ 64)
    (h : p.data.drop p.position = writeTag tag type ++ serialize v ++ rest) :
    ∃ q, p.Passes (writeTag tag type ++ serialize v) rest tag q ∧ q.valueState = .valueParsed ∧
      q.value = numberValue type.code v := by
  rw [append_assoc] at h
  have hval := drop_add_of_drop h
  have hpos := length_writeTag_pos tag type
  have hu := unserialize_of_drop hv hval
  rw [← Nat.sub_add_cancel (by omega : 1 ≤ p.position + _)] at hu
  refine ⟨_, ⟨(next_of_writeTag ht h).trans (readValue_number htype hu), rfl, ?_, ?_, rfl⟩, rfl, rfl⟩
  · simp only [length_append]
    omega
  · have hend := drop_add_of_drop hval
    rwa [← Nat.sub_add_cancel (by omega : 1 ≤ p.position + _)] at hend

theorem next_array (ht : tag < 2 ^ 32) (htype : type.code = 2 ∨ type.code = 3)
    (hlen : bytes.length < 2 ^ 31)
    (h : p.data.drop p.position = writeTag tag type ++ serialize bytes.length ++ bytes ++ rest) :
    ∃ q, p.Passes (writeTag tag type ++ serialize bytes.length ++ bytes) rest tag q ∧
      q.valueState = (if type.code = 3 then .lazyByteArray else .lazyString) ∧
      q.dataLength = bytes.length ∧ q.data.drop q.dataStart.toNat = bytes ++ rest := by
  rw [append_assoc, append_assoc] at h
  have hval := drop_add_of_drop h
  have hbs := drop_add_of_drop hval
  have hpos := length_writeTag_pos tag type
  have hu := unserialize_of_drop (by omega : bytes.length < 2 ^ 64) hval
  rw [← Nat.sub_add_cancel (by omega : 1 ≤ p.position + _)] at hu hbs
  have hfit : p.position + (writeTag tag type).length - 1 + 1 + (serialize bytes.length).length +
      bytes.length ≤ p.data.length := by
    have hl := congrArg length hbs
    rw [length_drop, length_append] at hl
    by_cases hzero : bytes.length = 0
    · have hl2 := congrArg length hval
      rw [length_drop, length_append, length_append] at hl2
      have hser : 0 < (serialize bytes.length).length := by simp [hzero, serialize, serializeGroups]
      omega
    · omega
  refine ⟨_, ⟨(next_of_writeTag ht h).trans (readValue_array htype hu hfit hlen), rfl, ?_,
    drop_add_of_drop hbs, rfl⟩, rfl, rfl, ?_⟩
  · simp only [length_append]
    omega
  · simpa only [Int.toNat_natCast] using hbs

theorem next_addInt {v : ℤ} (ht : tag < 2 ^ 32) (hlo : -2 ^ 31 ≤ v) (hhi : v < 2 ^ 31)
    (h : p.data.drop p.position = MessageBuilder.addInt tag v ++ rest) :
    ∃ q, p.Passes (MessageBuilder.addInt tag v) rest tag q ∧ q.intData = v := by
  have hcode : (if 0 ≤ v then ValueType.positiveNumber else .negativeNumber).code = 0 ∨
      (if 0 ≤ v then ValueType.positiveNumber else .negativeNumber).code = 1 := by
    split_ifs <;> simp [ValueType.code]
  obtain ⟨q, hpass, hs, hq⟩ := next_number ht hcode (by omega) h
  exact ⟨q, hpass, intData_of_number hs hq hlo hhi⟩

theorem next_bool {v : Bool} (ht : tag < 2 ^ 32)
    (h : p.data.drop p.position = MessageBuilder.addBool tag v ++ rest) :
    ∃ q, p.Passes (MessageBuilder.addBool tag v) rest tag q ∧ q.valueState = .valueParsed ∧
      q.value = .bool v := by
  rw [MessageBuilder.addBool] at h
  have hpos := length_writeTag_pos tag (if v then .boolTrue else .boolFalse)
  have hend := drop_add_of_drop h
  rw [← Nat.sub_add_cancel (by omega : 1 ≤ p.position + _)] at hend
  have hnext := next_of_writeTag ht h
  have hposition : p.position + (writeTag tag (if v then .boolTrue else .boolFalse)).length - 1 + 1 =
      p.position + (MessageBuilder.addBool tag v).length := by
    rw [MessageBuilder.addBool]
    omega
  cases v with
  | false => exact ⟨_, ⟨hnext, rfl, hposition, hend, rfl⟩, rfl, rfl⟩
  | true => exact ⟨_, ⟨hnext, rfl, hposition, hend, rfl⟩, rfl, rfl⟩

theorem boolData_of_value {v : Bool} (hs : p.valueState = .valueParsed) (hv : p.value = .bool v) :
    p.boolData = v := by
  rw [boolData, hs, hv]

theorem next_addByteArray (ht : tag < 2 ^ 32) (hlen : bytes.length < 2 ^ 31)
    (h : p.data.drop p.position = MessageBuilder.addByteArray tag bytes ++ rest) :
    ∃ q, p.Passes (MessageBuilder.addByteArray tag bytes) rest tag q ∧
      q.arrayLength = bytes.length ∧ q.bytesData = bytes ∧
      (bytes.length = 32 → q.uint256Data = Uint256.ofBytes bytes) ∧ q.valueState = .lazyByteArray ∧
      q.dataLength = bytes.length ∧ q.data.drop q.dataStart.toNat = bytes ++ rest := by
  obtain ⟨q, hpass, hst, hlength, hbs⟩ := next_array ht (.inr rfl) hlen h
  have hlazy : q.valueState = .lazyByteArray := hst
  refine ⟨q, hpass, ?_, ?_, fun h32 => ?_, hlazy, hlength, hbs⟩
  · simp [arrayLength, hlazy, hlength]
  · simp only [bytesData, hlazy, hlength, hbs, Int.toNat_natCast, if_true, take_left]
  · simp [uint256Data, hlazy, hlength, hbs, h32, take_left' h32]

theorem next_addUint256 {v : Uint256} (ht : tag < 2 ^ 32)
    (h : p.data.drop p.position = MessageBuilder.addUint256 tag v ++ rest) :
    ∃ q, p.Passes (MessageBuilder.addUint256 tag v) rest tag q ∧ q.uint256Data = v := by
  obtain ⟨q, hpass, -, -, hval, -⟩ := next_addByteArray ht (by rw [Uint256.length_toBytes]; decide) h
  exact ⟨q, hpass, (hval (Uint256.length_toBytes v)).trans (Uint256.ofBytes_toBytes v)⟩

end MessageParser

end FloweeHub.Streaming
