import FloweeHub.Lib.ByteFile
import FloweeHub.Streaming.Fields
import Mathlib.Data.Vector.Defs

/-! Whole messages. Every field comes back with its tag and value; the type comes back unless the
parser's narrowing of numbers changes it. -/

namespace FloweeHub.Streaming

open Lib MessageBuilder MessageParser Nat
open List hiding Vector

/-- The bytes between the two pointers are used and not yet committed. All sizes are `int`s. -/
structure BufferPool where
  buffer : Bytes
  readPointer : ℕ
  writePointer : ℕ
  read_le : readPointer ≤ writePointer
  write_le : writePointer ≤ buffer.length
  length_lt : buffer.length < 2 ^ 31

namespace BufferPool

variable {pool pool' : BufferPool} {data : Bytes}

def ofSize (size : ℕ) (h : size < 2 ^ 31) : BufferPool where
  buffer := replicate size 0
  readPointer := 0
  writePointer := 0
  read_le := le_rfl
  write_le := zero_le _
  length_lt := by rwa [length_replicate]

variable (pool)

def capacity : ℕ := pool.buffer.length - pool.writePointer

def size : ℕ := pool.writePointer - pool.readPointer

/-- The memory between `begin()` and `end()`. -/
def used : Bytes := (pool.buffer.drop pool.readPointer).take pool.size

/-- There is no result when the pointer would leave the memory of the pool. -/
def markUsed (count : ℕ) : Option BufferPool :=
  if h : pool.writePointer + count ≤ pool.buffer.length then
    some { pool with
      writePointer := pool.writePointer + count
      read_le := pool.read_le.trans (le_add_right _ _)
      write_le := h }
  else none

def write (data : Bytes) : Option BufferPool :=
  if h : pool.writePointer + data.length ≤ pool.buffer.length then
    some { pool with
      buffer := ByteFile.overwrite pool.buffer pool.writePointer data
      writePointer := pool.writePointer + data.length
      read_le := pool.read_le.trans (le_add_right _ _)
      write_le := by rwa [ByteFile.length_overwrite h]
      length_lt := by rw [ByteFile.length_overwrite h]; exact pool.length_lt }
  else none

def commit : Bytes × BufferPool :=
  (pool.used, { pool with readPointer := pool.writePointer, read_le := le_rfl })

variable {pool}

theorem used_eq_drop_take (pool : BufferPool) :
    pool.used = (pool.buffer.take pool.writePointer).drop pool.readPointer := by
  rw [used, size, drop_take]

theorem length_used (pool : BufferPool) : pool.used.length = pool.size := by
  have hw := pool.write_le
  rw [used, size, length_take, length_drop]
  omega

/-- What is written stands behind what was used before, and nothing else changes. -/
theorem write_eq_some (h : data.length ≤ pool.capacity) :
    ∃ pool', pool.write data = some pool' ∧ pool'.used = pool.used ++ data ∧
      pool'.capacity = pool.capacity - data.length := by
  have hw := pool.write_le
  have hr := pool.read_le
  have hfit : pool.writePointer + data.length ≤ pool.buffer.length := by
    unfold capacity at h
    omega
  refine ⟨_, dif_pos hfit, ?_, ?_⟩
  · have hst : (pool.buffer.take pool.writePointer ++ data).length =
        pool.writePointer + data.length := by
      rw [length_append, length_take, min_eq_left hw]
    rw [used_eq_drop_take, used_eq_drop_take]
    simp only [ByteFile.overwrite]
    rw [take_left' hst, drop_append_of_le_length]
    rw [length_take]
    omega
  · simp only [capacity, ByteFile.length_overwrite hfit]
    omega

end BufferPool

/-- What a builder is told about the header. -/
inductive MessageType
  | headerOnly
  | headerAndBody
  | noHeader
deriving DecidableEq, Repr

/-- The value of one `add` call, one constructor for each overload. -/
inductive Content
  | bool (value : Bool)
  | int (value : Int32)
  | long (value : UInt64)
  | double (raw : Vector UInt8 8)
  | string (value : Bytes)
  | bytes (data : Bytes)
  | hash (value : Uint256)

/-- A tag with its value. -/
structure Item where
  tag : UInt32
  content : Content

/-- The builder with its buffer. -/
structure MessageBuilder where
  buffer : BufferPool
  inHeader : Bool
  beforeHeader : Bool
  headerSize : ℕ
  messageType : MessageType

namespace MessageBuilder

def addString (tag : ℕ) (value : Bytes) : Bytes :=
  writeTag tag .string ++ serialize value.length ++ value

def addDouble (tag : ℕ) (raw : Vector UInt8 8) : Bytes := writeTag tag .double ++ raw.toList

end MessageBuilder

def Item.write (item : Item) : Bytes :=
  match item.content with
  | .bool value => addBool item.tag.toNat value
  | .int value => addInt item.tag.toNat value.toInt
  | .long value => addLong item.tag.toNat value.toNat
  | .double raw => addDouble item.tag.toNat raw
  | .string value => addString item.tag.toNat value
  | .bytes data => addByteArray item.tag.toNat data
  | .hash value => addUint256 item.tag.toNat value

namespace MessageBuilder

def create (pool : BufferPool) (type : MessageType) : MessageBuilder where
  buffer := pool
  inHeader := type ≠ .noHeader
  beforeHeader := type ≠ .noHeader
  headerSize := 0
  messageType := type

variable (b : MessageBuilder)

/-- The builder behind an `add` call; a `bool` of tag 0 ends the header. -/
def added (item : Item) (pool : BufferPool) : MessageBuilder :=
  let endsHeader : Bool := match item.content with
    | .bool _ => b.inHeader && item.tag == 0
    | _ => false
  { b with
    buffer := pool
    beforeHeader := false
    inHeader := b.inHeader && !endsHeader
    headerSize := if endsHeader then pool.size else b.headerSize }

/-- The two bytes in front of a header are for the size. -/
def add (item : Item) : Option MessageBuilder := do
  let pool ← if b.beforeHeader then b.buffer.markUsed 2 else some b.buffer
  let pool ← pool.write item.write
  some (b.added item pool)

def addAll (items : List Item) : Option MessageBuilder := items.foldlM add b

/-- A builder without header adds the bytes of its items one behind the other. -/
theorem addAll_noHeader {items : List Item} {b : MessageBuilder} (hb : b.beforeHeader = false)
    (h : (items.flatMap Item.write).length ≤ b.buffer.capacity) :
    ∃ b', b.addAll items = some b' ∧ b'.buffer.used = b.buffer.used ++ items.flatMap Item.write := by
  induction items generalizing b with
  | nil => exact ⟨b, rfl, by simp⟩
  | cons item items ih =>
    rw [flatMap_cons, length_append] at h
    obtain ⟨pool, hwr, hused, hcapacity⟩ := b.buffer.write_eq_some (by omega : item.write.length ≤ _)
    have hadd : b.add item = some (b.added item pool) := by simp [add, hb, hwr]
    have hroom : (items.flatMap Item.write).length ≤ (b.added item pool).buffer.capacity := by
      simp only [added]
      omega
    obtain ⟨b', hall, hused'⟩ := ih rfl hroom
    refine ⟨b', ?_, ?_⟩
    · rw [addAll, foldlM_cons, hadd]
      exact hall
    · rw [hused', flatMap_cons, ← append_assoc, ← hused]
      rfl

end MessageBuilder

def Value.which : Value → ℕ
  | .int _ => 0
  | .bool _ => 1
  | .long _ => 2
  | .double _ => 3

namespace MessageParser

variable (p : MessageParser)

def isInt : Bool := p.valueState = .valueParsed ∧ p.value.which = 0

def isLong : Bool := p.valueState = .valueParsed ∧ (p.value.which = 2 ∨ p.value.which = 0)

def isString : Bool := p.valueState = .lazyString

def isBool : Bool := p.valueState = .valueParsed ∧ p.value.which = 1

def isByteArray : Bool := p.valueState = .lazyByteArray

def isDouble : Bool := p.valueState = .valueParsed ∧ p.value.which = 3

def doubleData : Bytes :=
  match p.value with
  | .double raw => raw
  | _ => replicate 8 0

def stringData : Bytes :=
  if p.isString then (p.data.drop p.dataStart.toNat).take p.dataLength.toNat else []

def bytesDataBuffer : Bytes :=
  if !p.isByteArray && !p.isString then [] else (p.data.drop p.dataStart.toNat).take p.dataLength.toNat

end MessageParser

/-! ### Reading a message back -/

/-- The type test holds and the accessor gives the value; of a number both accessors are asked. -/
def Content.ReadAs (q : MessageParser) : Content → Prop
  | .bool value => q.isBool ∧ q.boolData = value
  | .int value =>
    q.isInt ∧ (q.isInt → q.intData = value.toInt) ∧ (q.isLong → (q.longData : ℤ) = value.toInt)
  | .long value => q.isLong ∧ (q.isInt → q.intData = value.toNat) ∧ (q.isLong → q.longData = value.toNat)
  | .double raw => q.isDouble ∧ q.doubleData = raw.toList
  | .string value => q.isString ∧ q.stringData = value ∧ q.bytesDataBuffer = value
  | .bytes data => q.isByteArray ∧ q.bytesDataBuffer = data
  | .hash value => q.isByteArray ∧ q.uint256Data = value ∧ q.bytesDataBuffer = value.toBytes

/-- The value through the accessor of the type that was added, whatever the type tests say. -/
def Content.Valued (q : MessageParser) : Content → Prop
  | .bool value => q.boolData = value
  | .int value => q.intData = value.toInt
  | .long value => q.longData = value.toNat
  | .double raw => q.doubleData = raw.toList
  | .string value => q.stringData = value
  | .bytes data => q.bytesDataBuffer = data
  | .hash value => q.uint256Data = value

/-- The numbers whose type the parser's narrowing keeps. -/
def Content.KeepsType : Content → Prop
  | .int value => 0 ≤ value.toInt ∧ value.toInt < 0x7FFFFFFF
  | _ => True

/-- `next` gives one field after the other, as `R` says, then the end. -/
def MessageParser.Yields (R : MessageParser → Content → Prop) : MessageParser → List Item → Prop
  | p, [] => p.next.1 = .endOfDocument
  | p, item :: items =>
    p.next.1 = .foundTag ∧ p.next.2.tag = item.tag.toNat ∧ R p.next.2 item.content ∧
      Yields R p.next.2 items

/-- The items are added to the pool without header, and parsing what was added gives them back. -/
def RoundTrips (pool : BufferPool) (items : List Item) : Prop :=
  ∃ b, (create pool .noHeader).addAll items = some b ∧
    (ofBuffer (b.buffer.commit.1.drop pool.size)).Yields (fun q c => c.ReadAs q) items

namespace MessageParser

variable {p : MessageParser} {tag : ℕ} {rest : Bytes}

theorem next_addDouble {raw : Vector UInt8 8} (ht : tag < 2 ^ 32)
    (h : p.data.drop p.position = addDouble tag raw ++ rest) :
    ∃ q, p.Passes (addDouble tag raw) rest tag q ∧ q.isDouble ∧ q.doubleData = raw.toList := by
  rw [addDouble, append_assoc] at h
  have hpos := length_writeTag_pos tag .double
  have hval := drop_add_of_drop h
  have hend := drop_add_of_drop hval
  rw [Vector.length_toList] at hend
  have hstep : p.position + (writeTag tag .double).length - 1 + 1 =
      p.position + (writeTag tag .double).length := by omega
  refine ⟨_, ⟨next_of_writeTag ht h, rfl, ?_, ?_, rfl⟩, rfl, ?_⟩
  · simp only [addDouble, length_append, Vector.length_toList]
    omega
  · rw [← hend]
    exact congrArg p.data.drop (by simp only; omega)
  · have hraw : (p.data.drop (p.position + (writeTag tag .double).length - 1 + 1)).take 8 =
        raw.toList := by
      rw [hstep, hval, take_left' Vector.length_toList]
    exact hraw

theorem next_addString {v : Bytes} (ht : tag < 2 ^ 32) (hlen : v.length < 2 ^ 31)
    (h : p.data.drop p.position = addString tag v ++ rest) :
    ∃ q, p.Passes (addString tag v) rest tag q ∧ q.isString ∧ q.stringData = v ∧
      q.bytesDataBuffer = v := by
  obtain ⟨q, hpass, hst, hlength, hval⟩ := next_array ht (.inl rfl) hlen h
  have hlazy : q.valueState = .lazyString := hst
  refine ⟨q, hpass, ?_, ?_, ?_⟩
  · simp [isString, hlazy]
  · simp [stringData, isString, hlazy, hlength, hval]
  · simp [bytesDataBuffer, isString, isByteArray, hlazy, hlength, hval]

/-- Every number is `isLong`; it is `isInt` below the largest `int32_t`. -/
theorem isInt_number {v : ℕ} (hs : p.valueState = .valueParsed) (hv : p.value = numberValue 0 v) :
    (p.isInt ↔ v < 0x7FFFFFFF) ∧ p.isLong := by
  by_cases hsm : v < 0x7FFFFFFF
  · simp [isInt, isLong, hs, hv, numberValue, hsm, Value.which]
  · simp [isInt, isLong, hs, hv, numberValue, hsm, Value.which]

theorem next_int {v : Int32} (ht : tag < 2 ^ 32)
    (h : p.data.drop p.position = addInt tag v.toInt ++ rest) :
    ∃ q, p.Passes (addInt tag v.toInt) rest tag q ∧ (Content.int v).Valued q ∧
      ((Content.int v).ReadAs q ↔ (Content.int v).KeepsType) := by
  have hlo := v.le_toInt
  have hhi := v.toInt_lt
  obtain ⟨q, hpass, hs, hq⟩ := next_number ht (by split_ifs <;> simp [ValueType.code]) (by omega) h
  have hvalued : q.intData = v.toInt := intData_of_number hs hq hlo hhi
  refine ⟨q, hpass, hvalued, ?_⟩
  by_cases hv : 0 ≤ v.toInt
  · rw [if_pos hv] at hq
    have hlongData : (q.longData : ℤ) = v.toInt := by
      rw [longData_of_number hq (by omega), Int.natAbs_of_nonneg hv]
    obtain ⟨hint, -⟩ := isInt_number hs hq
    simp only [Content.ReadAs, Content.KeepsType, hvalued, hlongData, implies_true, and_true, hint]
    omega
  · rw [if_neg hv] at hq
    have hlong : q.isLong := by simp [isLong, hs, hq, numberValue, ValueType.code, Value.which]
    -- `longData` is unsigned, so it cannot be the number although `isLong` holds
    simp only [Content.ReadAs, Content.KeepsType, hvalued, hlong, implies_true, true_and, forall_const]
    omega

theorem next_long {v : UInt64} (ht : tag < 2 ^ 32)
    (h : p.data.drop p.position = addLong tag v.toNat ++ rest) :
    ∃ q, p.Passes (addLong tag v.toNat) rest tag q ∧ (Content.long v).ReadAs q := by
  have hlt := v.toNat_lt
  obtain ⟨q, hpass, hs, hq⟩ := next_number ht (.inl rfl) hlt h
  have hlongData : q.longData = v.toNat := longData_of_number hq hlt
  obtain ⟨hint, hlong⟩ := isInt_number hs hq
  refine ⟨q, hpass, hlong, fun hi => ?_, fun _ => hlongData⟩
  have hsm := hint.mp hi
  exact intData_of_number hs (by simpa using hq) (by omega) (by omega)

theorem bytesDataBuffer_of_drop {data : Bytes} (hlazy : p.valueState = .lazyByteArray)
    (hlen : p.dataLength = data.length) (hval : p.data.drop p.dataStart.toNat = data ++ rest) :
    p.isByteArray ∧ p.bytesDataBuffer = data := by
  simp [bytesDataBuffer, isByteArray, hlazy, hlen, hval]

variable {item : Item}

theorem next_item (hlen : item.write.length < 2 ^ 31) (h : p.data.drop p.position = item.write ++ rest) :
    ∃ q, p.Passes item.write rest item.tag.toNat q ∧ item.content.Valued q ∧
      (item.content.ReadAs q ↔ item.content.KeepsType) := by
  obtain ⟨tag, content⟩ := item
  have ht := tag.toNat_lt
  cases content with
  | bool v =>
    obtain ⟨q, hpass, hs, hq⟩ := next_bool ht h
    have hval : q.boolData = v := boolData_of_value hs hq
    have htype : q.isBool := by simp [isBool, hs, hq, Value.which]
    exact ⟨q, hpass, hval, iff_of_true ⟨htype, hval⟩ trivial⟩
  | int v => exact next_int ht h
  | long v =>
    obtain ⟨q, hpass, hread⟩ := next_long ht h
    exact ⟨q, hpass, hread.2.2 hread.1, iff_of_true hread trivial⟩
  | double raw =>
    obtain ⟨q, hpass, hread⟩ := next_addDouble ht h
    exact ⟨q, hpass, hread.2, iff_of_true hread trivial⟩
  | string v =>
    simp only [Item.write, addString, length_append] at hlen
    obtain ⟨q, hpass, hread⟩ := next_addString ht (by omega) h
    exact ⟨q, hpass, hread.2.1, iff_of_true hread trivial⟩
  | bytes data =>
    simp only [Item.write, addByteArray, length_append] at hlen
    obtain ⟨q, hpass, -, -, -, hlazy, hlength, hdata⟩ := next_addByteArray ht (by omega) h
    have hread := bytesDataBuffer_of_drop hlazy hlength hdata
    exact ⟨q, hpass, hread.2, iff_of_true hread trivial⟩
  | hash v =>
    have h32 := Uint256.length_toBytes v
    obtain ⟨q, hpass, -, -, hval, hlazy, hlength, hdata⟩ := next_addByteArray ht (by omega) h
    have hread := bytesDataBuffer_of_drop hlazy hlength hdata
    have hhash : q.uint256Data = v := (hval h32).trans (Uint256.ofBytes_toBytes v)
    exact ⟨q, hpass, hhash, iff_of_true ⟨hread.1, hhash, hread.2⟩ trivial⟩

theorem next_end (h : p.data.drop p.position = []) : p.next.1 = .endOfDocument := by
  have hnone : p.data[p.position]? = none := getElem?_eq_none (drop_eq_nil_iff.mp h)
  rw [next, hnone]

variable {items : List Item}

section

variable (hlen : (items.flatMap Item.write).length < 2 ^ 31)
  (h : p.data.drop p.position = items.flatMap Item.write)
include hlen h

/-- The bytes of a list of items give every item with its value, in order. -/
theorem yields_valued : p.Yields (fun q c => c.Valued q) items := by
  induction items generalizing p with
  | nil => exact next_end h
  | cons item items ih =>
    rw [flatMap_cons] at h hlen
    rw [length_append] at hlen
    obtain ⟨q, hpass, hval, -⟩ := next_item (by omega) h
    simp only [Yields, hpass.next]
    exact ⟨trivial, hpass.tag, hval, ih (by omega) hpass.rest⟩

/-- They give every item with its type exactly when no type is narrowed. -/
theorem yields_readAs_iff : p.Yields (fun q c => c.ReadAs q) items ↔
      ∀ item ∈ items, item.content.KeepsType := by
  induction items generalizing p with
  | nil => exact iff_of_true (next_end h) (by simp)
  | cons item items ih =>
    rw [flatMap_cons] at h hlen
    rw [length_append] at hlen
    obtain ⟨q, hpass, -, hread⟩ := next_item (by omega) h
    simp only [Yields, hpass.next, hpass.tag, hread, ih (by omega) hpass.rest, true_and, forall_mem_cons]

end

end MessageParser

/-- The bytes behind those that were used before are the bytes of the items. -/
theorem addAll_drop_size (pool : BufferPool) {items : List Item}
    (hroom : (items.flatMap Item.write).length ≤ pool.capacity) :
    ∃ b, (create pool .noHeader).addAll items = some b ∧
      b.buffer.commit.1.drop pool.size = items.flatMap Item.write ∧
        (items.flatMap Item.write).length < 2 ^ 31 := by
  obtain ⟨b, hb, hused⟩ := @addAll_noHeader items (create pool .noHeader) rfl hroom
  have hlt := pool.length_lt
  refine ⟨b, hb, ?_, ?_⟩
  · have hcommit : b.buffer.commit.1 = pool.used ++ items.flatMap Item.write := hused
    rw [hcommit, ← pool.length_used, drop_left]
  · unfold BufferPool.capacity at hroom
    omega

/-- Tags and values come back in order, each through its own accessor. -/
theorem values_come_back (pool : BufferPool) {items : List Item}
    (hroom : (items.flatMap Item.write).length ≤ pool.capacity) :
    ∃ b, (create pool .noHeader).addAll items = some b ∧
      (ofBuffer (b.buffer.commit.1.drop pool.size)).Yields (fun q c => c.Valued q) items := by
  obtain ⟨b, hb, hbs, hlen⟩ := addAll_drop_size pool hroom
  exact ⟨b, hb, by rw [hbs]; exact yields_valued hlen rfl⟩

/-- Values and types come back exactly when no `int32_t` is negative or the largest one. -/
theorem roundTrips_iff (pool : BufferPool) (items : List Item)
    (hroom : (items.flatMap Item.write).length ≤ pool.capacity) :
    RoundTrips pool items ↔ ∀ item ∈ items, item.content.KeepsType := by
  obtain ⟨b, hb, hbs, hlen⟩ := addAll_drop_size pool hroom
  have hparse := @yields_readAs_iff (ofBuffer (items.flatMap Item.write)) items hlen rfl
  constructor
  · rintro ⟨b', hb', hyl⟩
    cases hb.symm.trans hb'
    rw [hbs] at hyl
    exact hparse.mp hyl
  · intro hkp
    exact ⟨b, hb, by rw [hbs]; exact hparse.mpr hkp⟩

def sampleItems : List Item :=
  [⟨1, .bool true⟩, ⟨31, .int 0x7FFFFFFE⟩, ⟨0xFFFFFFFF, .long 0xFFFFFFFFFFFFFFFF⟩,
    ⟨4, .double (Vector.replicate 8 7)⟩, ⟨5, .string [104, 105]⟩, ⟨6, .bytes []⟩, ⟨30, .hash 12⟩]

theorem roundTrips_sampleItems : RoundTrips (BufferPool.ofSize 256 (by decide)) sampleItems := by
  refine (roundTrips_iff (BufferPool.ofSize 256 (by decide)) sampleItems (by decide +kernel)).mpr ?_
  simp [sampleItems, Content.KeepsType]

theorem values_come_back_negative : let pool := BufferPool.ofSize 256 (by decide)
    let items := ⟨1, .int (-1)⟩ :: sampleItems
    ∃ b, (create pool .noHeader).addAll items = some b ∧
      (ofBuffer (b.buffer.commit.1.drop pool.size)).Yields (fun q c => c.Valued q) items :=
  values_come_back _ (by decide +kernel)

theorem not_roundTrips_of_next {pool : BufferPool} (hroom : item.write.length ≤ pool.capacity)
    (h : ¬ item.content.ReadAs (ofBuffer item.write).next.2) : ¬ RoundTrips pool [item] := by
  have hbs : [item].flatMap Item.write = item.write := by simp
  obtain ⟨b, hb, hcommit, -⟩ := @addAll_drop_size pool [item] (by rwa [hbs])
  rintro ⟨b', hb', hyl⟩
  cases hb.symm.trans hb'
  rw [hcommit, hbs] at hyl
  exact h hyl.2.2.1

/-- The largest `int32_t` comes back as no `int32_t`, and minus one as a long of `2^64 - 1`. -/
theorem not_roundTrips_int :
    ((ofBuffer (Item.write ⟨1, .int 0x7FFFFFFF⟩)).next.2.isInt = false ∧
      ¬ RoundTrips (BufferPool.ofSize 16 (by decide)) [⟨1, .int 0x7FFFFFFF⟩]) ∧
    ((ofBuffer (Item.write ⟨1, .int (-1)⟩)).next.2.isLong ∧
      (ofBuffer (Item.write ⟨1, .int (-1)⟩)).next.2.longData = 2 ^ 64 - 1 ∧
      ¬ RoundTrips (BufferPool.ofSize 16 (by decide)) [⟨1, .int (-1)⟩]) := by
  have hmax : (ofBuffer (Item.write ⟨1, .int 0x7FFFFFFF⟩)).next.2.isInt = false := by decide
  have hlong : (ofBuffer (Item.write ⟨1, .int (-1)⟩)).next.2.isLong := by decide
  have hdata : (ofBuffer (Item.write ⟨1, .int (-1)⟩)).next.2.longData = 2 ^ 64 - 1 := by decide
  refine ⟨⟨hmax, not_roundTrips_of_next (by decide) fun h => ?_⟩, hlong, hdata,
    not_roundTrips_of_next (by decide) fun h => ?_⟩
  · exact absurd h.1 (by rw [hmax]; decide)
  · have hex := h.2.2 hlong
    exact absurd hex (by decide)

end FloweeHub.Streaming
