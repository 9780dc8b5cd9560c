import FloweeHub.Lib.Decoder
import FloweeHub.Primitives.Transaction

/-! The serialisation of blocks and transactions. A vector's size is kept in an `unsigned int`, so
the number in front of the items and the number of items are kept apart. -/

namespace FloweeHub

open Lib Lib.Guards Lib.Decoder LittleEndian List

theorem Uint256.toBytes_ofBytes {bs : Bytes} (h : bs.length = 32) :
    (Uint256.ofBytes bs).toBytes = bs := by
  have hlt : decode bs < 2 ^ 256 := by
    have := decode_lt bs
    rw [h] at this
    exact lt_of_lt_of_eq this (by decide)
  rw [Uint256.toBytes, Uint256.ofBytes, BitVec.toNat_ofNat, Nat.mod_eq_of_lt hlt, ← h, encode_decode]

namespace Serialize

def endOfData : String := "CDataStream::read(): end of data"

def nonCanonical : String := "non-canonical ReadCompactSize()"

/-- The wide forms of a compact size: a number that needs the width. -/
def readWide (width least : ℕ) : Decoder String ℕ :=
  (nat endOfData width).andThen fun nSizeRet bs =>
    if nSizeRet < least then .error nonCanonical else .ok (nSizeRet, bs)

def ReadCompactSize : Decoder String ℕ :=
  (nat endOfData 1).andThen fun chSize =>
    if chSize < 253 then Decoder.pure chSize
    else if chSize = 253 then readWide 2 253
    else if chSize = 254 then readWide 4 0x10000
    else readWide 8 0x100000000

def WriteCompactSize (nSize : ℕ) : Bytes :=
  if nSize < 253 then encode 1 nSize
  else if nSize ≤ 0xFFFF then encode 1 253 ++ encode 2 nSize
  else if nSize ≤ 0xFFFFFFFF then encode 1 254 ++ encode 4 nSize
  else encode 1 255 ++ encode 8 nSize

theorem inverts_readWide (width least : ℕ) :
    Inverts (readWide width least) (encode width) fun n => least ≤ n ∧ n < 256 ^ width := by
  intro bs n rest
  simp only [readWide, andThen_eq_ok, inverts_nat endOfData width _ _ _, ite_error_eq_ok_iff]
  constructor
  · rintro ⟨n, _, ⟨hn, rfl⟩, hle, ⟨⟩⟩
    exact ⟨⟨not_lt.mp hle, hn⟩, rfl⟩
  · rintro ⟨⟨hle, hn⟩, rfl⟩
    exact ⟨n, rest, ⟨hn, rfl⟩, not_lt.mpr hle, rfl⟩

theorem inverts_ReadCompactSize : Inverts ReadCompactSize WriteCompactSize fun n => n < 2 ^ 64 := by
  intro bs n rest
  simp only [ReadCompactSize, andThen_eq_ok, inverts_nat endOfData 1 _ _ _]
  constructor
  · rintro ⟨ch, mid, ⟨hch, rfl⟩, h⟩
    unfold WriteCompactSize
    split_ifs at h with h1 h2 h3
    · obtain ⟨rfl, rfl⟩ := pure_eq_ok.mp h
      exact ⟨by omega, by rw [if_pos h1]⟩
    · obtain ⟨⟨hle, hlt⟩, rfl⟩ := (inverts_readWide 2 253 _ _ _).mp h
      exact ⟨by omega, by rw [if_neg (by omega), if_pos (by omega), h2, append_assoc]⟩
    · obtain ⟨⟨hle, hlt⟩, rfl⟩ := (inverts_readWide 4 0x10000 _ _ _).mp h
      exact ⟨by omega, by rw [if_neg (by omega), if_neg (by omega), if_pos (by omega), h3, append_assoc]⟩
    · obtain ⟨⟨hle, hlt⟩, rfl⟩ := (inverts_readWide 8 0x100000000 _ _ _).mp h
      obtain rfl : ch = 255 := by omega
      exact ⟨by omega, by rw [if_neg (by omega), if_neg (by omega), if_neg (by omega), append_assoc]⟩
  · rintro ⟨hn, rfl⟩
    unfold WriteCompactSize
    split_ifs with h1 h2 h3
    · exact ⟨n, rest, ⟨by omega, rfl⟩, by rw [if_pos h1]; rfl⟩
    · have hfits : 253 ≤ n ∧ n < 256 ^ 2 := by omega
      exact ⟨253, _, ⟨by decide, append_assoc _ _ _⟩, (inverts_readWide 2 253).read hfits rest⟩
    · have hfits : 0x10000 ≤ n ∧ n < 256 ^ 4 := by omega
      exact ⟨254, _, ⟨by decide, append_assoc _ _ _⟩, (inverts_readWide 4 0x10000).read hfits rest⟩
    · have hfits : 0x100000000 ≤ n ∧ n < 256 ^ 8 := by omega
      exact ⟨255, _, ⟨by decide, append_assoc _ _ _⟩, (inverts_readWide 8 0x100000000).read hfits rest⟩

theorem length_WriteCompactSize_pos (n : ℕ) : 0 < (WriteCompactSize n).length := by
  unfold WriteCompactSize
  split_ifs
  all_goals simp

end Serialize

/-- A vector in a stream: the number written in front of it, and its items. -/
structure Counted (α : Type) where
  count : ℕ
  items : List α
deriving DecidableEq, Repr

namespace Counted

variable {α : Type} {v : Counted α}

/-- What a reader accepts: the number of items is an `unsigned int`. -/
@[mk_iff]
structure Sized (v : Counted α) : Prop where
  count_lt : v.count < 2 ^ 64
  length_eq : v.items.length = v.count % 2 ^ 32

instance (v : Counted α) : Decidable v.Sized := decidable_of_iff' _ (sized_iff v)

/-- The number in front is the number of items. -/
def Exact (v : Counted α) : Prop := v.count = v.items.length

instance (v : Counted α) : Decidable v.Exact := inferInstanceAs (Decidable (_ = _))

/-- A vector as `WriteCompactSize` of its size puts it in a stream. -/
def ofList (items : List α) : Counted α := ⟨items.length, items⟩

theorem Sized.exact (h : v.Sized) (hlt : v.count < 2 ^ 32) : v.Exact := by
  rw [Exact, h.length_eq, Nat.mod_eq_of_lt hlt]

theorem Exact.eq_ofList (h : v.Exact) : v = ofList v.items := by
  cases v with
  | mk count items => rw [ofList]; congr

end Counted

namespace Serialize

variable {α : Type}

def readVector (d : Decoder String α) : Decoder String (Counted α) :=
  ReadCompactSize.andThen fun nSize =>
    (many d (nSize % 2 ^ 32)).andThen fun items => Decoder.pure ⟨nSize, items⟩

def writeVector (enc : α → Bytes) (v : Counted α) : Bytes :=
  WriteCompactSize v.count ++ v.items.flatMap enc

theorem inverts_readVector {d : Decoder String α} {enc : α → Bytes} {P : α → Prop}
    (h : Inverts d enc P) :
    Inverts (readVector d) (writeVector enc) fun v => v.Sized ∧ ∀ a ∈ v.items, P a := by
  intro bs v rest
  simp only [readVector, andThen_eq_ok, inverts_ReadCompactSize _ _ _, h.many _ _ _ _, pure_eq_ok]
  constructor
  · rintro ⟨n, _, ⟨hn, rfl⟩, items, _, ⟨⟨hl, hP⟩, rfl⟩, rfl, rfl⟩
    exact ⟨⟨⟨hn, hl⟩, hP⟩, by rw [writeVector, append_assoc]⟩
  · rintro ⟨⟨hs, hP⟩, rfl⟩
    exact ⟨v.count, _, ⟨hs.count_lt, append_assoc _ _ _⟩, v.items, rest, ⟨⟨hs.length_eq, hP⟩, rfl⟩,
      rfl, rfl⟩

/-- A script is a vector of bytes, read as a whole. -/
def readScript : Decoder String (Counted UInt8) :=
  ReadCompactSize.andThen fun nSize =>
    (bytes endOfData (nSize % 2 ^ 32)).andThen fun items => Decoder.pure ⟨nSize, items⟩

def writeScript (v : Counted UInt8) : Bytes := WriteCompactSize v.count ++ v.items

theorem inverts_readScript : Inverts readScript writeScript Counted.Sized := by
  intro bs v rest
  simp only [readScript, andThen_eq_ok, inverts_ReadCompactSize _ _ _,
    inverts_bytes endOfData _ _ _ _, pure_eq_ok]
  constructor
  · rintro ⟨n, _, ⟨hn, rfl⟩, items, _, ⟨hl, rfl⟩, rfl, rfl⟩
    exact ⟨⟨hn, hl⟩, by rw [writeScript, append_assoc, id]⟩
  · rintro ⟨hs, rfl⟩
    exact ⟨v.count, _, ⟨hs.count_lt, append_assoc _ _ _⟩, v.items, rest, ⟨hs.length_eq, rfl⟩, rfl, rfl⟩

def readUint256 : Decoder String Uint256 := (bytes endOfData 32).andThen fun bs =>
    Decoder.pure (Uint256.ofBytes bs)

theorem inverts_readUint256 : Inverts readUint256 Uint256.toBytes fun _ => True := by
  intro bs h rest
  simp only [readUint256, andThen_eq_ok, inverts_bytes endOfData 32 _ _ _, pure_eq_ok]
  constructor
  · rintro ⟨a, _, ⟨hl, rfl⟩, rfl, rfl⟩
    exact ⟨trivial, by rw [Uint256.toBytes_ofBytes hl, id]⟩
  · rintro ⟨-, rfl⟩
    exact ⟨_, rest, ⟨Uint256.length_toBytes h, rfl⟩, Uint256.ofBytes_toBytes h, rfl⟩

end Serialize

/-- An input, with the length of its script. -/
structure RawTxIn where
  prevout : OutPoint
  scriptSig : Counted UInt8
  nSequence : ℕ
deriving DecidableEq, Repr

/-- An output, with the length of its script. -/
structure RawTxOut where
  nValue : ℤ
  scriptPubKey : Counted UInt8
deriving DecidableEq, Repr

/-- A transaction, with the counts in front of its lists. -/
structure RawTx where
  nVersion : ℤ
  vin : Counted RawTxIn
  vout : Counted RawTxOut
  nLockTime : ℕ
deriving DecidableEq, Repr

open Serialize

namespace RawTxIn

def read : Decoder String RawTxIn :=
  readUint256.andThen fun hash => (nat endOfData 4).andThen fun n => readScript.andThen fun scriptSig =>
    (nat endOfData 4).andThen fun nSequence => Decoder.pure ⟨⟨hash, n⟩, scriptSig, nSequence⟩

def write (txin : RawTxIn) : Bytes :=
  txin.prevout.hash.toBytes ++
    (encode 4 txin.prevout.n ++ (writeScript txin.scriptSig ++ encode 4 txin.nSequence))

/-- The fields fit their types. -/
@[mk_iff]
structure Valid (txin : RawTxIn) : Prop where
  n_lt : txin.prevout.n < 2 ^ 32
  script : txin.scriptSig.Sized
  nSequence_lt : txin.nSequence < 2 ^ 32

instance (txin : RawTxIn) : Decidable txin.Valid := decidable_of_iff' _ (valid_iff txin)

theorem inverts_read : Inverts read write Valid := by
  intro bs txin rest
  simp only [read, andThen_eq_ok, inverts_readUint256 _ _ _, inverts_nat endOfData 4 _ _ _,
    inverts_readScript _ _ _, pure_eq_ok]
  constructor
  · rintro ⟨hash, _, ⟨-, rfl⟩, n, _, ⟨hn, rfl⟩, s, _, ⟨hs, rfl⟩, q, _, ⟨hq, rfl⟩, rfl, rfl⟩
    exact ⟨⟨hn, hs, hq⟩, by simp only [write, append_assoc]⟩
  · rintro ⟨h, rfl⟩
    simp only [write, append_assoc]
    exact ⟨_, _, ⟨trivial, rfl⟩, _, _, ⟨h.n_lt, rfl⟩, _, _, ⟨h.script, rfl⟩, _, _,
      ⟨h.nSequence_lt, rfl⟩, rfl, rfl⟩

end RawTxIn

namespace RawTxOut

def read : Decoder String RawTxOut :=
  (int endOfData 8).andThen fun nValue => readScript.andThen fun scriptPubKey =>
    Decoder.pure ⟨nValue, scriptPubKey⟩

def write (txout : RawTxOut) : Bytes := encodeInt 8 txout.nValue ++ writeScript txout.scriptPubKey

/-- The fields fit their types. -/
@[mk_iff]
structure Valid (txout : RawTxOut) : Prop where
  nValue_fits : txout.nValue.bmod (2 ^ 64) = txout.nValue
  script : txout.scriptPubKey.Sized

instance (txout : RawTxOut) : Decidable txout.Valid := decidable_of_iff' _ (valid_iff txout)

theorem inverts_read : Inverts read write Valid := by
  intro bs txout rest
  simp only [read, andThen_eq_ok, inverts_int endOfData 8 _ _ _, inverts_readScript _ _ _, pure_eq_ok]
  constructor
  · rintro ⟨v, _, ⟨hv, rfl⟩, s, _, ⟨hs, rfl⟩, rfl, rfl⟩
    exact ⟨⟨hv, hs⟩, by simp only [write, append_assoc]⟩
  · rintro ⟨h, rfl⟩
    exact ⟨_, _, ⟨h.nValue_fits, rfl⟩, _, _, ⟨h.script, rfl⟩, rfl, rfl⟩

end RawTxOut

namespace RawTx

def read : Decoder String RawTx :=
  (int endOfData 4).andThen fun nVersion => (readVector RawTxIn.read).andThen fun vin =>
    (readVector RawTxOut.read).andThen fun vout => (nat endOfData 4).andThen fun nLockTime =>
      Decoder.pure ⟨nVersion, vin, vout, nLockTime⟩

def write (tx : RawTx) : Bytes :=
  encodeInt 4 tx.nVersion ++ (writeVector RawTxIn.write tx.vin ++
    (writeVector RawTxOut.write tx.vout ++ encode 4 tx.nLockTime))

/-- All fields fit their types. -/
@[mk_iff]
structure Valid (tx : RawTx) : Prop where
  nVersion_fits : tx.nVersion.bmod (2 ^ 32) = tx.nVersion
  vin_sized : tx.vin.Sized
  vin : ∀ txin ∈ tx.vin.items, txin.Valid
  vout_sized : tx.vout.Sized
  vout : ∀ txout ∈ tx.vout.items, txout.Valid
  nLockTime_lt : tx.nLockTime < 2 ^ 32

instance (tx : RawTx) : Decidable tx.Valid := decidable_of_iff' _ (valid_iff tx)

theorem inverts_read : Inverts read write Valid := by
  intro bs tx rest
  simp only [read, andThen_eq_ok, inverts_int endOfData 4 _ _ _,
    inverts_readVector RawTxIn.inverts_read _ _ _, inverts_readVector RawTxOut.inverts_read _ _ _,
    inverts_nat endOfData 4 _ _ _, pure_eq_ok]
  constructor
  · rintro ⟨v, _, ⟨hv, rfl⟩, vin, _, ⟨⟨hi, hin⟩, rfl⟩, vout, _, ⟨⟨ho, hout⟩, rfl⟩, l, _, ⟨hl, rfl⟩,
      rfl, rfl⟩
    exact ⟨⟨hv, hi, hin, ho, hout, hl⟩, by simp only [write, append_assoc]⟩
  · rintro ⟨h, rfl⟩
    simp only [write, append_assoc]
    exact ⟨_, _, ⟨h.nVersion_fits, rfl⟩, _, _, ⟨⟨h.vin_sized, h.vin⟩, rfl⟩, _, _,
      ⟨⟨h.vout_sized, h.vout⟩, rfl⟩, _, _, ⟨h.nLockTime_lt, rfl⟩, rfl, rfl⟩

end RawTx

end FloweeHub
