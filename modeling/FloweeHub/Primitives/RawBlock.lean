import FloweeHub.Primitives.Serialize

/-! The bytes of a block and two of its readers: `createOldBlock`, and `findTransactions` with
`transactionSize`, which skips over the transactions. The second accepts every form of a compact
size and computes positions in a `size_t`. -/

namespace FloweeHub

open Lib Lib.Guards Lib.Decoder Serialize LittleEndian List RawTx UInt8

variable {slack pos : ℕ} {data bs rest : Bytes}

def RawTxIn.toTxIn (txin : RawTxIn) : TxIn := ⟨txin.prevout, txin.scriptSig.items, txin.nSequence⟩

def RawTxOut.toTxOut (txout : RawTxOut) : TxOut := ⟨txout.nValue, txout.scriptPubKey.items⟩

def RawTxIn.normal (txin : RawTxIn) : RawTxIn := { txin with scriptSig := .ofList txin.scriptSig.items }

def RawTxOut.normal (txout : RawTxOut) : RawTxOut :=
  { txout with scriptPubKey := .ofList txout.scriptPubKey.items }

namespace RawTx

variable {tx : RawTx}

/-- The sizes in front of all vectors and scripts are true. -/
structure Exact (tx : RawTx) : Prop where
  vin : tx.vin.Exact
  inScripts : ∀ txin ∈ tx.vin.items, txin.scriptSig.Exact
  vout : tx.vout.Exact
  outScripts : ∀ txout ∈ tx.vout.items, txout.scriptPubKey.Exact

/-- The deserialised transaction when it is written again. -/
def normal (tx : RawTx) : RawTx :=
  { tx with
    vin := .ofList (tx.vin.items.map RawTxIn.normal)
    vout := .ofList (tx.vout.items.map RawTxOut.normal) }

theorem Exact.normal_eq (h : tx.Exact) : tx.normal = tx := by
  have hin : tx.vin.items.map RawTxIn.normal = tx.vin.items := by
    refine (map_congr_left fun txin ht => ?_).trans (map_id _)
    rw [RawTxIn.normal, ← (h.inScripts txin ht).eq_ofList, id]
  have hout : tx.vout.items.map RawTxOut.normal = tx.vout.items := by
    refine (map_congr_left fun txout ht => ?_).trans (map_id _)
    rw [RawTxOut.normal, ← (h.outScripts txout ht).eq_ofList, id]
  rw [normal, hin, hout, ← h.vin.eq_ofList, ← h.vout.eq_ofList]

/-- `CTransaction::UpdateHash` and `GetSerializeSize` work on the transaction written again. -/
def toTransaction (hash256 : Bytes → Uint256) (tx : RawTx) : Transaction where
  hash := hash256 tx.normal.write
  nVersion := tx.nVersion
  vin := tx.vin.items.map RawTxIn.toTxIn
  vout := tx.vout.items.map RawTxOut.toTxOut
  nLockTime := tx.nLockTime
  size := tx.normal.write.length

theorem Exact.hash_eq (h : tx.Exact) (hash256 : Bytes → Uint256) :
    (tx.toTransaction hash256).hash = hash256 tx.write := by
  rw [toTransaction, h.normal_eq]

def createOldTransaction (data : Bytes) : Except String RawTx := (read data).map Prod.fst

theorem Valid.createOldTransaction (h : tx.Valid) (rest : Bytes) :
    RawTx.createOldTransaction (tx.write ++ rest) = .ok tx := by
  rw [RawTx.createOldTransaction, RawTx.inverts_read.read h]
  rfl

end RawTx

/-- The eighty bytes of a header, as fields. -/
structure BlockHeader where
  nVersion : ℤ
  hashPrevBlock : Uint256
  hashMerkleRoot : Uint256
  nTime : ℕ
  nBits : ℕ
  nNonce : ℕ
deriving DecidableEq, Repr

namespace BlockHeader

def read : Decoder String BlockHeader :=
  (int endOfData 4).andThen fun nVersion => readUint256.andThen fun hashPrevBlock =>
    readUint256.andThen fun hashMerkleRoot => (nat endOfData 4).andThen fun nTime =>
      (nat endOfData 4).andThen fun nBits => (nat endOfData 4).andThen fun nNonce =>
        Decoder.pure ⟨nVersion, hashPrevBlock, hashMerkleRoot, nTime, nBits, nNonce⟩

def write (h : BlockHeader) : Bytes :=
  encodeInt 4 h.nVersion ++ (h.hashPrevBlock.toBytes ++ (h.hashMerkleRoot.toBytes ++
    (encode 4 h.nTime ++ (encode 4 h.nBits ++ encode 4 h.nNonce))))

/-- The fields fit their types. -/
@[mk_iff]
structure Valid (h : BlockHeader) : Prop where
  nVersion_fits : h.nVersion.bmod (2 ^ 32) = h.nVersion
  nTime_lt : h.nTime < 2 ^ 32
  nBits_lt : h.nBits < 2 ^ 32
  nNonce_lt : h.nNonce < 2 ^ 32

instance (h : BlockHeader) : Decidable h.Valid := decidable_of_iff' _ (valid_iff h)

theorem inverts_read : Inverts read write Valid := by
  intro bs h rest
  simp only [read, andThen_eq_ok, inverts_int endOfData 4 _ _ _, inverts_readUint256 _ _ _,
    inverts_nat endOfData 4 _ _ _, pure_eq_ok]
  constructor
  · rintro ⟨v, _, ⟨hv, rfl⟩, p, _, ⟨-, rfl⟩, m, _, ⟨-, rfl⟩, t, _, ⟨ht, rfl⟩, b, _, ⟨hb, rfl⟩, n, _,
      ⟨hn, rfl⟩, rfl, rfl⟩
    exact ⟨⟨hv, ht, hb, hn⟩, by simp only [write, append_assoc]⟩
  · rintro ⟨hval, rfl⟩
    exact ⟨_, _, ⟨hval.nVersion_fits, rfl⟩, _, _, ⟨trivial, rfl⟩, _, _, ⟨trivial, rfl⟩, _, _,
      ⟨hval.nTime_lt, rfl⟩, _, _, ⟨hval.nBits_lt, rfl⟩, _, _, ⟨hval.nNonce_lt, rfl⟩, rfl, rfl⟩

@[simp] theorem length_write (h : BlockHeader) : h.write.length = 80 := by
  simp [write, Uint256.length_toBytes]

end BlockHeader

/-- A block as it is deserialised. -/
structure RawBlock where
  header : BlockHeader
  vtx : Counted RawTx
deriving DecidableEq, Repr

namespace RawBlock

def read : Decoder String RawBlock :=
  BlockHeader.read.andThen fun header => (readVector RawTx.read).andThen fun vtx =>
    Decoder.pure ⟨header, vtx⟩

def write (b : RawBlock) : Bytes := b.header.write ++ writeVector RawTx.write b.vtx

/-- All fields fit their types. -/
structure Valid (b : RawBlock) : Prop where
  header : b.header.Valid
  vtx_sized : b.vtx.Sized
  vtx : ∀ tx ∈ b.vtx.items, tx.Valid

theorem inverts_read : Inverts read write Valid := by
  intro bs b rest
  simp only [read, andThen_eq_ok, BlockHeader.inverts_read _ _ _,
    inverts_readVector RawTx.inverts_read _ _ _, pure_eq_ok]
  constructor
  · rintro ⟨h, _, ⟨hh, rfl⟩, v, _, ⟨⟨hs, hv⟩, rfl⟩, rfl, rfl⟩
    exact ⟨⟨hh, hs, hv⟩, by simp only [write, append_assoc]⟩
  · rintro ⟨hval, rfl⟩
    simp only [write, append_assoc]
    exact ⟨_, _, ⟨hval.header, rfl⟩, _, _, ⟨⟨hval.vtx_sized, hval.vtx⟩, rfl⟩, rfl, rfl⟩

theorem Valid.read_header {b : RawBlock} (hval : b.Valid) (h : data = b.write ++ rest) :
    BlockHeader.read data = .ok (b.header, writeVector RawTx.write b.vtx ++ rest) := by
  rw [h, write, append_assoc]
  exact BlockHeader.inverts_read.read hval.header _

/-- `FastBlock::createOldBlock`, with the bytes behind the block. -/
def createOldBlock (data : Bytes) : Except String (RawBlock × Bytes) :=
  if data.length ≤ 80 then .error "Not enough bytes to create a block" else read data

theorem createOldBlock_eq_ok {b : RawBlock} :
    createOldBlock data = .ok (b, rest) ↔ b.Valid ∧ data = b.write ++ rest := by
  rw [createOldBlock, ite_error_eq_ok_iff, inverts_read]
  refine and_iff_right_of_imp ?_
  rintro ⟨-, rfl⟩
  have := length_WriteCompactSize_pos b.vtx.count
  simp only [write, writeVector, length_append, BlockHeader.length_write]
  omega

end RawBlock

def notEnoughBytes : String := "readCompactSize not enough bytes"

/-- The wide forms: `width` bytes behind the marker at `pos`, and `slack` more. -/
def wideSizeAt (slack width : ℕ) (buf : Bytes) (pos : ℕ) : Except String (ℕ × ℕ) :=
  if buf.length < pos + (width + 1) + slack then .error notEnoughBytes
  else .ok (decode ((buf.drop (pos + 1)).take width), pos + (width + 1))

/-- A compact size in any of its forms, and the position behind it; `behind` is what differs in the
two functions of this name. -/
def compactSizeAt (slack : ℕ) (buf : Bytes) (pos : ℕ) : Except String (ℕ × ℕ) :=
  match buf[pos]? with
  | none => .error notEnoughBytes
  | some byte =>
    if byte.toNat < 253 then .ok (byte.toNat, pos + 1)
    else if byte.toNat = 253 then wideSizeAt slack 2 buf pos
    else if byte.toNat = 254 then wideSizeAt slack 4 buf pos
    else wideSizeAt slack 8 buf pos

theorem drop_behind (h : data.drop pos = bs ++ rest) : data.drop (pos + bs.length) = rest := by
  rw [← drop_drop, h, drop_left]

theorem length_of_drop (h : data.drop pos = bs ++ rest) (hne : bs ++ rest ≠ []) :
    data.length = pos + bs.length + rest.length := by
  have hl := congrArg length h
  have hpos := length_pos_iff.mpr hne
  rw [length_append] at hpos
  rw [length_drop, length_append] at hl
  omega

theorem wideSizeAt_encode {ch width n : ℕ}
    (h : data.drop pos = encode 1 ch ++ encode width n ++ rest) (hn : n < 256 ^ width) :
    wideSizeAt slack width data pos =
      if rest.length < slack then .error notEnoughBytes else .ok (n, pos + (width + 1)) := by
  have hl := length_of_drop h (by simp [encode])
  have hdrop : data.drop (pos + 1) = encode width n ++ rest := by
    rw [append_assoc] at h
    simpa using drop_behind h
  have htake : (encode width n ++ rest).take width = encode width n := take_left' (length_encode width n)
  rw [wideSizeAt, hdrop, htake, decode_encode, Nat.mod_eq_of_lt hn, hl]
  simp only [length_append, length_encode]
  split_ifs
  all_goals first | rfl | omega

theorem compactSizeAt_marker {ch : ℕ} (h : data.drop pos = encode 1 ch ++ bs) (hch : ch < 256) :
    compactSizeAt slack data pos = if ch < 253 then .ok (ch, pos + 1) else if ch = 253 then
      wideSizeAt slack 2 data pos
      else if ch = 254 then wideSizeAt slack 4 data pos else wideSizeAt slack 8 data pos := by
  have hfst : data[pos]? = some (ofNat (ch % 256)) := by
    have := congrArg (fun l => l[0]?) h
    simpa [encode] using this
  have hbyte : (ofNat (ch % 256)).toNat = ch := by
    rw [toNat_ofNat']
    omega
  simp only [compactSizeAt, hfst, hbyte]

/-- Where a compact size stands in its shortest form, it is read if enough bytes follow. -/
theorem compactSizeAt_write {n : ℕ} (h : data.drop pos = WriteCompactSize n ++ rest) (hn : n < 2 ^ 64) :
    compactSizeAt slack data pos = if 253 ≤ n ∧ rest.length < slack then .error notEnoughBytes
      else .ok (n, pos + (WriteCompactSize n).length) := by
  unfold WriteCompactSize at h ⊢
  by_cases h1 : n < 253
  · rw [if_pos h1] at h ⊢
    rw [compactSizeAt_marker h (by omega), if_pos h1, if_neg (by omega), length_encode]
  simp only [if_neg h1, show 253 ≤ n by omega, true_and] at h ⊢
  by_cases h2 : n ≤ 0xFFFF
  · simp only [if_pos h2] at h ⊢
    rw [compactSizeAt_marker (h.trans (append_assoc _ _ _)) (by decide), if_neg (by decide), if_pos rfl,
      wideSizeAt_encode h (by omega)]
    rfl
  simp only [if_neg h2] at h ⊢
  by_cases h3 : n ≤ 0xFFFFFFFF
  · simp only [if_pos h3] at h ⊢
    rw [compactSizeAt_marker (h.trans (append_assoc _ _ _)) (by decide), if_neg (by decide),
      if_neg (by decide), if_pos rfl, wideSizeAt_encode h (by omega)]
    rfl
  · simp only [if_neg h3] at h ⊢
    rw [compactSizeAt_marker (h.trans (append_assoc _ _ _)) (by decide), if_neg (by decide),
      if_neg (by decide), if_neg (by decide), wideSizeAt_encode h (by omega)]
    rfl

namespace BlockBytes

variable {p : ℕ} {b : RawBlock}

def readCompactSize (buf : Bytes) (posInStream : ℕ) : Except String (ℕ × ℕ) :=
  compactSizeAt 1 buf posInStream

/-- The loops of `transactionSize`; only the addition of a script's length can pass the `size_t`. -/
def skipScripts (buf : Bytes) (pos before after : ℕ) : ℕ → ℕ → Except String ℕ
  | 0, positionInStream => .ok positionInStream
  | count + 1, positionInStream =>
    (readCompactSize buf (positionInStream + before)).bind fun r =>
      let positionInStream := (r.2 + r.1 + after) % 2 ^ 64
      if buf.length + pos < positionInStream then .error "transaction malformed error"
      else skipScripts buf pos before after count positionInStream

/-- The size of the transaction at `pos`. The result is an `int`. -/
def transactionSize (buf : Bytes) (pos : ℕ) : Except String ℤ :=
  (readCompactSize buf (pos + 4)).bind fun inCount =>
    (skipScripts buf pos 36 4 inCount.1 inCount.2).bind fun positionInStream =>
      (readCompactSize buf positionInStream).bind fun outCount =>
        (skipScripts buf pos 8 0 outCount.1 outCount.2).bind fun positionInStream =>
          .ok (toInt32 ((positionInStream : ℤ) + 4 - pos))

/-- `ConstBuffer::mid`: without a positive length, everything from `offset` on. -/
def mid (data : Bytes) (offset : ℕ) (length : ℤ) : Bytes :=
  if 0 < length then (data.drop offset).take length.toNat else data.drop offset

/-- The loop of `findTransactions`: where each transaction starts, and its bytes. -/
def findFrom (data : Bytes) : ℕ → ℕ → Except String (List (ℕ × Bytes))
  | 0, _ => .ok []
  | count + 1, pos =>
    (transactionSize data pos).bind fun txSize =>
      let behind := ((txSize + pos) % 2 ^ 64).toNat
      if data.length < behind then .error "FastBlock::findTransactions: not enough bytes"
      else (findFrom data count behind).bind fun txs => .ok ((pos, mid data pos txSize) :: txs)

def findTransactions (data : Bytes) : Except String (List (ℕ × Bytes)) :=
  (readCompactSize data 80).bind fun transactionCount =>
    if 0xFFFFFF < transactionCount.1 then .error "FastBlock::findTransactions: Tx count decoding failed"
    else findFrom data transactionCount.1 transactionCount.2

/-- Transactions that stand one behind the other from `pos` on. -/
def placed (pos : ℕ) : List RawTx → List (ℕ × Bytes)
  | [] => []
  | tx :: txs => (pos, tx.write) :: placed (pos + tx.write.length) txs

/-- One item more: its script's length takes the reader behind it. -/
theorem skipScripts_item {pre post : Bytes} {script : Counted UInt8} (pos count : ℕ)
    (hsized : script.Sized) (hex : script.Exact) (hsize : data.length < 2 ^ 31) (hrest : rest ≠ [])
    (h : data.drop p = pre ++ (writeScript script ++ post) ++ rest) :
    skipScripts data pos pre.length post.length (count + 1) p =
      skipScripts data pos pre.length post.length count
        (p + (pre ++ (writeScript script ++ post)).length) := by
  have hlen := length_of_drop h (by simp [hrest])
  simp only [writeScript, append_assoc] at h
  have hroom : ¬ (253 ≤ script.count ∧ (script.items ++ (post ++ rest)).length < 1) := by
    have := length_pos_iff.mpr hrest
    simp only [length_append]
    omega
  rw [skipScripts, readCompactSize, compactSizeAt_write (drop_behind h) hsized.count_lt,
    if_neg hroom, ok_bind]
  simp only [writeScript, length_append] at hlen ⊢
  rw [Counted.Exact] at hex
  rw [Nat.mod_eq_of_lt (by omega), if_neg (by omega), hex]
  congr 1
  omega

theorem skipScripts_write {α : Type} {pre post : α → Bytes} {script : α → Counted UInt8} {items : List α}
    {before after : ℕ} (hpre : ∀ a, (pre a).length = before)
    (hpost : ∀ a, (post a).length = after) (hscr : ∀ a ∈ items, (script a).Sized ∧ (script a).Exact)
    (hsize : data.length < 2 ^ 31) (hrest : rest ≠ [])
    (h : data.drop p = items.flatMap (fun a => pre a ++ (writeScript (script a) ++ post a)) ++ rest) :
    skipScripts data pos before after items.length p =
      .ok (p + (items.flatMap fun a => pre a ++ (writeScript (script a) ++ post a)).length) := by
  induction items generalizing p with
  | nil => rfl
  | cons a items ih =>
    obtain ⟨hsized, hex⟩ := hscr a (by simp)
    rw [flatMap_cons, append_assoc] at h
    have hstep := skipScripts_item pos items.length hsized hex hsize (by simp [hrest]) h
    rw [hpre a, hpost a] at hstep
    rw [length_cons, hstep, ih (fun b hb => hscr b (by simp [hb])) (drop_behind h), Nat.add_assoc,
      ← length_append, flatMap_cons]

theorem skipInputs_write {items : List RawTxIn} (hval : ∀ txin ∈ items, txin.Valid)
    (hex : ∀ txin ∈ items, txin.scriptSig.Exact) (hsize : data.length < 2 ^ 31) (hrest : rest ≠ [])
    (h : data.drop p = items.flatMap RawTxIn.write ++ rest) :
    skipScripts data pos 36 4 items.length p = .ok (p + (items.flatMap RawTxIn.write).length) := by
  have hwr : RawTxIn.write = fun txin => txin.prevout.hash.toBytes ++ encode 4 txin.prevout.n ++
      (writeScript txin.scriptSig ++ encode 4 txin.nSequence) := by
    funext txin
    rw [RawTxIn.write, append_assoc]
  rw [hwr] at h ⊢
  refine skipScripts_write ?_ ?_ (fun txin ht => ⟨(hval txin ht).script, hex txin ht⟩) hsize hrest h
  · intro txin
    rw [length_append, Uint256.length_toBytes, length_encode]
  · intro txin
    exact length_encode 4 _

theorem skipOutputs_write {items : List RawTxOut} (hval : ∀ txout ∈ items, txout.Valid)
    (hex : ∀ txout ∈ items, txout.scriptPubKey.Exact) (hsize : data.length < 2 ^ 31)
    (hrest : rest ≠ []) (h : data.drop p = items.flatMap RawTxOut.write ++ rest) :
    skipScripts data pos 8 0 items.length p = .ok (p + (items.flatMap RawTxOut.write).length) := by
  have hwr : RawTxOut.write = fun txout =>
      encodeInt 8 txout.nValue ++ (writeScript txout.scriptPubKey ++ []) := by
    funext txout
    rw [RawTxOut.write, append_nil]
  rw [hwr] at h ⊢
  refine skipScripts_write ?_ (fun _ => rfl) (fun txout ht =>
    ⟨(hval txout ht).script, hex txout ht⟩) hsize hrest h
  intro txout
  exact length_encodeInt 8 _

theorem readCompactSize_write {n : ℕ} (h : data.drop pos = WriteCompactSize n ++ rest)
    (hn : n < 2 ^ 64) (hrest : rest ≠ []) :
    readCompactSize data pos = .ok (n, pos + (WriteCompactSize n).length) := by
  have := length_pos_iff.mpr hrest
  rw [readCompactSize, compactSizeAt_write h hn, if_neg (by omega)]

theorem transactionSize_write {tx : RawTx} (hval : tx.Valid) (hex : tx.Exact)
    (hsize : data.length < 2 ^ 31) (h : data.drop pos = tx.write ++ rest) :
    transactionSize data pos = .ok (tx.write.length : ℤ) := by
  have hlock : encode 4 tx.nLockTime ++ rest ≠ [] := by simp [encode]
  have hlen := length_of_drop h (by simp [write, encodeInt, encode])
  simp only [write, writeVector, append_assoc] at h
  -- behind the version, the number of inputs, the inputs, the number of outputs
  have hvin := drop_behind h
  have hins := drop_behind hvin
  have hvout := drop_behind hins
  have houts := drop_behind hvout
  rw [length_encodeInt] at hvin hins hvout houts
  rw [transactionSize, readCompactSize_write hvin hval.vin_sized.count_lt (by simp [hlock]), ok_bind]
  rw [hex.vin] at hins hvout houts ⊢
  rw [skipInputs_write hval.vin hex.inScripts hsize (by simp [hlock]) hins, ok_bind,
    readCompactSize_write hvout hval.vout_sized.count_lt (by simp [hlock]), ok_bind]
  rw [hex.vout] at houts ⊢
  rw [skipOutputs_write hval.vout hex.outScripts hsize hlock houts, ok_bind]
  -- all of it lies inside the block, so the `int` holds the size
  have hwr : (tx.write.length : ℤ) = ((pos + 4 + (WriteCompactSize tx.vin.items.length).length +
      (tx.vin.items.flatMap RawTxIn.write).length + (WriteCompactSize tx.vout.items.length).length +
      (tx.vout.items.flatMap RawTxOut.write).length : ℕ) : ℤ) + 4 - pos := by
    rw [write, writeVector, writeVector, hex.vin, hex.vout]
    simp only [length_append, length_encodeInt, length_encode]
    omega
  rw [← hwr, toInt32_of_fits (by omega) (by omega)]

theorem findFrom_write {txs : List RawTx} (hval : ∀ tx ∈ txs, tx.Valid)
    (hex : ∀ tx ∈ txs, tx.Exact) (hsize : data.length < 2 ^ 31)
    (h : data.drop pos = txs.flatMap write ++ rest) :
    findFrom data txs.length pos = .ok (placed pos txs) := by
  induction txs generalizing pos with
  | nil => rfl
  | cons tx txs ih =>
    rw [flatMap_cons, append_assoc] at h
    have hne : tx.write ≠ [] := by simp [write, encodeInt, encode]
    have hpos := length_pos_iff.mpr hne
    have hlen := length_of_drop h (by simp [hne])
    have hbeh : (((tx.write.length : ℤ) + pos) % 2 ^ 64).toNat = pos + tx.write.length := by omega
    have hmid : mid data pos tx.write.length = tx.write := by
      rw [mid, if_pos (by omega), Int.toNat_natCast, h, take_left]
    rw [length_cons, findFrom, transactionSize_write (hval tx (by simp)) (hex tx (by simp)) hsize
      h, ok_bind]
    simp only [hbeh, hmid]
    rw [if_neg (by omega), ih (fun t ht => hval t (by simp [ht])) (fun t ht => hex t (by simp [ht]))
      (drop_behind h), ok_bind, placed]

theorem drop_header (h : data = b.write ++ rest) :
    data.drop 80 = WriteCompactSize b.vtx.count ++ (b.vtx.items.flatMap RawTx.write ++ rest) := by
  rw [h, RawBlock.write, writeVector, append_assoc, append_assoc]
  exact drop_left' (BlockHeader.length_write _)

/-- The count of a block that could be deserialised is read alike. -/
theorem findTransactions_count {txs : List (ℕ × Bytes)} (hval : b.Valid)
    (h : data = b.write ++ rest) (htxs : findTransactions data = .ok txs) : b.vtx.count ≤ 0xFFFFFF := by
  rw [findTransactions, readCompactSize,
    compactSizeAt_write (drop_header h) hval.vtx_sized.count_lt] at htxs
  split_ifs at htxs
  · cases htxs
  · exact not_lt.mp (ite_error_eq_ok_iff.mp htxs).1

theorem findTransactions_write (hval : b.Valid)
    (hct : b.vtx.count ≤ 0xFFFFFF) (hex : ∀ tx ∈ b.vtx.items, tx.Exact) (hsize : data.length < 2 ^ 31)
    (h : data = b.write ++ rest) :
    findTransactions data = .ok (placed (80 + (WriteCompactSize b.vtx.count).length) b.vtx.items) := by
  have hvtx : b.vtx.count = b.vtx.items.length := hval.vtx_sized.exact (by omega)
  have hroom : ¬ (253 ≤ b.vtx.count ∧ (b.vtx.items.flatMap write ++ rest).length < 1) := by
    rintro ⟨hmany, hroom⟩
    have hmem := getElem_mem (l := b.vtx.items) (n := 0) (by omega)
    have hnil : b.vtx.items.flatMap write = [] := by
      rw [length_append] at hroom
      exact length_eq_zero_iff.mp (by omega)
    have := flatMap_eq_nil_iff.mp hnil _ hmem
    simp [write, encodeInt, encode] at this
  rw [findTransactions, readCompactSize,
    compactSizeAt_write (drop_header h) hval.vtx_sized.count_lt, if_neg hroom, ok_bind,
    if_neg (by omega), hvtx]
  exact findFrom_write hval.vtx hex hsize (hvtx ▸ drop_behind (drop_header h))

end BlockBytes

end FloweeHub
