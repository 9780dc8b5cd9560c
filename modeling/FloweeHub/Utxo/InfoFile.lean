import FloweeHub.Utxo.Bucket
import Mathlib.Data.Finset.Sort

/-! The info files: a header, built in a buffer of 256 bytes and read from the first 256 bytes of
the file, followed by the jump table. What is loaded is what was saved exactly when the header fits
and no rejected block was known before. The buckets and leafs of the data file itself, and the
operations on them, are left out. -/

namespace FloweeHub.UODB

open Lib Streaming LittleEndian Field List Nat

/-- The write buffer over the mapped file, by the position of the next write. -/
structure BufferPool where
  offset : ℕ
deriving DecidableEq, Repr

/-- A data file, as far as its info file goes. The jump table says for each short hash where its
bucket is, in the file or in memory. -/
structure DataFile where
  jumptables : ShortHash → ℕ
  writeBuffer : BufferPool
  rejectedBlocks : Finset Uint256
  initialBlockHeight : ℤ
  lastBlockHeight : ℤ
  lastBlockHash : Uint256
  changesSincePrune : ℤ
  initialBucketSize : ℤ
  dbIsTip : Bool

/-- A data file that was just created. -/
def DataFile.empty : DataFile where
  jumptables := fun _ => 0
  writeBuffer := ⟨0⟩
  rejectedBlocks := ∅
  initialBlockHeight := 0
  lastBlockHeight := 0
  lastBlockHash := 0
  changesSincePrune := 0
  initialBucketSize := 0
  dbIsTip := false

variable (jumptables : ShortHash → ℕ)

def jumptableBytes : Bytes := (ofFn fun s => encode 4 (jumptables s)).flatten

def readJumptable (bytes : Bytes) : ShortHash → ℕ := fun s => decode ((bytes.drop (4 * s)).take 4)

theorem take_drop_flatten {β : Type*} {w : ℕ} {ls : List (List β)} (hw : ∀ l ∈ ls, l.length = w) {i : ℕ}
    {l : List β} (hi : ls[i]? = some l) : (ls.flatten.drop (w * i)).take w = l := by
  induction ls generalizing i with
  | nil => simp at hi
  | cons a ls ih =>
    obtain ⟨ha, hw⟩ := forall_mem_cons.mp hw
    rw [flatten_cons]
    cases i with
    | zero =>
      cases hi
      rw [mul_zero, drop_zero, take_left' ha]
    | succ i =>
      rw [mul_succ, add_comm, ← drop_drop, drop_left' ha, ih hw hi]

theorem length_entry : ∀ l ∈ ofFn fun s => encode 4 (jumptables s), l.length = 4 := by
  intro l hl
  obtain ⟨s, rfl⟩ := mem_ofFn.mp hl
  exact length_encode ..

theorem length_jumptableBytes : (jumptableBytes jumptables).length = 4 * 0x100000 := by
  rw [jumptableBytes, length_flatten, map_congr_left (length_entry jumptables), map_const',
    sum_replicate_nat, length_ofFn, mul_comm]

theorem readJumptable_jumptableBytes {jumptables : ShortHash → ℕ} (h : ∀ s, jumptables s < 2 ^ 32) :
    readJumptable (jumptableBytes jumptables) = jumptables := by
  funext s
  have hget : (List.ofFn fun s => encode 4 (jumptables s))[(s : ℕ)]? =
      some (encode 4 (jumptables s)) := by
    rw [List.getElem?_ofFn]
    simp
  rw [readJumptable, jumptableBytes, take_drop_flatten (length_entry jumptables) hget, decode_encode]
  exact mod_eq_of_lt (h s)

/-- The order of `std::set<uint256>`: the bytes are compared from the first on. -/
def memcmpLe (a b : Uint256) : Prop := decode a.toBytes.reverse ≤ decode b.toBytes.reverse

instance : DecidableRel memcmpLe := fun _ _ => inferInstanceAs (Decidable (_ ≤ _))

instance : IsTrans Uint256 memcmpLe := ⟨fun _ _ _ => le_trans⟩

instance : Std.Total memcmpLe := ⟨fun _ _ => le_total _ _⟩

instance : Std.Antisymm memcmpLe := ⟨fun a b hab hba => by
  have hlen : a.toBytes.reverse.length = b.toBytes.reverse.length := by simp [Uint256.length_toBytes]
  have hbytes := reverse_injective (decode_injective hlen (le_antisymm hab hba))
  rw [← Uint256.ofBytes_toBytes a, hbytes, Uint256.ofBytes_toBytes]⟩

namespace DataFile

variable (hash : Bytes → Uint256) {src target : DataFile} {tag : ℕ}

variable (d : DataFile)

def bucketSizeField : List Field :=
  if 0 < d.initialBucketSize then [.int InitialBucketSegmentSize d.initialBucketSize] else []

/-- The ids of the rejected blocks, which only the tip writes. -/
def rejectedFields : List Field :=
  if d.dbIsTip then (d.rejectedBlocks.sort memcmpLe).map fun blockId =>
    .bytes InvalidBlockHash blockId.toBytes else []

def headerFields : List Field :=
  [.int FirstBlockHeight d.initialBlockHeight, .int LastBlockHeight d.lastBlockHeight,
    .bytes LastBlockId d.lastBlockHash.toBytes, .int PositionInFile d.writeBuffer.offset,
    .int ChangesSincePrune d.changesSincePrune] ++ bucketSizeField d ++ [.bool IsTip d.dbIsTip] ++
      rejectedFields d ++
    [.bytes JumpTableHash (hash (jumptableBytes d.jumptables)).toBytes]

/-- The bytes built in the buffer of `writeInfoFile`. -/
def header : Bytes := (headerFields hash d).flatMap write ++ (bool Separator true).write

def writeInfoFile : Bytes := header hash d ++ jumptableBytes d.jumptables

/-- The variables of `load`. -/
structure Loading where
  target : DataFile
  checksum : Uint256

def loadBody (q : MessageParser) (s : Loading) : Loading ⊕ Loading :=
  if q.tag = LastBlockHeight then .inl { s with target.lastBlockHeight := q.intData }
  else if q.tag = FirstBlockHeight then .inl { s with target.initialBlockHeight := q.intData }
  else if q.tag = LastBlockId then .inl { s with target.lastBlockHash := q.uint256Data }
  else if q.tag = JumpTableHash then .inl { s with checksum := q.uint256Data }
  else if q.tag = ChangesSincePrune then .inl { s with target.changesSincePrune := q.intData }
  else if q.tag = InitialBucketSegmentSize then .inl { s with target.initialBucketSize := q.intData }
  else if q.tag = PositionInFile then .inl { s with target.writeBuffer.offset := q.intData.toNat }
  else if q.tag = InvalidBlockHash then
    .inl { s with target.rejectedBlocks := Insert.insert q.uint256Data s.target.rejectedBlocks }
  else if q.tag = Separator then .inr s
  else .inl s

/-- Where the file ends early the rest of the jump table stays. -/
def load (info : Bytes) (target : DataFile) : Bool × DataFile :=
  let (parser, result) := MessageParser.forFields loadBody (info.take 256) ⟨target, 0⟩
  let s := result.elim id id
  let bytes := (info.drop parser.position).take (4 * 0x100000)
  let bytes := bytes ++ (jumptableBytes s.target.jumptables).drop bytes.length
  let target := { s.target with jumptables := readJumptable bytes }
  (hash (jumptableBytes target.jumptables) = s.checksum, target)

/-- The length of the header, from the numbers that it holds. -/
def headerSize : ℕ :=
  74 + Bucket.serialisedIntSize d.initialBlockHeight + Bucket.serialisedIntSize d.lastBlockHeight +
    Bucket.serialisedIntSize d.writeBuffer.offset + Bucket.serialisedIntSize d.changesSincePrune +
    (if 0 < d.initialBucketSize then 1 + Bucket.serialisedIntSize d.initialBucketSize else 0) +
    if d.dbIsTip then 34 * d.rejectedBlocks.card else 0

theorem length_intField (ht : tag < 31) (v : ℤ) :
    (int tag v).write.length = 1 + Bucket.serialisedIntSize v := by
  rw [length_write (int tag v) ht, cost, Bucket.serialisedIntSize, length_serialize, ← add_assoc]

theorem length_hashField (ht : tag < 31) (v : Uint256) : (bytes tag v.toBytes).write.length = 34 := by
  rw [length_write (bytes tag _) ht, cost, Uint256.length_toBytes]
  rfl

theorem length_boolField (ht : tag < 31) (v : Bool) : (bool tag v).write.length = 1 :=
  length_write (bool tag v) ht

theorem length_hashFields (ht : tag < 31) (ids : List Uint256) :
    ((ids.map fun blockId => bytes tag blockId.toBytes).flatMap write).length = 34 * ids.length := by
  induction ids with
  | nil => rfl
  | cons id ids ih =>
    rw [map_cons, flatMap_cons, length_append, ih, length_hashField ht, length_cons]
    omega

theorem length_header (d : DataFile) : (header hash d).length = headerSize d := by
  have hsize : ((bucketSizeField d).flatMap write).length =
      if 0 < d.initialBucketSize then 1 + Bucket.serialisedIntSize d.initialBucketSize else 0 := by
    rw [bucketSizeField]
    split_ifs
    · rw [flatMap_singleton, length_intField (by decide)]
    · rfl
  have hrej : ((rejectedFields d).flatMap write).length =
      if d.dbIsTip then 34 * d.rejectedBlocks.card else 0 := by
    rw [rejectedFields]
    split_ifs
    · rw [length_hashFields (by decide), Finset.length_sort]
    · rfl
  simp only [header, headerFields, flatMap_append, flatMap_cons, flatMap_nil, length_append, hsize,
    hrej, length_intField (show FirstBlockHeight < 31 by decide),
    length_intField (show LastBlockHeight < 31 by decide), length_intField
      (show PositionInFile < 31 by decide), length_intField (show ChangesSincePrune < 31 by decide),
    length_hashField (show LastBlockId < 31 by decide),
    length_hashField (show JumpTableHash < 31 by decide),
    length_boolField (show IsTip < 31 by decide), length_boolField (show Separator < 31 by decide),
    length_nil, headerSize]
  omega

/-! ### Loading what was written -/

/-- The members are values of their C++ types and nothing is left in memory. -/
structure Saved (d : DataFile) : Prop where
  initialBlockHeight : -2 ^ 31 ≤ d.initialBlockHeight ∧ d.initialBlockHeight < 2 ^ 31
  lastBlockHeight : -2 ^ 31 ≤ d.lastBlockHeight ∧ d.lastBlockHeight < 2 ^ 31
  offset : d.writeBuffer.offset < 2 ^ 31
  changesSincePrune : -2 ^ 31 ≤ d.changesSincePrune ∧ d.changesSincePrune < 2 ^ 31
  initialBucketSize : -2 ^ 31 ≤ d.initialBucketSize ∧ d.initialBucketSize < 2 ^ 31
  jumptables : ∀ s, d.jumptables s < MEMBIT

theorem short_hashField (ht : tag < 31) (v : Uint256) : (bytes tag v.toBytes).Short :=
  .bytes ht (by rw [Uint256.length_toBytes]; decide)

theorem short_headerFields (h : src.Saved) : ∀ f ∈ headerFields hash src, f.Short := by
  have hoff := h.offset
  simp only [headerFields, forall_mem_append, forall_mem_cons, not_mem_nil, false_implies,
    implies_true, and_true]
  refine ⟨⟨⟨⟨⟨.int (by decide) h.initialBlockHeight.1 h.initialBlockHeight.2,
    .int (by decide) h.lastBlockHeight.1 h.lastBlockHeight.2, short_hashField (by decide) _,
    .int (by decide) (by omega) (by omega),
    .int (by decide) h.changesSincePrune.1 h.changesSincePrune.2⟩, ?_⟩, .bool (by decide)⟩, ?_⟩,
      short_hashField (by decide) _⟩
  · intro f hf
    rw [bucketSizeField] at hf
    split_ifs at hf
    · exact mem_singleton.mp hf ▸ .int (by decide) h.initialBucketSize.1 h.initialBucketSize.2
    · exact absurd hf not_mem_nil
  · intro f hf
    rw [rejectedFields] at hf
    split_ifs at hf
    · obtain ⟨blockId, -, rfl⟩ := mem_map.mp hf
      exact short_hashField (by decide) blockId
    · exact absurd hf not_mem_nil

def withHeader (source target : DataFile) : DataFile :=
  { target with
    initialBlockHeight := source.initialBlockHeight
    lastBlockHeight := source.lastBlockHeight
    lastBlockHash := source.lastBlockHash
    writeBuffer := source.writeBuffer
    changesSincePrune := source.changesSincePrune
    initialBucketSize :=
      if 0 < source.initialBucketSize then source.initialBucketSize else target.initialBucketSize
    rejectedBlocks := if source.dbIsTip then target.rejectedBlocks ∪ source.rejectedBlocks
      else target.rejectedBlocks }

theorem uint256Data_of_readAs {q : MessageParser} {v : Uint256} (h : (bytes tag v.toBytes).ReadAs q) :
    q.uint256Data = v :=
  (h.2.2.2 (Uint256.length_toBytes v)).trans (Uint256.ofBytes_toBytes v)

theorem follows_rejected (ids : List Uint256) (s : Loading) :
    MessageParser.Follows loadBody (ids.map fun blockId => .bytes InvalidBlockHash blockId.toBytes) s
      { s with target.rejectedBlocks := s.target.rejectedBlocks ∪ ids.toFinset } := by
  induction ids generalizing s with
  | nil => simp [MessageParser.Follows]
  | cons id ids ih =>
    refine ⟨{ s with target.rejectedBlocks := Insert.insert id s.target.rejectedBlocks },
      fun q hq => ?_, ?_⟩
    · simp [loadBody, hq.1, uint256Data_of_readAs hq]
    · have hunion : Insert.insert id s.target.rejectedBlocks ∪ ids.toFinset =
          s.target.rejectedBlocks ∪ (id :: ids).toFinset := by
        rw [toFinset_cons, Finset.insert_union, Finset.union_insert]
      have h := ih { s with target.rejectedBlocks := Insert.insert id s.target.rejectedBlocks }
      rwa [hunion] at h

theorem follows_header (src target : DataFile) :
    MessageParser.Follows loadBody (headerFields hash src) ⟨target, 0⟩
      ⟨withHeader src target, hash (jumptableBytes src.jumptables)⟩ := by
  -- the state after the numbers, after the size of the buckets and after the rejected blocks
  let s1 : Loading := ⟨{ target with
    initialBlockHeight := src.initialBlockHeight
    lastBlockHeight := src.lastBlockHeight
    lastBlockHash := src.lastBlockHash
    writeBuffer := src.writeBuffer
    changesSincePrune := src.changesSincePrune }, 0⟩
  let s2 : Loading := { s1 with target.initialBucketSize :=
    if 0 < src.initialBucketSize then src.initialBucketSize else target.initialBucketSize }
  let s3 : Loading := ⟨withHeader src target, 0⟩
  have h1 : MessageParser.Follows loadBody [.int FirstBlockHeight src.initialBlockHeight,
      .int LastBlockHeight src.lastBlockHeight, .bytes LastBlockId src.lastBlockHash.toBytes,
      .int PositionInFile src.writeBuffer.offset, .int ChangesSincePrune src.changesSincePrune]
        ⟨target, 0⟩ s1 := by
    refine ⟨?_, fun q hq => ?first, ?_, fun q hq => ?last, ?_, fun q hq => ?id, ?_, fun q hq =>
      ?position, s1, fun q hq => ?changes, rfl⟩
    case first | last =>
      rw [loadBody, hq.1, hq.2]
      rfl
    case id =>
      rw [loadBody, hq.1, uint256Data_of_readAs hq]
      rfl
    case position | changes =>
      rw [loadBody, hq.1, hq.2]
      rfl
  have h2 : MessageParser.Follows loadBody (bucketSizeField src) s1 s2 := by
    rw [bucketSizeField]
    by_cases hsize : 0 < src.initialBucketSize
    · rw [if_pos hsize]
      refine ⟨s2, fun q hq => ?_, rfl⟩
      simp [loadBody, hq.1, hq.2, s2, hsize]
    · simp [MessageParser.Follows, s2, s1, hsize]
  have htip : MessageParser.Follows loadBody [.bool IsTip src.dbIsTip] s2 s2 :=
    ⟨s2, fun q hq => by simp [loadBody, hq.1], rfl⟩
  have h3 : MessageParser.Follows loadBody (rejectedFields src) s2 s3 := by
    rw [rejectedFields]
    by_cases hdb : src.dbIsTip
    · have h := follows_rejected (src.rejectedBlocks.sort memcmpLe) s2
      simpa [s2, s1, s3, withHeader, hdb] using h
    · simp [MessageParser.Follows, s2, s1, s3, withHeader, hdb]
  have hsum : MessageParser.Follows loadBody
      [.bytes JumpTableHash (hash (jumptableBytes src.jumptables)).toBytes] s3
      ⟨withHeader src target, hash (jumptableBytes src.jumptables)⟩ :=
    ⟨_, fun q hq => by simp [loadBody, hq.1, uint256Data_of_readAs hq, s3], rfl⟩
  exact (((h1.append h2).append htip).append h3).append hsum

/-- A header that fits is read back, and the jump table behind it. -/
theorem load_writeInfoFile (h : src.Saved) (hfit : headerSize src ≤ 256) (target : DataFile) :
    load hash (writeInfoFile hash src) target =
      (true, { withHeader src target with jumptables := src.jumptables }) := by
  have hlen := length_header hash src
  have hbuf : (writeInfoFile hash src).take 256 = (headerFields hash src).flatMap write ++
      ((bool Separator true).write ++ (jumptableBytes src.jumptables).take
        (256 - (header hash src).length)) := by
    rw [writeInfoFile, take_append, take_of_length_le (by omega), header, append_assoc]
  obtain ⟨q, hpos, hrun⟩ := MessageParser.forFields_last
    ((jumptableBytes src.jumptables).take (256 - (header hash src).length)) (short_headerFields hash h)
    Leaf.short_separator (follows_header hash src target) fun q hq => by simp [loadBody, hq.1]; rfl
  have hrest : (writeInfoFile hash src).drop q.position = jumptableBytes src.jumptables := by
    rw [hpos, writeInfoFile, header, drop_left]
  have hread : (jumptableBytes src.jumptables).take (4 * 0x100000) = jumptableBytes src.jumptables :=
    take_of_length_le (length_jumptableBytes _).le
  have htab := readJumptable_jumptableBytes fun s =>
    lt_trans (h.jumptables s) (by decide : 2 ^ 31 < 2 ^ 32)
  simp only [load, hbuf, hrun, Sum.elim_inr, id_eq, hrest, hread, length_jumptableBytes,
    drop_of_length_le (length_jumptableBytes _).le, append_nil, htab]
  simp

/-- What loading an info file has to bring back. -/
structure Restored (source loaded : DataFile) : Prop where
  initialBlockHeight : loaded.initialBlockHeight = source.initialBlockHeight
  lastBlockHeight : loaded.lastBlockHeight = source.lastBlockHeight
  lastBlockHash : loaded.lastBlockHash = source.lastBlockHash
  offset : loaded.writeBuffer.offset = source.writeBuffer.offset
  jumptables : loaded.jumptables = source.jumptables
  rejectedBlocks : source.dbIsTip = true → loaded.rejectedBlocks = source.rejectedBlocks

/-- The header fits its buffer, and the file is loaded as it was written. -/
def RoundTrips (source target : DataFile) : Prop :=
  (header hash source).length ≤ 256 ∧ (load hash (writeInfoFile hash source) target).1 = true ∧
    Restored source (load hash (writeInfoFile hash source) target).2

/-- Info files round trip when the header fits and the target has no rejected blocks. -/
theorem infoFile_roundTrips_iff (h : src.Saved) :
    RoundTrips hash src target ↔
      headerSize src ≤ 256 ∧ (src.dbIsTip = true → target.rejectedBlocks ⊆ src.rejectedBlocks) := by
  rw [RoundTrips, length_header]
  apply and_congr_right
  intro hfit
  rw [load_writeInfoFile hash h hfit]
  constructor
  · rintro ⟨-, hrestored⟩ htip
    have hunion := hrestored.rejectedBlocks htip
    simp only [withHeader, htip, if_true] at hunion
    exact Finset.union_eq_right.mp hunion
  · intro hsub
    refine ⟨rfl, rfl, rfl, rfl, rfl, rfl, fun htip => ?_⟩
    simp only [withHeader, htip, if_true]
    exact Finset.union_eq_right.mpr (hsub htip)

def sampleTip (ids : Finset Uint256) : DataFile := { empty with dbIsTip := true, rejectedBlocks := ids }

theorem saved_sampleTip (ids : Finset Uint256) : (sampleTip ids).Saved :=
  have zero : (-2 ^ 31 : ℤ) ≤ 0 ∧ (0 : ℤ) < 2 ^ 31 := by decide
  ⟨zero, zero, by exact Nat.two_pow_pos 31, zero, zero, fun _ => Nat.two_pow_pos 31⟩

theorem infoFile_roundTrips_five : RoundTrips (fun _ => 0) (sampleTip {1, 2, 3, 4, 5}) empty :=
  (infoFile_roundTrips_iff _ (saved_sampleTip _)).mpr ⟨by decide, fun _ => Finset.empty_subset _⟩

/-- Six rejected blocks make the header longer than its buffer. -/
theorem infoFile_overflows_six : ¬ RoundTrips (fun _ => 0) (sampleTip {1, 2, 3, 4, 5, 6}) empty := by
  rintro ⟨hlen, -⟩
  rw [length_header] at hlen
  exact absurd hlen (by decide)

end DataFile

end FloweeHub.UODB
