import FloweeHub.Primitives.Serialize

/-! The requests of the SPV client and the room that is reserved for them. Each is a counted list
between two pieces of fixed size, which `P2PBuilder` copies without a check. Proved is which of them
fit. -/

namespace FloweeHub.P2P

open Lib Serialize List LittleEndian

/-- A request: a counted list between two fixed pieces. -/
structure Request where
  reserved : ℤ
  front : Bytes := []
  count : ℤ
  items : List Bytes
  behind : Bytes := []

namespace Request

/-- `writeCompactSize` takes a `uint64_t`. -/
def written (r : Request) : ℕ := (r.count % 2 ^ 64).toNat

def bytes (r : Request) : Bytes := r.front ++ WriteCompactSize r.written ++ r.items.flatten ++ r.behind

/-- The room is enough and the count is that of the items. -/
structure Fits (r : Request) : Prop where
  length_le : r.bytes.length ≤ r.reserved
  count_eq : r.written = r.items.length

end Request

/-- The kinds of inventory. -/
inductive InventoryItem.Types
  | transactionType
  | blockType
  | merkleBlock
  | doubleSpendType

def InventoryItem.Types.code : InventoryItem.Types → ℕ
  | transactionType => 1
  | blockType => 2
  | merkleBlock => 3
  | doubleSpendType => 0x94a0

def inventoryItem (type : InventoryItem.Types) (hash : Uint256) : Bytes :=
  encode 4 type.code ++ hash.toBytes

/-- The constructor takes at most `MAX_BLOOM_FILTER_SIZE` bytes. -/
structure CBloomFilter where
  data : Bytes
  size_le : data.length ≤ 36000
  numHashFuncs : UInt32
  tweak : UInt32
  flags : UInt8

def GetSizeOfCompactSize (nSize : ℕ) : ℕ :=
  if nSize < 253 then 1 else if nSize ≤ 0xFFFF then 3 else if nSize ≤ 0xFFFFFFFF then 5 else 9

def CBloomFilter.GetSerializeSize (bloom : CBloomFilter) : ℕ :=
  GetSizeOfCompactSize bloom.data.length + bloom.data.length + 4 + 4 + 1

/-- `sendFilter`; `store` writes the filter. -/
def sendFilter (bloom : CBloomFilter) : Request where
  reserved := bloom.GetSerializeSize
  count := bloom.data.length
  items := bloom.data.map fun b => [b]
  behind := encode 4 bloom.numHashFuncs.toNat ++ encode 4 bloom.tweak.toNat ++ [bloom.flags]

/-- The list of one item that `sendTx` and `runQueue` write. -/
def oneItem (type : InventoryItem.Types) (hash : Uint256) : Request :=
  { reserved := 40, count := 1, items := [inventoryItem type hash] }

def sendTx (hash : Uint256) : Request := oneItem .transactionType hash

variable (blockHash : ℤ → Uint256)

/-- The heights `createGetHeadersRequest` lists, below a tip above height 1000. -/
def offsets (height : ℤ) : List ℤ := [0, 3, 20, 60, 100, 200, 400, 600, 800, 1000].map (height - ·)

/-- `requestHeaders` with `createGetHeadersRequest`. -/
def requestHeaders (height : ℤ) : Request where
  reserved := 4 + 32 * 11
  front := encode 4 70012
  count := if height ≤ 1000 then 1 else 10
  items := if height ≤ 1000 then [(0 : Uint256).toBytes] else (offsets height).map fun i =>
    (blockHash i).toBytes
  behind := (0 : Uint256).toBytes

/-- The last height that `startMerkleDownload` asks for. -/
def merkleDownloadTo (start peerHeight blockHeight : Int32) : ℤ :=
  min (toInt32 (start.toInt + 100)) (min peerHeight.toInt blockHeight.toInt)

/-- There is no list when the peer is asked for its mempool. -/
def startMerkleDownload (start peerHeight blockHeight : Int32) : Option Request :=
  let stop := merkleDownloadTo start peerHeight blockHeight
  let count := toInt32 (1 + stop - start.toInt)
  if count = 0 then none
  else some {
    reserved := toInt32 (40 * count)
    count
    items := (range (stop + 1 - start.toInt).toNat).map fun i : ℕ =>
      inventoryItem .merkleBlock (blockHash (start.toInt + i)) }

/-- What `runQueue` sends to the peer it has chosen. -/
def runQueue (height : ℤ) (type : InventoryItem.Types) (hash : Uint256) : Option Request :=
  match type with
  | .transactionType | .doubleSpendType => some (oneItem type hash)
  | .blockType => some (requestHeaders blockHash height)
  | .merkleBlock => none

theorem length_WriteCompactSize (n : ℕ) : (WriteCompactSize n).length = GetSizeOfCompactSize n := by
  unfold WriteCompactSize GetSizeOfCompactSize
  split_ifs <;> simp

theorem length_inventoryItem (type : InventoryItem.Types) (hash : Uint256) :
    (inventoryItem type hash).length = 36 := by
  rw [inventoryItem, length_append, length_encode, Uint256.length_toBytes]

theorem Request.length_bytes {r : Request} {n : ℕ} (h : ∀ item ∈ r.items, item.length = n) :
    r.bytes.length = r.front.length + GetSizeOfCompactSize r.written + r.items.length * n +
      r.behind.length := by
  have hitems : r.items.flatten.length = r.items.length * n := by
    rw [length_flatten, map_congr_left h, map_const', sum_replicate_nat]
  rw [bytes, length_append, length_append, length_append, length_WriteCompactSize, hitems]

theorem fits_oneItem (type : InventoryItem.Types) (hash : Uint256) : (oneItem type hash).Fits where
  length_le := by
    rw [Request.length_bytes (n := 36) (by simp [oneItem, length_inventoryItem])]
    simp [oneItem, Request.written, GetSizeOfCompactSize]
  count_eq := rfl

theorem fits_sendFilter (bloom : CBloomFilter) : (sendFilter bloom).Fits := by
  have hsz := bloom.size_le
  have hcount : (sendFilter bloom).written = bloom.data.length := by
    simp only [Request.written, sendFilter]
    omega
  constructor
  · rw [Request.length_bytes (n := 1) (by simp [sendFilter]), hcount]
    simp [sendFilter, CBloomFilter.GetSerializeSize]
    omega
  · rw [hcount, sendFilter, length_map]

theorem toInt32_spec (x : ℤ) : -2 ^ 31 ≤ toInt32 x ∧ toInt32 x < 2 ^ 31 ∧
      ∃ k : ℤ, x = toInt32 x + 2 ^ 32 * k := by
  rw [toInt32, Int.bmod_def]
  split
  · exact ⟨by omega, by omega, x / 2 ^ 32, by omega⟩
  · exact ⟨by omega, by omega, x / 2 ^ 32 + 1, by omega⟩

/-- Ten hashes and the one behind them are eleven, but the count takes a byte too. -/
theorem length_requestHeaders (height : ℤ) :
    (requestHeaders blockHash height).bytes.length = if height ≤ 1000 then 69 else 357 := by
  rw [Request.length_bytes (n := 32)]
  · split_ifs with hh
    all_goals simp [requestHeaders, hh, offsets, Request.written, GetSizeOfCompactSize,
      Uint256.length_toBytes]
  · unfold requestHeaders
    split_ifs
    all_goals simp [Uint256.length_toBytes]

theorem fits_requestHeaders (height : ℤ) : (requestHeaders blockHash height).Fits ↔ height ≤ 1000 := by
  have hlen := length_requestHeaders blockHash height
  constructor
  · intro hfits
    have hle : _ ≤ (356 : ℤ) := hfits.length_le
    split_ifs at hlen
    all_goals omega
  · intro hh
    rw [if_pos hh] at hlen
    constructor
    · show _ ≤ (356 : ℤ)
      omega
    · simp [requestHeaders, hh, Request.written]

theorem fits_startMerkleDownload (start peerHeight H : Int32) :
    (∀ r ∈ startMerkleDownload blockHash start peerHeight H, r.Fits) ↔
      start.toInt + 100 < 2 ^ 31 ∧ start.toInt ≤ min peerHeight.toInt H.toInt + 1 := by
  have hs := start.le_toInt
  have hs' := start.toInt_lt
  have htop : -2 ^ 31 ≤ min peerHeight.toInt H.toInt := le_min peerHeight.le_toInt H.le_toInt
  unfold startMerkleDownload merkleDownloadTo
  generalize start.toInt = s, min peerHeight.toInt H.toInt = top at *
  dsimp only
  obtain ⟨hlo, hhi, k, hk⟩ := toInt32_spec (s + 100)
  generalize toInt32 (s + 100) = wide at *
  generalize hstop : min wide top = stop
  obtain ⟨hlo', hhi', m, hm⟩ := toInt32_spec (1 + stop - s)
  generalize toInt32 (1 + stop - s) = count at *
  split_ifs with hzero
  · refine iff_of_true (by simp) ?_
    omega
  · simp only [Option.mem_def, Option.some.injEq, forall_eq']
    constructor
    · intro hfits
      have hcount := hfits.count_eq
      simp only [Request.written, length_map, length_range] at hcount
      omega
    · intro hcond
      constructor
      · rw [Request.length_bytes (n := 36) (by simp [length_inventoryItem]),
          toInt32_of_fits (by omega) (by omega)]
        simp [Request.written, GetSizeOfCompactSize]
        omega
      · simp only [Request.written, length_map, length_range]
        omega

/-- The requests fit exactly up to height 1000 and for peers with the blocks in front of the first
one. -/
theorem requests_fit_iff (height start peerHeight H : Int32) (tx : Uint256) (bloom : CBloomFilter) :
    ((requestHeaders blockHash height.toInt).Fits ∧
        (∀ r ∈ startMerkleDownload blockHash start peerHeight H, r.Fits) ∧ (sendTx tx).Fits ∧
        (sendFilter bloom).Fits ∧ ∀ type hash, ∀ r ∈ runQueue blockHash height.toInt type hash, r.Fits) ↔
      height.toInt ≤ 1000 ∧ start.toInt + 100 < 2 ^ 31 ∧
        start.toInt ≤ min peerHeight.toInt H.toInt + 1 := by
  rw [fits_requestHeaders, fits_startMerkleDownload]
  constructor
  · rintro ⟨hhead, hmerkle, -⟩
    exact ⟨hhead, hmerkle⟩
  · rintro ⟨hhead, hmerkle⟩
    refine ⟨hhead, hmerkle, fits_oneItem .., fits_sendFilter bloom, fun type hash r hr => ?_⟩
    cases type with
    | transactionType | doubleSpendType =>
      cases hr
      exact fits_oneItem ..
    | blockType =>
      cases hr
      exact (fits_requestHeaders blockHash _).mpr hhead
    | merkleBlock => cases hr

/-- A header request takes 357 of 356 bytes above height 1000, and a peer of height 3 is asked for
`2 ^ 64 - 6` blocks. No present caller of `startMerkleDownload` asks a peer for heights that it has
not claimed; the function does not check it. -/
theorem requests_overflow :
    let blockHash : ℤ → Uint256 := fun _ => 0
    (requestHeaders blockHash 1001).bytes.length = 357 ∧ (requestHeaders blockHash 1001).reserved = 356 ∧
      startMerkleDownload blockHash 10 3 1000 = some { reserved := -240, count := -6, items := [] } :=
  ⟨length_requestHeaders _ 1001, rfl, rfl⟩

end FloweeHub.P2P
