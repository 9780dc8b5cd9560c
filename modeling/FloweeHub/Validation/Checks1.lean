import FloweeHub.Primitives.Merkle
import FloweeHub.Validation.TxInputs
import FloweeHub.Validation.Walk

/-! The first stage, `checks1NoContext`, which needs nothing but the bytes of the block. Of the two
readers of the bytes only the deserialiser is covered by the merkle root. -/

namespace FloweeHub.Validation

open Lib Lib.Guards Serialize BlockBytes RawTx List

variable {txs : List RawTx} {env : Checks1Env} {data : Bytes} {hash256 : Bytes → Uint256}
  {limit size : ℤ} {st : BlockValidationState} {block : RawBlock} {rest : Bytes}

/-- What the first stage reads from outside. -/
structure Checks1Env where
  hash256 : Bytes → Uint256
  CheckProofOfWork : Uint256 → ℕ → Bool
  adjustedTime : ℤ
  blockSizeAcceptLimit : ℤ

def runtime {α : Type} : Except String α → Except Thrown α
  | .ok a => .ok a
  | .error what => .error (.runtimeError what)

/-- How much larger than the limit a block is, in tenths and rounded; a `uint8_t`. -/
def sizePunishment (blockSize blockSizeAcceptLimit : ℤ) : ℕ :=
  ((20 * (blockSize - blockSizeAcceptLimit) + blockSizeAcceptLimit)
    / (2 * blockSizeAcceptLimit)).toNat % 256

/-- The root is that of the transactions, and not a mutated one. -/
def checkMerkle (hash256 : Bytes → Uint256) (block : RawBlock) : Except Thrown Unit :=
  let root := block.BlockMerkleRoot hash256
  if block.header.hashMerkleRoot ≠ root.1 then .error (.exception (.invalidNotFatal "bad-txnmrklroot"))
  else if root.2 then .error (.exception (.invalidNotFatal "bad-txns-duplicate"))
  else .ok ()

def checkTransactions : List Transaction → Except Thrown Unit
  | [] => .ok ()
  | tx :: txs => (checkTransaction tx).bind fun _ => checkTransactions txs

/-- The size, one coinbase in front, and every transaction by itself. -/
def checkVtx (blockSizeAcceptLimit blockSize : ℤ) : List Transaction → Except Thrown Unit
  | [] => throwInvalid "bad-blk-length"
  | coinbase :: txs =>
    if blockSizeAcceptLimit < blockSize then
      .error (.exception (.rejected "bad-blk-length" .rejectExceedsLimit
        (sizePunishment blockSize blockSizeAcceptLimit)))
    else if !coinbase.IsCoinBase then throwInvalid "bad-cb-missing"
    else if txs.any Transaction.IsCoinBase then throwInvalid "bad-cb-multiple"
    else checkTransactions (coinbase :: txs)

/-- The part behind the header. -/
def checkBody (env : Checks1Env) (checkMerkleRoot : Bool) (data : Bytes) : Except Thrown Unit :=
  (runtime (findTransactions data)).bind fun _ =>
    (runtime (RawBlock.createOldBlock data)).bind fun r =>
      (if checkMerkleRoot then checkMerkle env.hash256 r.1 else .ok ()).bind fun _ =>
        checkVtx env.blockSizeAcceptLimit data.length (r.1.vtx.items.map (toTransaction env.hash256))

/-- Proof of work and time. -/
def checkHeader (env : Checks1Env) (checkPow : Bool) (data : Bytes) : Except Thrown Unit :=
  (runtime (BlockHeader.read data)).bind fun r =>
    if checkPow && !env.CheckProofOfWork (env.hash256 (data.take 80)) r.1.nBits then
      .error (.exception (.invalid "high-hash" 50))
    else if env.adjustedTime + 2 * 60 * 60 < r.1.nTime then throwInvalid "time-too-new"
    else .ok ()

namespace BlockValidationState

/-- Everything inside the `try` of `checks1NoContext`. -/
def checks1 (st : BlockValidationState) (env : Checks1Env) (data : Bytes) : Except Thrown Unit :=
  (checkHeader env st.checkPow data).bind fun _ =>
    if 80 < data.length && st.checkTransactionValidity then checkBody env st.checkMerkleRoot data
    else .ok ()

def checks1NoContext (st : BlockValidationState) (env : Checks1Env) (data : Bytes) :
    BlockValidationState :=
  match st.checks1 env data with
  | .ok _ => { st with status := { st.status with validHeader := true } }
  | .error t => st.failedBy .rejectInternal t

end BlockValidationState

theorem runtime_eq_ok {α : Type} {x : Except String α} {a : α} : runtime x = .ok a ↔ x = .ok a := by
  cases x with
  | error what => simp [runtime]
  | ok b => simp [runtime]

theorem checkTransactions_eq_ok {txs : List Transaction} :
    checkTransactions txs = .ok () ↔ ∀ tx ∈ txs, checkTransaction tx = .ok () := by
  induction txs with
  | nil => simp [checkTransactions]
  | cons tx txs ih =>
    rw [checkTransactions, bind_eq_ok_iff, forall_mem_cons, ← ih]
    exact ⟨fun ⟨_, h⟩ => h, fun h => ⟨(), h⟩⟩

theorem checkVtx_eq_ok {vtx : List Transaction} :
    checkVtx limit size vtx = .ok () ↔ ∃ coinbase txs, vtx = coinbase :: txs ∧ size ≤ limit ∧
      coinbase.IsCoinBase ∧ txs.any Transaction.IsCoinBase = false ∧
        ∀ tx ∈ coinbase :: txs, checkTransaction tx = .ok () := by
  cases vtx with
  | nil => simp [checkVtx, throwInvalid]
  | cons coinbase txs =>
    rw [checkVtx]
    simp only [throwInvalid, ite_error_eq_ok_iff, checkTransactions_eq_ok]
    simp

theorem checkBody_eq_ok {checkMerkleRoot : Bool} : checkBody env checkMerkleRoot data = .ok () ↔
      ∃ txs block rest, findTransactions data = .ok txs ∧
        RawBlock.createOldBlock data = .ok (block, rest) ∧
        (checkMerkleRoot → checkMerkle env.hash256 block = .ok ()) ∧
        checkVtx env.blockSizeAcceptLimit data.length
          (block.vtx.items.map (toTransaction env.hash256)) = .ok () := by
  simp only [checkBody, bind_eq_ok_iff, runtime_eq_ok]
  constructor
  · rintro ⟨txs, htxs, ⟨block, rest⟩, hblk, _, hmk, hvtx⟩
    exact ⟨txs, block, rest, htxs, hblk, fun h => by simpa [h] using hmk, hvtx⟩
  · rintro ⟨txs, block, rest, htxs, hblk, hmk, hvtx⟩
    refine ⟨txs, htxs, (block, rest), hblk, (), ?_, hvtx⟩
    split_ifs with h
    · exact hmk h
    · rfl

theorem checks1_eq_ok : st.checks1 env data = .ok () ↔ checkHeader env st.checkPow data = .ok () ∧
      (80 < data.length → st.checkTransactionValidity →
        checkBody env st.checkMerkleRoot data = .ok ()) := by
  rw [BlockValidationState.checks1, bind_eq_ok_iff]
  constructor
  · rintro ⟨_, hhd, hbody⟩
    refine ⟨hhd, fun hfull hck => ?_⟩
    rwa [if_pos (by simp [hfull, hck])] at hbody
  · rintro ⟨hhd, hbody⟩
    refine ⟨(), hhd, ?_⟩
    split_ifs with hfull
    · rw [Bool.and_eq_true, decide_eq_true_eq] at hfull
      exact hbody hfull.1 hfull.2
    · rfl

theorem checkTransaction_ne {tx : Transaction} (h : checkTransaction tx = .ok ()) :
    tx.vin ≠ [] ∧ tx.vout ≠ [] := by
  obtain ⟨hin, h⟩ := ite_error_eq_ok_iff.mp h
  exact ⟨hin, (ite_error_eq_ok_iff.mp h).1⟩

theorem proper_of_checkVtx (hval : block.Valid)
    (h : checkVtx limit size (block.vtx.items.map (toTransaction env.hash256)) = .ok ()) :
    block.vtx.items ≠ [] ∧ ∀ tx ∈ block.vtx.items, tx.Proper := by
  obtain ⟨coinbase, txs, hvtx, -, -, -, hall⟩ := checkVtx_eq_ok.mp h
  refine ⟨fun hnil => by simp [hnil] at hvtx, fun tx htx => ?_⟩
  have hmem : tx.toTransaction env.hash256 ∈ coinbase :: txs := hvtx ▸ mem_map_of_mem htx
  obtain ⟨hin, hout⟩ := checkTransaction_ne (hall _ hmem)
  exact ⟨hval.vtx tx htx, fun hnil => hin (by simp [toTransaction, hnil]),
    fun hnil => hout (by simp [toTransaction, hnil])⟩

/-- The id of a transaction, where it starts and how many outputs it has. -/
abbrev TxEntry := Uint256 × ℤ × ℕ

def txEntry (hash256 : Bytes → Uint256) (t : ℕ × Bytes) : Except String TxEntry :=
  (createOldTransaction t.2).map fun tx => (hash256 t.2, t.1, tx.vout.items.length)

def walkedEntry (t : TxWalk) : TxEntry := (t.txid, t.offsetInBlock, t.vout.length)

/-- The loop that adds the outputs ends, and has found the transactions `txs`. -/
def WalkMatches (hash256 : Bytes → Uint256) (data : Bytes) (txs : List (ℕ × Bytes)) : Prop :=
  (walkBlock hash256 data).2 = none ∧
    (walkBlock hash256 data).1.map (fun t => .ok (walkedEntry t)) = txs.map (txEntry hash256)

theorem walked_entries (hval : ∀ tx ∈ txs, tx.Valid) (pos : ℕ) :
    (walked hash256 pos txs).map (fun t => .ok (walkedEntry t)) = (placed pos txs).map
      (txEntry hash256) := by
  induction txs generalizing pos with
  | nil => rfl
  | cons tx txs ih =>
    have hread := (hval tx (by simp)).createOldTransaction []
    rw [append_nil] at hread
    have hent : txEntry hash256 (pos, tx.write) = .ok (walkedEntry (tx.toWalk hash256 pos)) := by
      simp [txEntry, hread, Except.map, walkedEntry, toWalk]
    rw [walked, placed, map_cons, map_cons, hent, ih fun t ht => hval t (by simp [ht])]

variable (hash256)

theorem length_walked (pos : ℕ) (txs : List RawTx) : (walked hash256 pos txs).length = txs.length := by
  induction txs generalizing pos with
  | nil => rfl
  | cons tx txs ih => rw [walked, length_cons, length_cons, ih]

theorem length_placed (pos : ℕ) (txs : List RawTx) : (placed pos txs).length = txs.length := by
  induction txs generalizing pos with
  | nil => rfl
  | cons tx txs ih => rw [placed, length_cons, length_cons, ih]

/-! ### A block with a transaction behind it -/

def sampleRawCoinbase : RawTx where
  nVersion := 1
  vin := .ofList [⟨⟨0, 0xFFFFFFFF⟩, .ofList [0x51, 0x51], 0xFFFFFFFF⟩]
  vout := .ofList [⟨50 * COIN, .ofList [0x51]⟩]
  nLockTime := 0

/-- It spends an output that need not exist and makes one that anybody can spend. -/
def sampleRawExtra : RawTx where
  nVersion := 1
  vin := .ofList [⟨⟨1, 0⟩, .ofList [], 0xFFFFFFFF⟩]
  vout := .ofList [⟨MAX_MONEY, .ofList [0x51]⟩]
  nLockTime := 0

def sampleRawBlock : RawBlock where
  header := ⟨1, 0, hash256 sampleRawCoinbase.write, 0, 0, 0⟩
  vtx := .ofList [sampleRawCoinbase]

def sampleEnv : Checks1Env := ⟨hash256, fun _ _ => true, 0, 1000000⟩

theorem sampleRawBlock_valid : (sampleRawBlock hash256).Valid where
  header := ⟨(by decide : (1 : ℤ).bmod (2 ^ 32) = 1), Nat.two_pow_pos 32, Nat.two_pow_pos 32,
    Nat.two_pow_pos 32⟩
  vtx_sized := (by decide : (Counted.ofList [sampleRawCoinbase]).Sized)
  vtx := (by decide : ∀ tx ∈ [sampleRawCoinbase], tx.Valid)

/-- The stage accepts the block with anything behind it, as long as it is not too large. -/
theorem sampleRawBlock_accepted (st : BlockValidationState)
    (hdata : data = (sampleRawBlock hash256).write ++ rest) (hsize : data.length ≤ 1000000) :
    findTransactions data = .ok [(81, sampleRawCoinbase.write)] ∧
      RawBlock.createOldBlock data = .ok (sampleRawBlock hash256, rest) ∧
      st.checks1 (sampleEnv hash256) data = .ok () := by
  have hval := sampleRawBlock_valid hash256
  have hex : ∀ tx ∈ (sampleRawBlock hash256).vtx.items, tx.Exact := fun tx htx =>
    (hval.vtx tx htx).exact ((by decide : ∀ tx ∈ [sampleRawCoinbase], tx.Short) tx htx)
  have hfind := findTransactions_write hval (by decide : (1 : ℕ) ≤ 0xFFFFFF) hex (by omega) hdata
  have hblk := RawBlock.createOldBlock_eq_ok.mpr ⟨hval, hdata⟩
  have hroot := (hex sampleRawCoinbase (by simp [sampleRawBlock, Counted.ofList])).hash_eq hash256
  have hmk : checkMerkle hash256 (sampleRawBlock hash256) = .ok () := by
    simp [checkMerkle, RawBlock.BlockMerkleRoot, sampleRawBlock, Counted.ofList,
      Merkle.ComputeMerkleRoot, Merkle.rootFrom, hroot]
  have hvtx : checkVtx 1000000 data.length [toTransaction hash256 sampleRawCoinbase] = .ok () := by
    refine checkVtx_eq_ok.mpr ⟨_, [], rfl, by omega, rfl, rfl, fun tx htx => ?_⟩
    rw [mem_singleton.mp htx]
    rfl
  have hhd : checkHeader (sampleEnv hash256) st.checkPow data = .ok () := by
    rw [checkHeader, hval.read_header hdata, runtime, ok_bind]
    simp [sampleEnv, sampleRawBlock]
  refine ⟨hfind, hblk, checks1_eq_ok.mpr ⟨hhd, fun _ _ => ?_⟩⟩
  exact checkBody_eq_ok.mpr ⟨_, _, _, hfind, hblk, fun _ => hmk, hvtx⟩

theorem length_sampleRawBlock : (sampleRawBlock hash256).write.length = 144 := by
  rfl

theorem walkMatches_of_checkVtx {ftxs : List (ℕ × Bytes)} (hsize : data.length < 2 ^ 31)
    (hfind : findTransactions data = .ok ftxs) (hblk : RawBlock.createOldBlock data = .ok (block, rest))
    (hvtx : checkVtx limit size (block.vtx.items.map (toTransaction env.hash256)) = .ok ()) :
    WalkMatches env.hash256 data ftxs ↔ rest.length ≤ 1 ∧ ∀ tx ∈ block.vtx.items, tx.Short := by
  obtain ⟨hval, hdata⟩ := RawBlock.createOldBlock_eq_ok.mp hblk
  obtain ⟨hne, hprop⟩ := proper_of_checkVtx hval hvtx
  have hct := findTransactions_count hval hdata hfind
  have hpld : (∀ tx ∈ block.vtx.items, tx.Short) →
      ftxs = placed (80 + (WriteCompactSize block.vtx.count).length) block.vtx.items := by
    intro hsh
    have hwr := findTransactions_write hval hct (fun tx htx => (hval.vtx tx htx).exact (hsh tx htx))
      hsize hdata
    rw [hfind] at hwr
    exact Except.ok.inj hwr
  constructor
  · rintro ⟨hnone, hents⟩
    have hsh : ∀ tx ∈ block.vtx.items, tx.Short := by
      by_contra hlong
      exact walkBlock_long hne hprop hlong hdata hnone
    obtain ⟨e, i, o, hwalk⟩ := @walkBlock_write env.hash256 _ _ _ hne hprop hsh hdata
    refine ⟨?_, hsh⟩
    rw [hwalk] at hnone hents
    have hlen := congrArg length hents
    rw [hpld hsh] at hlen
    simp only [length_map, length_append, length_walked, length_placed] at hlen
    exact walkBehind_done hnone (length_eq_zero_iff.mp (by omega))
  · rintro ⟨hrest, hsh⟩
    obtain ⟨e, i, o, hwalk⟩ := @walkBlock_write env.hash256 _ _ _ hne hprop hsh hdata
    rw [walkBehind, if_pos hrest, append_nil] at hwalk
    rw [WalkMatches, hwalk, hpld hsh]
    exact ⟨rfl, walked_entries hval.vtx _⟩

/-- Exactly if at most one byte follows and all transactions are short enough for the iterator. -/
theorem walkMatches_iff {env : Checks1Env} {st : BlockValidationState} {data rest : Bytes}
    {txs : List (ℕ × Bytes)} {block : RawBlock} (hsize : data.length < 2 ^ 31) (hfull : 80 < data.length)
    (hcheck : st.checkTransactionValidity = true) (hfind : findTransactions data = .ok txs)
    (hblock : RawBlock.createOldBlock data = .ok (block, rest)) (hok : st.checks1 env data = .ok ()) :
    WalkMatches env.hash256 data txs ↔ rest.length ≤ 1 ∧ ∀ tx ∈ block.vtx.items, tx.Short := by
  obtain ⟨_, block', rest', -, hblk', -, hvtx⟩ :=
    checkBody_eq_ok.mp ((checks1_eq_ok.mp hok).2 hfull hcheck)
  obtain ⟨rfl, rfl⟩ : block = block' ∧ rest = rest' := by simpa [hblock] using hblk'
  exact walkMatches_of_checkVtx hsize hfind hblock hvtx

def sampleChecks1State : BlockValidationState where
  block := { blockId := 0, previousBlockId := 0, size := 145, transactions := [], walk := [] }
  blockId := 0

/-- One transaction is counted and checked, and the loop adds the outputs of two. -/
theorem walk_adds_unchecked_output :
    let hash256 : Bytes → Uint256 := fun _ => 0
    let data := (sampleRawBlock hash256).write ++ sampleRawExtra.write
    findTransactions data = .ok [(81, sampleRawCoinbase.write)] ∧
      (∀ st : BlockValidationState, st.checks1 (sampleEnv hash256) data = .ok ()) ∧
      walkBlock hash256 data = ([⟨0, 81, 1, [⟨50 * COIN, [0x51]⟩]⟩,
        ⟨0, 144, 1, [⟨MAX_MONEY, [0x51]⟩]⟩], none) ∧
      ¬ WalkMatches hash256 data [(81, sampleRawCoinbase.write)] := by
  intro hash256 data
  have hlen : data.length = 144 + sampleRawExtra.write.length := by
    rw [length_append, length_sampleRawBlock]
  have hok := fun st => sampleRawBlock_accepted hash256 st rfl (hlen.trans_le (by decide))
  have hprop : ∀ tx ∈ [sampleRawCoinbase, sampleRawExtra], tx.Proper := by decide
  have hdrop : data.drop 81 = [sampleRawCoinbase, sampleRawExtra].flatMap write ++ [] := by
    have hdrop : data.drop 81 = [sampleRawCoinbase].flatMap write ++ sampleRawExtra.write :=
      drop_behind (drop_header (b := sampleRawBlock hash256) rfl)
    rw [hdrop]
    simp
  obtain ⟨i, o, htxs⟩ := @walk_txs hash256 data [] 81 (-1) (-1) _ _ hprop (by decide) hdrop
  have hwalk : walkBlock hash256 data =
      ([⟨0, 81, 1, [⟨50 * COIN, [0x51]⟩]⟩, ⟨0, 144, 1, [⟨MAX_MONEY, [0x51]⟩]⟩], none) := by
    rw [walkBlock_eq (b := sampleRawBlock hash256) rfl (hprop sampleRawCoinbase (by simp)).valid rfl]
    exact htxs
  refine ⟨(hok sampleChecks1State).1, fun st => (hok st).2.2, hwalk, ?_⟩
  rintro ⟨-, hents⟩
  rw [hwalk] at hents
  have hct := congrArg length hents
  simp at hct

theorem walkMatches_sample :
    let data := (sampleRawBlock fun _ => 0).write ++ [0]
    findTransactions data = .ok [(81, sampleRawCoinbase.write)] ∧
      sampleChecks1State.checks1 (sampleEnv fun _ => 0) data = .ok () ∧
      WalkMatches (fun _ => 0) data [(81, sampleRawCoinbase.write)] := by
  intro data
  have hlen : data.length = 145 := by
    rfl
  have hdata : data = (sampleRawBlock fun _ => 0).write ++ [0] := rfl
  obtain ⟨hfind, hblk, hok⟩ := sampleRawBlock_accepted (fun _ => 0) sampleChecks1State hdata (by omega)
  have hiff := walkMatches_iff (by omega) (by omega) rfl hfind hblk hok
  exact ⟨hfind, hok, hiff.mpr ⟨le_rfl, (by decide : ∀ tx ∈ [sampleRawCoinbase], tx.Short)⟩⟩

/-! ### The block as the later stages see it -/

/-- A transaction of `m_block.transactions()` with what `createOldTransaction` makes of it. -/
def placedTx (t : ℕ × Bytes) : Except String PlacedTx :=
  (createOldTransaction t.2).bind fun tx =>
    .ok ⟨{ tx.toTransaction hash256 with hash := hash256 t.2 }, t.1⟩

def placedTxs (hash256 : Bytes → Uint256) : List (ℕ × Bytes) → Except String (List PlacedTx)
  | [] => .ok []
  | t :: ts => (placedTx hash256 t).bind fun tx => (placedTxs hash256 ts).bind fun txs => .ok (tx :: txs)

def fastBlock (data : Bytes) : Except String FastBlock :=
  (BlockHeader.read data).bind fun r => (findTransactions data).bind fun txs =>
    (placedTxs hash256 txs).bind fun transactions => .ok
      { blockId := hash256 (data.take 80)
        previousBlockId := r.1.hashPrevBlock
        nVersion := r.1.nVersion
        nTime := r.1.nTime
        nBits := r.1.nBits
        size := data.length
        transactions := transactions
        walk := (walkBlock hash256 data).1
        walkError := (walkBlock hash256 data).2 }

variable {hash256}

def placedRaw (hash256 : Bytes → Uint256) (pos : ℕ) : List RawTx → List PlacedTx
  | [] => []
  | tx :: txs => ⟨tx.toTransaction hash256, pos⟩ :: placedRaw hash256 (pos + tx.write.length) txs

theorem placedTxs_placed (hval : ∀ tx ∈ txs, tx.Valid) (hex : ∀ tx ∈ txs, tx.Exact) (pos : ℕ) :
    placedTxs hash256 (placed pos txs) = .ok (placedRaw hash256 pos txs) := by
  induction txs generalizing pos with
  | nil => rfl
  | cons tx txs ih =>
    have hread := (hval tx (by simp)).createOldTransaction []
    rw [append_nil] at hread
    have hhash := (hex tx (by simp)).hash_eq hash256
    rw [placed, placedTxs, placedTx, hread, ok_bind, ok_bind,
      ih (fun t ht => hval t (by simp [ht])) (fun t ht => hex t (by simp [ht])), ok_bind, ← hhash,
      placedRaw]

theorem walked_eq_toWalk (hex : ∀ tx ∈ txs, tx.Exact) (pos : ℕ) :
    walked hash256 pos txs = (placedRaw hash256 pos txs).map PlacedTx.toWalk := by
  induction txs generalizing pos with
  | nil => rfl
  | cons tx txs ih =>
    rw [walked, placedRaw, map_cons, ih fun t ht => hex t (by simp [ht]), toWalk, PlacedTx.toWalk,
      (hex tx (by simp)).hash_eq]
    rfl

theorem placedRaw_tx (hash256 : Bytes → Uint256) (pos : ℕ) (txs : List RawTx) :
    (placedRaw hash256 pos txs).map PlacedTx.tx = txs.map (toTransaction hash256) := by
  induction txs generalizing pos with
  | nil => rfl
  | cons tx txs ih => rw [placedRaw, map_cons, map_cons, ih]

theorem walked_offsets (hash256 : Bytes → Uint256) (pos : ℕ) (txs : List RawTx) :
    (∀ t ∈ walked hash256 pos txs, (pos : ℤ) ≤ t.offsetInBlock) ∧
      ((walked hash256 pos txs).map TxWalk.offsetInBlock).Nodup := by
  induction txs generalizing pos with
  | nil => simp [walked]
  | cons tx txs ih =>
    obtain ⟨hle, hnd⟩ := ih (pos + tx.write.length)
    have hgt := tx.length_write_gt
    rw [walked]
    refine ⟨fun t ht => ?_, ?_⟩
    · rcases mem_cons.mp ht with rfl | ht
      · exact le_rfl
      · have := hle t ht
        omega
    · rw [map_cons, nodup_cons]
      refine ⟨fun hmem => ?_, hnd⟩
      obtain ⟨t, ht, heq⟩ := mem_map.mp hmem
      have := hle t ht
      rw [heq] at this
      simp only [toWalk] at this
      omega

/-- An accepted block without the two defects is read alike by both readers. -/
theorem fastBlock_agrees (hsize : data.length < 2 ^ 31) (hfull : 80 < data.length)
    (hck : st.checkTransactionValidity) (hblk : RawBlock.createOldBlock data = .ok (block, rest))
    (hok : st.checks1 env data = .ok ()) (hrest : rest.length ≤ 1)
    (hsh : ∀ tx ∈ block.vtx.items, tx.Short) :
    ∃ b, fastBlock env.hash256 data = .ok b ∧ b.WalkAgrees ∧ b.Regular ∧ b.size = data.length ∧
      b.vtx = block.vtx.items.map (toTransaction env.hash256) ∧
        ∀ tx ∈ b.vtx, checkTransaction tx = .ok () := by
  obtain ⟨hval, hdata⟩ := RawBlock.createOldBlock_eq_ok.mp hblk
  obtain ⟨txs, block', rest', hfind, hblk', -, hvtx⟩ :=
    checkBody_eq_ok.mp ((checks1_eq_ok.mp hok).2 hfull hck)
  obtain ⟨rfl, rfl⟩ : block = block' ∧ rest = rest' := by simpa [hblk] using hblk'
  obtain ⟨hne, hprop⟩ := proper_of_checkVtx hval hvtx
  have hex : ∀ tx ∈ block.vtx.items, tx.Exact := fun tx htx => (hval.vtx tx htx).exact (hsh tx htx)
  have hfind := findTransactions_write hval (findTransactions_count hval hdata hfind) hex hsize hdata
  obtain ⟨e, i, o, hwalk⟩ := @walkBlock_write env.hash256 _ _ _ hne hprop hsh hdata
  rw [walkBehind, if_pos hrest, append_nil] at hwalk
  rw [fastBlock, hval.read_header hdata, ok_bind, hfind, ok_bind, placedTxs_placed hval.vtx hex,
    ok_bind, hwalk]
  refine ⟨_, rfl, ⟨walked_eq_toWalk hex _, rfl⟩, ⟨(walked_offsets _ _ _).2, ?_⟩, rfl,
    placedRaw_tx _ _ _, ?_⟩
  · intro t ht
    rw [walked_eq_toWalk hex] at ht
    obtain ⟨p, hp, rfl⟩ := mem_map.mp ht
    have hmem : p.tx ∈ block.vtx.items.map (toTransaction env.hash256) :=
      placedRaw_tx env.hash256 _ _ ▸ mem_map_of_mem hp
    obtain ⟨tx, htx, heq⟩ := mem_map.mp hmem
    simp only [PlacedTx.toWalk, ← heq, toTransaction, ne_eq, map_eq_nil_iff]
    exact (hprop tx htx).vout_ne
  · obtain ⟨coinbase, txs', hvtx', -, -, -, hall⟩ := checkVtx_eq_ok.mp hvtx
    intro tx htx
    refine hall tx ?_
    rw [← hvtx', ← placedRaw_tx env.hash256 (80 + (WriteCompactSize block.vtx.count).length)]
    exact htx

theorem fastBlock_agrees_sample :
    let data := (sampleRawBlock fun _ => 0).write ++ [0]
    ∃ b, fastBlock (fun _ => 0) data = .ok b ∧ b.WalkAgrees ∧ b.size = data.length := by
  intro data
  have hlen : data.length = 145 := by
    rfl
  obtain ⟨-, hblk, hok⟩ := sampleRawBlock_accepted (fun _ => 0) sampleChecks1State (rfl : data = _)
    (by omega)
  obtain ⟨b, hb, hagree, -, hsize, -⟩ := fastBlock_agrees (by omega) (by omega) rfl hblk hok le_rfl
    (by decide : ∀ tx ∈ [sampleRawCoinbase], tx.Short)
  exact ⟨b, hb, hagree, hsize⟩

end FloweeHub.Validation
