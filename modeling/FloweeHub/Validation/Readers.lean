import FloweeHub.Validation.Checks1

/-! The transaction readers compared on everything that `checkTransaction` accepts: `Tx::Iterator`
and `findTransactions` read the same bytes again with limits of their own. Proved is on which bytes
they agree. -/

namespace FloweeHub

open Lib Lib.Guards Serialize LittleEndian TxTokenizer Counted List

namespace TxTokenizer

variable {data : Bytes} {t t' t'' : TxTokenizer} {toks toks' : List (Component × Bytes)}

def ofTx : TxTokenizer := ⟨some 0, 0, 0, -1, -1, .End⟩

def prevTx (data : Bytes) (t : TxTokenizer) : Bytes :=
  (data.drop (t.txStart.getD 0)).take (t.currentTokenEnd - t.txStart.getD 0)

/-- The parts of a transaction in the order of its bytes. -/
def txTokens (tx : RawTx) : List (Component × Bytes) :=
  (.TxVersion, encodeInt 4 tx.nVersion) :: bodyTokens tx

/-- The iterator gives these tokens and then an end, where `prevTx` is all of the buffer. -/
def Yields (data : Bytes) (toks : List (Component × Bytes)) : Prop :=
  ∃ t t', Reads data ofTx toks t ∧ t.next data = .ok t' ∧ t'.tag = .End ∧ t'.prevTx data = data

/-- A run that comes to an end meets no step that throws. -/
theorem Reads.not_fails (h : Reads data t toks t') (hend : t'.next data = .ok t'')
    (htag : t''.tag = .End) :
    ¬ Fails data t := by
  rintro ⟨toks', u, e, hr, he⟩
  induction h generalizing toks' with
  | refl t =>
    cases hr with
    | refl =>
      rw [hend] at he
      cases he
    | step hn hne _ =>
      cases hend.symm.trans hn
      exact hne htag
  | step hn hne _ ih =>
    cases hr with
    | refl =>
      rw [hn] at he
      cases he
    | step hn' _ hr' =>
      cases hn.symm.trans hn'
      exact ih hend _ hr'

variable {tx : RawTx}

theorem next_ofTx (hin : tx.vin.items ≠ []) : next tx.write ofTx = .ok (atVersion 0 (-1) (-1)) := by
  have hins := length_flatMap_ge hin length_write_txin
  have hlen : 36 ≤ tx.write.length := by
    simp only [RawTx.write, writeVector, length_append, length_encodeInt]
    omega
  rw [next, ofTx, if_neg (by dsimp only; omega)]
  rfl

theorem byteData_version (tx : RawTx) : (atVersion 0 (-1) (-1)).byteData tx.write =
      encodeInt 4 tx.nVersion := by
  have hdrop : tx.write.drop 0 = encodeInt 4 tx.nVersion ++ (writeVector RawTxIn.write tx.vin ++
    (writeVector RawTxOut.write tx.vout ++ encode 4 tx.nLockTime)) := rfl
  have hbyte : byteData tx.write ⟨some 0, 0, 0 + (encodeInt 4 tx.nVersion).length, -1, -1, .TxVersion⟩ =
    encodeInt 4 tx.nVersion := byteData_of_drop hdrop
  rwa [length_encodeInt] at hbyte

/-- The iterator takes a transaction apart exactly if it is short enough. -/
theorem yields_iff (hval : tx.Valid) (hin : tx.vin.items ≠ []) (hout : tx.vout.items ≠ []) :
    Yields tx.write (txTokens tx) ↔ tx.Short := by
  have hdrop : tx.write.drop 0 = tx.write ++ [] := (append_nil _).symm
  have hfst := next_ofTx hin
  constructor
  · rintro ⟨t, t', hrd, hend, htag, -⟩
    by_contra hlong
    have hfls : Fails tx.write (atVersion 0 (-1) (-1)) := fails_tx hval hin hout hlong hdrop
    have hstep := Reads.step hfst (by simp [atVersion]) (.refl _)
    exact hrd.not_fails hend htag (hstep.fails hfls)
  · intro hsh
    obtain ⟨b, i, o, hbody⟩ := reads_tx (i := -1) (o := -1) hval hin hout hsh hdrop
    have hrd := Reads.step hfst (by simp [atVersion]) hbody
    refine ⟨_, _, hrd, by rw [next, if_pos (by dsimp only; omega)], rfl, ?_⟩
    simp [prevTx]

end TxTokenizer

namespace Validation

/-- Every vector knows its own size, and the numbers fit their types. -/
structure IsOldTransaction (tx : RawTx) : Prop where
  valid : tx.Valid
  exact : tx.Exact

variable {hash256 : Bytes → Uint256} {header : BlockHeader} {txs : List RawTx} {n : ℕ}

theorem ne_of_checkTransaction {tx : RawTx} (h : checkTransaction (tx.toTransaction hash256) = .ok ()) :
    tx.vin.items ≠ [] ∧ tx.vout.items ≠ [] := by
  obtain ⟨hin, hout⟩ := checkTransaction_ne h
  exact ⟨fun hnil => hin (by simp [RawTx.toTransaction, hnil]), fun hnil =>
    hout (by simp [RawTx.toTransaction, hnil])⟩

def blockOf (header : BlockHeader) (txs : List RawTx) : RawBlock := ⟨header, .ofList txs⟩

theorem length_le_flatMap_write (txs : List RawTx) : txs.length ≤ (txs.flatMap RawTx.write).length := by
  induction txs with
  | nil => exact le_rfl
  | cons tx txs ih =>
    have := tx.length_write_gt
    rw [flatMap_cons, length_append, length_cons]
    omega

theorem blockOf_valid (hhd : header.Valid) (hval : ∀ tx ∈ txs, tx.Valid)
    (hsize : (blockOf header txs).write.length < 2 ^ 31) : (blockOf header txs).Valid := by
  have hflat := length_le_flatMap_write txs
  have hlen : txs.length < 2 ^ 31 := by
    simp only [blockOf, RawBlock.write, writeVector, ofList, length_append] at hsize
    omega
  have hct : txs.length < 2 ^ 64 := by omega
  have hmod : txs.length = txs.length % 2 ^ 32 := by omega
  exact ⟨hhd, ⟨hct, hmod⟩, hval⟩

/-- Both readers find in the bytes what was written, each transaction in its place. -/
def ReadersAgree (header : BlockHeader) (txs : List RawTx) : Prop :=
  (∀ tx ∈ txs, TxTokenizer.Yields tx.write (txTokens tx)) ∧
    BlockBytes.findTransactions (blockOf header txs).write =
      .ok (BlockBytes.placed (80 + (WriteCompactSize txs.length).length) txs)

/-- The readers agree exactly if no count and no script length is above `0xFFFF` and there are at
most `0xFFFFFF` transactions. -/
theorem readersAgree_iff (hheader : header.Valid) (hold : ∀ tx ∈ txs, IsOldTransaction tx)
    (hok : ∀ tx ∈ txs, checkTransaction (tx.toTransaction hash256) = .ok ())
    (hsize : (blockOf header txs).write.length < 2 ^ 31) :
    ReadersAgree header txs ↔ (∀ tx ∈ txs, tx.Short) ∧ txs.length ≤ 0xFFFFFF := by
  have hyl : (∀ tx ∈ txs, TxTokenizer.Yields tx.write (txTokens tx)) ↔ ∀ tx ∈ txs, tx.Short := by
    refine forall₂_congr fun tx htx => ?_
    obtain ⟨hin, hout⟩ := ne_of_checkTransaction (hok tx htx)
    exact yields_iff (hold tx htx).valid hin hout
  have hval := blockOf_valid hheader (fun tx htx => (hold tx htx).valid) hsize
  have hdata : (blockOf header txs).write = (blockOf header txs).write ++ [] := (append_nil _).symm
  rw [ReadersAgree, hyl]
  refine and_congr_right fun _ => ⟨fun hfind => ?_, fun hct => ?_⟩
  · exact BlockBytes.findTransactions_count hval hdata hfind
  · exact BlockBytes.findTransactions_write hval hct (fun tx htx => (hold tx htx).exact) hsize hdata

def sampleHeader : BlockHeader := ⟨1, 0, 0, 0, 0, 0⟩

def sampleTxIn : RawTxIn := ⟨⟨1, 0⟩, .ofList [], 0xFFFFFFFF⟩

def scriptTx (n : ℕ) : RawTx where
  nVersion := 1
  vin := .ofList [sampleTxIn]
  vout := .ofList [⟨0, .ofList (replicate n 0x51)⟩]
  nLockTime := 0

theorem length_WriteCompactSize_le (n : ℕ) : (WriteCompactSize n).length ≤ 9 := by
  unfold WriteCompactSize
  split_ifs <;> simp [length_encode]

theorem length_scriptTx_le (n : ℕ) : (scriptTx n).write.length ≤ n + 69 := by
  have hscr := length_WriteCompactSize_le n
  simp only [RawTx.write, writeVector, scriptTx, sampleTxIn, ofList, flatMap_cons, flatMap_nil,
    RawTxIn.write, RawTxOut.write, writeScript, length_append, length_replicate, length_encode,
    length_encodeInt, Uint256.length_toBytes, length_nil, length_cons]
  have hzero : (WriteCompactSize 0).length = 1 := rfl
  have hone : (WriteCompactSize (0 + 1)).length = 1 := rfl
  omega

theorem scriptTx_old (hn : n < 2 ^ 32) : IsOldTransaction (scriptTx n) := by
  have hscr : (ofList (replicate n (0x51 : UInt8))).Sized := by
    constructor
    · simp only [ofList, length_replicate]
      omega
    · simp only [ofList, length_replicate]
      omega
  constructor
  · exact
      { nVersion_fits := (by decide : (1 : ℤ).bmod (2 ^ 32) = 1)
        vin_sized := (by decide : (ofList [sampleTxIn]).Sized)
        vin := (by decide : ∀ txin ∈ [sampleTxIn], txin.Valid)
        vout_sized := ⟨(by decide : 1 < 2 ^ 64), rfl⟩
        vout := by
          intro txout ht
          rw [mem_singleton.mp ht]
          exact ⟨(by decide : (0 : ℤ).bmod (2 ^ 64) = 0), hscr⟩
        nLockTime_lt := Nat.two_pow_pos 32 }
  · exact
      { vin := rfl
        inScripts := (by decide : ∀ txin ∈ [sampleTxIn], txin.scriptSig.Exact)
        vout := rfl
        outScripts := by
          intro txout ht
          rw [mem_singleton.mp ht]
          rfl }

theorem scriptTx_accepted (hash256 : Bytes → Uint256) (hn : n ≤ 999931) :
    checkTransaction ((scriptTx n).toTransaction hash256) = .ok () := by
  have hsize : ((scriptTx n).toTransaction hash256).size ≤ MAX_TX_SIZE := by
    have hlen := length_scriptTx_le n
    show (scriptTx n).normal.write.length ≤ 1000000
    rw [(scriptTx_old (by omega)).exact.normal_eq]
    omega
  rw [checkTransaction, if_neg (by simp [RawTx.toTransaction, scriptTx, ofList]),
    if_neg (by simp [RawTx.toTransaction, scriptTx, ofList]), if_neg (not_lt.mpr hsize)]
  rfl

theorem scriptTx_short_iff : (scriptTx n).Short ↔ n ≤ 0xFFFF := by
  constructor
  · rintro ⟨-, -, -, hout⟩
    simpa [ofList] using hout _ (mem_singleton_self _)
  · intro hn
    refine ⟨(by decide : 1 ≤ 0xFFFF), (by decide : ∀ txin ∈ [sampleTxIn], txin.scriptSig.count ≤ 0xFFFF),
      (by decide : 1 ≤ 0xFFFF), fun txout ht => ?_⟩
    rw [mem_singleton.mp ht]
    simpa [ofList] using hn

theorem sampleHeader_valid : sampleHeader.Valid := by decide

theorem length_blockOf_scriptTx (hn : n ≤ 999931) :
    (blockOf sampleHeader [scriptTx n]).write.length < 2 ^ 31 := by
  have hlen := length_scriptTx_le n
  have hct := length_WriteCompactSize_le 1
  simp only [blockOf, RawBlock.write, writeVector, ofList, length_append, BlockHeader.length_write,
    flatMap_cons, flatMap_nil, length_nil, length_singleton]
  omega

/-- A script of `0x10000` bytes is accepted, and the iterator throws on it. -/
theorem readers_disagree :
    (∀ hash256 : Bytes → Uint256, checkTransaction ((scriptTx 0x10000).toTransaction hash256) = .ok ()) ∧
      (scriptTx 0x10000).Valid ∧ (scriptTx 0x10000).Exact ∧
      TxTokenizer.Fails (scriptTx 0x10000).write ofTx ∧
        ¬ ReadersAgree sampleHeader [scriptTx 0x10000] := by
  obtain ⟨hval, hex⟩ := scriptTx_old (show 0x10000 < 2 ^ 32 by decide)
  have hlong : ¬ (scriptTx 0x10000).Short := fun hsh => absurd (scriptTx_short_iff.mp hsh) (by decide)
  have hin : (scriptTx 0x10000).vin.items ≠ [] := cons_ne_nil _ _
  have hout : (scriptTx 0x10000).vout.items ≠ [] := cons_ne_nil _ _
  have hfls : TxTokenizer.Fails (scriptTx 0x10000).write ofTx := by
    have hstep := TxTokenizer.Reads.step (next_ofTx hin) (by simp [atVersion]) (.refl _)
    exact hstep.fails (fails_tx hval hin hout hlong (append_nil _).symm)
  refine ⟨fun hash256 => scriptTx_accepted hash256 (by decide), hval, hex, hfls, ?_⟩
  rintro ⟨hyl, -⟩
  exact hlong ((yields_iff hval hin hout).mp (hyl _ (mem_singleton_self _)))

theorem readersAgree_scriptTx : ReadersAgree sampleHeader [scriptTx 0xFFFF] := by
  refine (@readersAgree_iff (fun _ => 0) _ _ sampleHeader_valid ?_ ?_
    (length_blockOf_scriptTx (by decide))).mpr ⟨?_, ?_⟩
  · intro tx ht
    rw [mem_singleton.mp ht]
    exact scriptTx_old (by decide)
  · intro tx ht
    rw [mem_singleton.mp ht]
    exact scriptTx_accepted _ (by decide)
  · intro tx ht
    rw [mem_singleton.mp ht]
    exact scriptTx_short_iff.mpr le_rfl
  · exact (by decide : 1 ≤ 0xFFFFFF)

end Validation

end FloweeHub
