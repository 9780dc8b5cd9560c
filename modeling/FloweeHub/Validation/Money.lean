import FloweeHub.Validation.Overflow

/-! Money over whole runs, with books of the subsidies and of every sum that was formed. Between the
blocks the engine may do whatever leaves the unspent outputs alone. No money appears beyond the
subsidies while all sums fit. -/

namespace FloweeHub.Validation

open Lib List Function
open scoped List

namespace Engine

open BlockValidationState

variable (params : Params)

theorem subsidy_range (nHeight : ℤ) :
    0 ≤ GetBlockSubsidy params nHeight ∧ GetBlockSubsidy params nHeight ≤ 50 * COIN := by
  have hcoins : (0 : ℤ) ≤ 50 * COIN := by decide
  unfold GetBlockSubsidy
  dsimp only
  split_ifs
  · exact ⟨le_rfl, hcoins⟩
  · exact ⟨Int.ediv_nonneg hcoins (Int.pow_nonneg (by decide)), Int.ediv_le_self _ hcoins⟩

/-- A block to be checked in full: its transactions passed `checkTransaction`, its bytes are those,
and previous outputs are read as what they are. -/
structure Checks (params : Params) (out : TxInput → TxOut) (s : StateId) (st : BlockValidationState)
    (p : IndexPtr) (split : ChunkSplit) (order : List ℕ) (e : Engine) : Prop where
  fresh : st.Fresh
  noSums : st.sums = []
  running : e.shuttingDown = false
  state : e.states s = some st
  blockIndex : st.blockIndex = some p
  height : (e p).pprev = none ∨ 0 < (e p).nHeight
  covers : split.Covers st.block.vtx.length
  schedule : order ~ range split.chunks
  validation : st.flags.enableValidation = true
  fetchFees : st.fetchFees = true
  walk : st.block.WalkAgrees
  checked : ∀ tx ∈ st.block.vtx, checkTransaction tx = .ok ()
  names : Names out st.block
  reads : ReadsTo out (e.checkEnv params p)
    (spendable (e p).nHeight (st.block.walk.map txOutputs) e.utxo)

/-- The sums of the coinbase check in `processNewBlock`. -/
def lateSums (st : BlockValidationState) (nHeight : ℤ) : List ℤ :=
  if st.status.invalid then []
  else
    match st.block.vtx with
    | [] => []
    | coinbase :: _ => valueOutSums 0 coinbase.vout ++ [st.blockFees + GetBlockSubsidy params nHeight]

/-- All sums that were formed for a block, seen from the entry to `processNewBlock`. -/
def blockSums (s : StateId) (p : IndexPtr) (e : Engine) : List ℤ :=
  match e.states s with
  | none => []
  | some st => st.sums ++ lateSums params st (e p).nHeight

variable {params : Params} {out : TxInput → TxOut} {s : StateId} {st : BlockValidationState}
  {p : IndexPtr} {split : ChunkSplit} {order : List ℕ} {e e' : Engine} {start : ℤ}

namespace Checks

variable (h : Checks params out s st p split order e)

include h

theorem outputs_walk : ∀ t ∈ st.block.walk, t.vout ≠ [] ∧ ∀ o ∈ t.vout, MoneyRange o.nValue := by
  intro t ht
  rw [h.walk.1] at ht
  obtain ⟨t', ht', rfl⟩ := mem_map.mp ht
  obtain ⟨hne, hrg, -⟩ := checkTransaction_outputs (h.checked _ (mem_map_of_mem ht'))
  exact ⟨hne, hrg⟩

/-- None of the records that the block can spend has a negative value. -/
theorem sound (hbase : ∀ u ∈ e.utxo.working, 0 ≤ (out u.outpoint).nValue) :
    Sound out (e.checkEnv params p) (spendable (e p).nHeight (st.block.walk.map txOutputs) e.utxo) := by
  refine ⟨h.reads, forall_mem_append.mpr ⟨hbase, fun u hu => ?_⟩⟩
  obtain ⟨t, ht, hu⟩ := mem_flatMap.mp hu
  obtain ⟨w, hw, rfl⟩ := mem_map.mp ht
  obtain ⟨k, hk, rfl⟩ := mem_map.mp hu
  obtain ⟨hne, hrg⟩ := h.outputs_walk w hw
  have hlen : k < w.vout.length := by
    rw [mem_range, (txOutputs_range w).1, (txOutputs_range w).2.2 hne] at hk
    omega
  have hout : out ⟨w.txid, k⟩ = w.vout[k] := h.names w hw k _ (getElem?_eq_getElem hlen)
  have hkey : UnspentOutput.outpoint ⟨(txOutputs w).txid, (txOutputs w).firstOutput + k,
      (e p).nHeight, (txOutputs w).offsetInBlock⟩ = ⟨w.txid, k⟩ := by
    rw [(txOutputs_range w).1, zero_add]
    rfl
  rw [hkey, hout]
  exact (moneyRange_iff.mp (hrg _ (getElem_mem hlen))).1

theorem scheduled_perm : st.scheduled split order ~ st.block.vtx.zipIdx :=
  BlockValidationState.scheduled_perm h.fresh.toAppend h.covers h.schedule

omit h

theorem coinbaseValue_le {nHeight : ℤ} (h : coinbaseAmountOk params st nHeight = .ok true)
    (hf : st.fetchFees) :
    coinbaseValue st.block ≤ Wrap64.add st.blockFees (GetBlockSubsidy params nHeight) := by
  unfold coinbaseAmountOk at h
  rw [if_pos hf] at h
  unfold coinbaseValue
  split at h
  · cases h
  next coinbase rest hvtx =>
    obtain ⟨v, hv, hle⟩ := Guards.bind_eq_ok_iff.mp h
    obtain ⟨rfl, -⟩ := Transaction.GetValueOut_ok hv
    simpa [hvtx] using hle

variable (h : Checks params out s st p split order e)

include h

theorem checkBlock_genesis (hgen : (e p).pprev = none) : e.checkBlock params s split order = e := by
  rw [checkBlock_eq h.state h.blockIndex, decide_eq_true hgen]
  have hsame : update e.states s (some st) = e.states := by
    rw [← h.state, update_eq_self]
  simp only [BlockValidationState.checkBlock, updateUtxoAndStartValidation, if_true, hsame]

theorem appended_worth (hbase : ∀ u ∈ e.utxo.working, 0 ≤ (out u.outpoint).nValue)
    (hdone : validateBlock params s split order e = .ok e')
    (happ : Appended st p (e.checkBlock params s split order) e') :
    value out e'.utxo.working ≤ value out e.utxo.working + GetBlockSubsidy params (e p).nHeight ∧
      ∀ u ∈ e'.utxo.working, 0 ≤ (out u.outpoint).nValue := by
  have hsub := (subsidy_range params (e p).nHeight).1
  by_cases hgen : (e p).pprev = none
  · have hsame : e'.utxo.working = e.utxo.working := by rw [happ.2, h.checkBlock_genesis hgen]; rfl
    rw [hsame]
    exact ⟨by omega, hbase⟩
  · obtain ⟨outs, res, hrl⟩ :=
      (validateBlock_appended_iff h.fresh h.running h.state h.blockIndex hgen hdone).mp happ
    rw [hrl.working h.fresh h.state h.blockIndex hgen happ]
    obtain rfl := blockOutputs_ok hrl.walked
    have hsnd := h.sound hbase
    obtain ⟨-, hsub'⟩ := subset_of_resolve (resolveTxs_iff.mp hrl.passes.1).1
    refine ⟨?_, (hsnd.subset hsub').nonneg⟩
    have hbalance :=
      block_balance h.walk h.names (fun tx htx => (checkTransaction_outputs (h.checked tx htx)).1)
      h.scheduled_perm hrl.passes.1
    have hfees := hrl.passes.fees_sum hsnd h.validation
    have hchg := sum_nonneg (hrl.passes.charged_nonneg hsnd h.validation)
    have hlost := sum_nonneg (hrl.passes.lost_nonneg hsnd)
    have hlate := hrl.late
    have hcb := coinbaseValue_le (hlate.resolve_left (h.height.resolve_left hgen).ne').2 h.fetchFees
    dsimp only at hcb
    rw [Wrap64.add, Wrap64.wrap_add_wrap_left, hfees] at hcb
    have hwrap :=
      Wrap64.wrap_le_self (x := (res.map (charged out)).sum + GetBlockSubsidy params (e p).nHeight)
    unfold spendable
    omega

/-- A refused block leaves the map as it was, if it is settled cleanly. -/
theorem refused_working (hacc : e.utxo.Accounted)
    (hset : e.utxo.working ~ e.utxo.committed) (hdone : validateBlock params s split order e = .ok e')
    (hno : ¬ Appended st p (e.checkBlock params s split order) e')
    (hstay : ∀ q, e.blockchain = some q → e'.onHeaderChain q)
    (hcl : SettlesCleanly params s p (e.checkBlock params s split order)) :
    e'.utxo.Accounted ∧ e'.utxo.working ~ e'.utxo.committed ∧ e'.utxo.working ~ e.utxo.working := by
  have heq := @checkBlock_eq params s st p e h.state h.blockIndex split order
  set r := st.checkBlock (e.checkEnv params p) (e p).nHeight ((e p).pprev = none) split order e.utxo
  have hsame : SameBlock st r.2 := sameBlock_checkBlock ..
  have hacc' : r.1.Accounted := checkBlock_accounted _ _ st _ split order hacc
  have hcom : r.1.committed = e.utxo.committed :=
    (checkBlock_preserves (Q := fun db => db.committed = e.utxo.committed) _ _ (fun _ _ hdb => hdb)
      (fun db i hdb => by rw [UnspentOutputDatabase.remove_frame]; exact hdb) _ split order rfl).1
  unfold validateBlock at hdone
  rw [heq] at hdone hno hcl
  set e1 : Engine := { e with utxo := r.1, states := update e.states s (some r.2) }
  have hs1 : e1.states s = some r.2 := update_self ..
  obtain ⟨r', hr', validating, children, states, flags, rfl⟩ :=
    @processNewBlock_eq params s r.2 p e1 e' h.running hs1
    (hsame.blockIndex.trans h.blockIndex) (hsame.checkValidityOnly.trans h.fresh.toAppend) hdone
  rcases settleBlock_cases hr' with ⟨-, -, hidle, -, hback⟩ | ⟨-, -, -, happ, -⟩ | ⟨hval, hnot, -, hkept⟩
  · have hwk : r'.1.utxo.working = e.utxo.committed := (hback hstay).trans hcom
    refine ⟨hidle.accounted, hidle.1 ▸ .refl _, ?_⟩
    rw [hwk]
    exact hset.symm
  · unfold Appended at happ hno
    rw [hsame.blockId] at happ
    exact absurd happ hno
  · obtain ⟨st', hst', hcase⟩ := hcl
    cases hs1.symm.trans hst'
    rcases hcase with hinv | happ | hcancel
    · simp [hval] at hinv
    · exact absurd happ hnot
    · have hwk : r.1.working ~ r.1.committed := (working_perm_committed_iff hacc').mpr hcancel
      rw [show Engine.utxo _ = r'.1.utxo from rfl, hkept]
      refine ⟨hacc', hwk, hwk.trans ?_⟩
      rw [hcom]
      exact hset.symm

theorem fits_lateSums {st' : BlockValidationState} (hblk : st'.block = st.block)
    (hfees : st'.status.invalid = false → 0 ≤ st'.blockFees ∧ st'.blockFees ≤ 2 * MAX_MONEY)
    (nHeight : ℤ) :
    ∀ x ∈ lateSums params st' nHeight, Wrap64.Fits x := by
  unfold lateSums
  split_ifs with hinv
  · simp
  · split
    · simp
    next coinbase rest hvtx =>
      have hmem : coinbase ∈ st.block.vtx := by rw [← hblk, hvtx]; exact mem_cons_self
      obtain ⟨-, hrg, -⟩ := checkTransaction_outputs (h.checked coinbase hmem)
      refine forall_mem_append.mpr ⟨fits_valueOutSums (by decide) hrg, ?_⟩
      have hfees := hfees (by simpa using hinv)
      have hsub := subsidy_range params nHeight
      simp only [MAX_MONEY, COIN] at hfees hsub
      rw [forall_mem_singleton]
      exact ⟨by omega, by omega⟩

/-- A block that is not refused forms small sums only. -/
theorem sums_fit
    (hbase : ∀ u ∈ e.utxo.working, 0 ≤ (out u.outpoint).nValue)
    (hwo : value out e.utxo.working ≤ MAX_MONEY)
    (hfit : ∀ outs, blockOutputs st.flags.hf201811Active st.block = .ok outs →
      (∀ res, ¬ st.Passes (e.checkEnv params p) (e p).nHeight (st.scheduled split order)
        (spendable (e p).nHeight outs e.utxo) res) →
      st.SumsFit out (e.checkEnv params p) (e p).nHeight 0 (st.scheduled split order)
        (spendable (e p).nHeight outs e.utxo)) :
    ∀ x ∈ blockSums params s p (e.checkBlock params s split order), Wrap64.Fits x := by
  by_cases hgen : (e p).pprev = none
  · rw [h.checkBlock_genesis hgen]
    simp only [blockSums, h.state, h.noSums, nil_append]
    exact h.fits_lateSums rfl (fun _ => by rw [h.fresh.fees]; decide) _
  · set H := (e p).nHeight
    set env := e.checkEnv params p
    have hsnd := h.sound hbase
    have hsame := @sameBlock_checkBlock env H st false split order e.utxo
    rw [checkBlock_eq h.state h.blockIndex, decide_eq_false hgen]
    simp only [blockSums, update_self]
    have hout : ∀ tx ∈ st.block.vtx, ∀ o ∈ tx.vout, MoneyRange o.nValue := fun tx htx =>
      (checkTransaction_outputs (h.checked tx htx)).2.1
    cases hwalk : blockOutputs st.flags.hf201811Active st.block with
    | error t =>
      rw [checkBlock_of_error hwalk]
      simp [h.noSums, lateSums]
    | ok outs =>
      obtain rfl := blockOutputs_ok hwalk
      have hsm : ∀ res, st.Passes env H (st.scheduled split order)
          (spendable H (st.block.walk.map txOutputs) e.utxo) res →
          (∀ r ∈ res, value out r.spent < 2 ^ 63) ∧ (res.map (charged out)).sum ≤ 2 * MAX_MONEY :=
            fun res hpass =>
        passes_small h.validation h.walk h.names h.checked h.scheduled_perm hwo hsnd hpass
      have hsums : st.SumsFit out env H 0 (st.scheduled split order)
          (spendable H (st.block.walk.map txOutputs) e.utxo) := by
        by_cases hpass : ∃ res, st.Passes env H (st.scheduled split order)
            (spendable H (st.block.walk.map txOutputs) e.utxo) res
        · obtain ⟨res, hpass⟩ := hpass
          obtain ⟨hin, hfees⟩ := hsm res hpass
          have hmax : 2 * MAX_MONEY < 2 ^ 63 := by decide
          exact sumsFit_of_passes h.validation hsnd hpass hin (by omega)
        · exact hfit _ hwalk (not_exists.mp hpass)
      obtain ⟨hall, hfees⟩ := checkBlock_fits h.fresh h.validation h.noSums split order hwalk hout
        hsnd hsums
      refine forall_mem_append.mpr ⟨hall, h.fits_lateSums hsame.block (fun hval => ⟨hfees, ?_⟩) _⟩
      rcases checkBlock_cases h.fresh env H split order e.utxo with ⟨outputs', res, hwalk', hpass,
        hps⟩ | ⟨-, hbad⟩
      · cases hwalk.symm.trans hwalk'
        have hchg := sum_nonneg (hpass.charged_nonneg hsnd h.validation)
        rw [hps.fees, h.fresh.fees, zero_add, hpass.fees_sum hsnd h.validation]
        exact (Wrap64.wrap_le_self hchg).trans (hsm res hpass).2
      · simp [hbad] at hval

omit h

end Checks

/-- The engine with the subsidies so far and the sums that were formed. -/
structure Ledger where
  engine : Engine
  granted : ℤ
  sums : List ℤ

/-- A step between blocks, or a block. -/
inductive Action
  | other
  | block (s : StateId) (split : ChunkSplit) (order : List ℕ)

variable {l l' : Ledger} {a : Action}

/-- One step of a run; a refused block leaves the tip on the header chain. -/
inductive Step (params : Params) (out : TxInput → TxOut) : Ledger → Action → Ledger → Prop
  | other {l : Ledger} {e' : Engine} (h : e'.utxo = l.engine.utxo) :
    Step params out l .other { l with engine := e' }
  | appended {l : Ledger} {s : StateId} {st : BlockValidationState} {p : IndexPtr} {split : ChunkSplit}
      {order : List ℕ} {e' : Engine} (h : Checks params out s st p split order l.engine)
      (hdone : validateBlock params s split order l.engine = .ok e')
      (happ : Appended st p (l.engine.checkBlock params s split order) e') :
      Step params out l (.block s split order)
        ⟨e', l.granted + GetBlockSubsidy params (l.engine p).nHeight,
          l.sums ++ blockSums params s p (l.engine.checkBlock params s split order)⟩
  | refused {l : Ledger} {s : StateId} {st : BlockValidationState} {p : IndexPtr} {split : ChunkSplit}
      {order : List ℕ} {e' : Engine} (h : Checks params out s st p split order l.engine)
      (hdone : validateBlock params s split order l.engine = .ok e')
      (hno : ¬ Appended st p (l.engine.checkBlock params s split order) e')
      (hstay : ∀ q, l.engine.blockchain = some q → e'.onHeaderChain q = true) :
      Step params out l (.block s split order)
        ⟨e', l.granted, l.sums ++ blockSums params s p (l.engine.checkBlock params s split order)⟩

/-- The block will be settled cleanly, and if it does not pass, its sums stay below `2^63`. -/
def Bounded (params : Params) (out : TxInput → TxOut) (l : Ledger) : Action → Prop
  | .other => True
  | .block s split order => ∀ st p, l.engine.states s = some st → st.blockIndex = some p →
      SettlesCleanly params s p (l.engine.checkBlock params s split order) ∧
        ∀ outputs, blockOutputs st.flags.hf201811Active st.block = .ok outputs →
          (∀ res, ¬ st.Passes (l.engine.checkEnv params p) (l.engine p).nHeight
            (st.scheduled split order) (spendable (l.engine p).nHeight outputs l.engine.utxo) res) →
          st.SumsFit out (l.engine.checkEnv params p) (l.engine p).nHeight 0 (st.scheduled split order)
            (spendable (l.engine p).nHeight outputs l.engine.utxo)

/-- What holds all along when the unspent outputs were worth `start` at the beginning. -/
structure Solvent (out : TxInput → TxOut) (start : ℤ) (l : Ledger) : Prop where
  accounted : l.engine.utxo.Accounted
  settled : l.engine.utxo.working ~ l.engine.utxo.committed
  nonneg : ∀ u ∈ l.engine.utxo.working, 0 ≤ (out u.outpoint).nValue
  worth : value out l.engine.utxo.working ≤ start + l.granted
  sums : ∀ x ∈ l.sums, Wrap64.Fits x

theorem Step.granted_le (h : Step params out l a l') : l.granted ≤ l'.granted := by
  cases h with
  | other _ => exact le_rfl
  | appended _ _ _ => exact le_add_of_nonneg_right (subsidy_range ..).1
  | refused _ _ _ _ => exact le_rfl

theorem Step.solvent (h : Step params out l a l') (hb : Bounded params out l a)
    (hl : Solvent out start l) (hmax : start + l'.granted ≤ MAX_MONEY) : Solvent out start l' := by
  have hgranted := h.granted_le
  have hwo : value out l.engine.utxo.working ≤ MAX_MONEY := by
    have := hl.worth
    omega
  cases h with
  | other h =>
    obtain ⟨hacc, hset, hpos, hle, hsums⟩ := hl
    rw [← h] at hacc hset hpos hle
    exact ⟨hacc, hset, hpos, hle, hsums⟩
  | @appended _ _ _ _ _ e' h hdone happ =>
    obtain ⟨-, hfit⟩ := hb _ _ h.state h.blockIndex
    obtain ⟨hle, hpos⟩ := h.appended_worth hl.nonneg hdone happ
    have hidle : e'.utxo.Idle := happ.2 ▸ UnspentOutputDatabase.idle_blockFinished ..
    refine ⟨hidle.accounted, hidle.1 ▸ .refl _, hpos, ?_, ?_⟩
    · have := hl.worth
      dsimp only
      omega
    · exact forall_mem_append.mpr ⟨hl.sums, h.sums_fit hl.nonneg hwo hfit⟩
  | refused h hdone hno hstay =>
    obtain ⟨hcl, hfit⟩ := hb _ _ h.state h.blockIndex
    obtain ⟨hacc, hset, hsame⟩ := h.refused_working hl.accounted hl.settled hdone hno hstay hcl
    refine ⟨hacc, hset, fun u hu => hl.nonneg u (hsame.mem_iff.mp hu), ?_, ?_⟩
    · rw [value_perm hsame]
      exact hl.worth
    · exact forall_mem_append.mpr ⟨hl.sums, h.sums_fit hl.nonneg hwo hfit⟩

/-- No step creates more than the subsidies. -/
theorem solvent_of_run (hrun : Relation.ReflTransGen (fun l l' => ∃ a, Step params out l a l' ∧
    Bounded params out l a) l l')
    (hl : Solvent out start l) (hmax : start + l'.granted ≤ MAX_MONEY) : Solvent out start l' := by
  induction hrun with
  | refl => exact hl
  | tail _ hstep ih =>
    obtain ⟨a, hstep, hb⟩ := hstep
    have := hstep.granted_le
    exact hstep.solvent hb (ih (by omega)) hmax

/-- In a run of blocks that are settled cleanly and form no sums of `2^63`, the unspent outputs are
worth at most what they were and the subsidies, and no sum overflows. -/
theorem money_conserved {start : Engine} {l : Ledger}
    (hrun : Relation.ReflTransGen (fun l l' => ∃ a, Step params out l a l' ∧ Bounded params out l a)
      ⟨start, 0, []⟩ l)
    (hidle : start.utxo.Idle) (hpos : ∀ u ∈ start.utxo.working, 0 ≤ (out u.outpoint).nValue)
    (hmax : value out start.utxo.working + l.granted ≤ MAX_MONEY) :
    value out l.engine.utxo.working ≤ value out start.utxo.working + l.granted ∧
      (∀ x ∈ l.sums, Wrap64.Fits x) ∧
        ∀ tx : Transaction, ∀ x ∈ checkOutputsSums 0 tx.vout, Wrap64.Fits x := by
  have hst : Solvent out (value out start.utxo.working) ⟨start, 0, []⟩ :=
    ⟨hidle.accounted, hidle.1 ▸ .refl _, hpos, by simp, by simp⟩
  have hend := solvent_of_run hrun hst hmax
  exact ⟨hend.worth, hend.sums, fun _ => fits_checkOutputsSums (by decide)⟩

/-- The sample block takes the subsidy and has no other transaction. -/
def sampleBlock : BlockValidationState := sampleState [sampleCoinbase (50 * COIN)]

/-- The sample engine while another branch is on the header chain. -/
def sampleAside : Engine :=
  { sampleEngine [] sampleBlock with db := { (sampleEngine [] sampleBlock).db
    with headersChain := some 2 } }

/-- The sample engine with the output of the dropped block in the working map. -/
def sampleBack : Engine :=
  { sampleEngine [] sampleBlock with
    utxo := { sampleUtxo [] with working := [⟨3, 0, 1, 81⟩], pending := [⟨2, .insert ⟨3, 0, 1, 81⟩⟩] } }

def sampleOut (_ : TxInput) : TxOut := ⟨50 * COIN, []⟩

theorem sampleBlock_checks (hrun : e.shuttingDown = false) (hs : e.states 0 = some sampleBlock)
    (hht : 0 < (e 1).nHeight) (hrd : ReadsTo sampleOut (e.checkEnv sampleParams 1)
      (spendable (e 1).nHeight (sampleBlock.block.walk.map txOutputs) e.utxo)) :
    Checks sampleParams sampleOut 0 sampleBlock 1 ⟨1, 1⟩ [0] e where
  fresh := ⟨rfl, rfl, rfl, rfl⟩
  noSums := rfl
  running := hrun
  state := hs
  blockIndex := rfl
  height := .inr hht
  covers := by decide
  schedule := by decide
  validation := rfl
  fetchFees := rfl
  walk := by decide
  checked := by decide
  names := by decide
  reads := hrd

/-- A block is dropped and checked again later: its coinbase is then there twice. -/
theorem money_not_conserved :
    ∃ l : Ledger,
      Relation.ReflTransGen (fun l l' => ∃ a, Step sampleParams sampleOut l a l') ⟨sampleAside,
        0, []⟩ l ∧
        sampleAside.utxo.Idle ∧ value sampleOut sampleAside.utxo.working = 0 ∧ l.granted = 50 * COIN ∧
        value sampleOut l.engine.utxo.working = 100 * COIN := by
  obtain ⟨e1, h1, hno, hstay, hutxo⟩ : ∃ e1, validateBlock sampleParams 0 ⟨1,
    1⟩ [0] sampleAside = .ok e1 ∧
      e1.blockchain ≠ some 1 ∧ e1.onHeaderChain 0 = true ∧ e1.utxo = sampleBack.utxo :=
    ⟨_, rfl, by decide, by decide, by decide⟩
  obtain ⟨e2, h2, happ, hwk⟩ : ∃ e2, validateBlock sampleParams 0 ⟨1, 1⟩ [0] sampleBack = .ok e2 ∧
      Appended sampleBlock 1 (sampleBack.checkBlock sampleParams 0 ⟨1, 1⟩ [0]) e2 ∧
      e2.utxo.working = [⟨3, 0, 1, 81⟩, ⟨3, 0, 1, 81⟩] :=
    ⟨_, rfl, ⟨by decide, by decide⟩, by decide⟩
  have href : Step sampleParams sampleOut ⟨sampleAside, 0, []⟩ (.block 0 ⟨1, 1⟩ [0]) _ :=
    .refused (sampleBlock_checks rfl rfl (by decide) (by decide)) h1 (fun h => hno h.1)
      (fun q hq => by cases hq; exact hstay)
  have hback : Checks sampleParams sampleOut 0 sampleBlock 1 ⟨1, 1⟩ [0] sampleBack :=
    sampleBlock_checks rfl rfl (by decide) (by decide)
  have hsub : GetBlockSubsidy sampleParams (sampleBack.index 1).nHeight = 50 * COIN := by decide
  refine ⟨_, .tail (.tail (.single ⟨_, href⟩) ⟨_, .other hutxo.symm⟩) ⟨_, .appended hback h2 happ⟩,
    by decide, rfl, (zero_add _).trans hsub, ?_⟩
  simp only [hwk]
  decide

theorem sampleSpending_checks :
    Checks sampleParams sampleOut 0 sampleSpending 1 ⟨2, 1⟩ [1, 0] beforeSpending where
  fresh := ⟨rfl, rfl, rfl, rfl⟩
  noSums := rfl
  running := rfl
  state := rfl
  blockIndex := rfl
  height := .inr (by decide)
  covers := by decide
  schedule := by decide
  validation := rfl
  fetchFees := rfl
  walk := by decide
  checked := by decide
  names := by decide
  reads := by decide

/-- The coinbase is spent in the block itself: the unspent outputs are then worth the subsidy. -/
theorem money_conserved_sample :
    ∃ l : Ledger, l.granted = 50 * COIN ∧ (∀ x ∈ l.sums, Wrap64.Fits x) ∧
      l.engine.utxo.working = [⟨4, 0, 1, 181⟩] ∧
      value sampleOut l.engine.utxo.working ≤ 50 * COIN := by
  obtain ⟨e', h', happ, hwk⟩ :
      ∃ e', validateBlock sampleParams 0 ⟨2, 1⟩ [1, 0] beforeSpending = .ok e' ∧
        Appended sampleSpending 1 (beforeSpending.checkBlock sampleParams 0 ⟨2, 1⟩ [1, 0]) e' ∧
        e'.utxo.working = [⟨4, 0, 1, 181⟩] :=
    ⟨_, rfl, ⟨by decide, by decide⟩, by decide⟩
  have hstep : Step sampleParams sampleOut ⟨beforeSpending, 0, []⟩ (.block 0 ⟨2, 1⟩ [1, 0]) _ :=
    .appended sampleSpending_checks h' happ
  have hbounded : Bounded sampleParams sampleOut ⟨beforeSpending, 0, []⟩ (.block 0 ⟨2, 1⟩ [1, 0]) := by
    rintro st p hs hp
    cases hs
    cases hp
    refine ⟨⟨_, rfl, .inr (.inl ⟨by decide, by decide, by decide, .inr ⟨by decide, rfl⟩⟩)⟩,
      fun outs hout hno => ?_⟩
    cases hout
    exact absurd ⟨rfl, by decide⟩
      (hno [⟨sampleSpend.tx, 1, [⟨3, 0, 1, 81⟩]⟩, ⟨(sampleCoinbase (50 * COIN)).tx, 0, []⟩])
  have hsub : GetBlockSubsidy sampleParams (beforeSpending.index 1).nHeight = 50 * COIN := by decide
  have hgranted := (zero_add _).trans hsub
  obtain ⟨hwo, hsums, -⟩ := money_conserved (.single ⟨_, hstep, hbounded⟩) (by decide) (by decide)
    (le_of_eq_of_le (congrArg (0 + ·) hgranted) (by decide))
  exact ⟨_, hgranted, hsums, hwk, hwo.trans_eq (congrArg (0 + ·) hgranted)⟩

end Engine

end FloweeHub.Validation
