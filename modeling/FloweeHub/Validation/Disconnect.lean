import FloweeHub.Validation.BlockRules

/-! Taking a block off the chain again. The undo items are written, read back and replayed: the
spent records are inserted again, then the outputs are removed. Proved is when that brings back the
outputs of before. The mempool is left out. -/

namespace FloweeHub.Validation

open Lib UnspentOutput KeyedBag List UnspentOutputDatabase Function
open scoped List

theorem filterMap_set_perm {α : Type*} {slots : List (Option α)} {k : ℕ} (h : slots[k]? = some none)
    (a : α) :
    (slots.set k (some a)).filterMap id ~ a :: slots.filterMap id := by
  induction slots generalizing k with
  | nil => simp at h
  | cons o slots ih =>
    cases k with
    | zero =>
      obtain rfl : o = none := by simpa using h
      simp
    | succ k =>
      have h' : slots[k]? = some none := by simpa using h
      cases o with
      | none => simpa using ih h'
      | some b => simpa using ((ih h').cons b).trans (.swap a b _)

namespace BlockValidationState

variable {env : CheckEnv} {st : BlockValidationState} {H : ℤ}

/-- All undo items of the chunks, in the order in which they are written. -/
def allUndoItems (st : BlockValidationState) : List UndoItem := (st.undoItems.filterMap id).flatten

/-- Chunks that pass have collected the undo items of their transactions. -/
theorem checkChunks_undoItems (hv : st.checkValidityOnly = false) (hinv : st.status.invalid = false)
    {split : ChunkSplit} {order : List ℕ} (hord : order.Nodup)
    (hsls : ∀ k ∈ order, st.undoItems[k]? = some none) {utxo : UnspentOutputDatabase}
    {res : List ResolvedTx} (h : st.Passes env H (order.flatMap (st.chunkTxs split)) utxo.working res) :
    (checkChunks env H split order (utxo, st)).2.allUndoItems ~
      st.allUndoItems ++ res.flatMap undoItemsOf := by
  induction order generalizing st utxo res with
  | nil =>
    obtain rfl : res = [] := resolveTxs_nil_eq_some.mp h.1
    simp [checkChunks]
  | cons k order ih =>
    obtain ⟨hk, hord⟩ := nodup_cons.mp hord
    obtain ⟨vs, ws, hvs, hws, rfl⟩ := passes_append.mp h
    rcases checkSignaturesChunk_cases hv hinv split k utxo with ⟨vs', hvs', hps, hundo⟩ | ⟨hno, -⟩
    · obtain rfl : vs' = vs := Option.some.inj (hvs'.1.symm.trans hvs.1)
      set r := st.checkSignaturesChunk env H split k utxo
      have hsls' : ∀ l ∈ order, r.2.undoItems[l]? = some none := fun l hl => by
        rw [hundo, getElem?_set_ne (show k ≠ l from fun heq => hk (heq ▸ hl))]
        exact hsls l (mem_cons_of_mem _ hl)
      have hws' : r.2.Passes env H (order.flatMap (r.2.chunkTxs split)) r.1.working ws := by
        rw [Passes.of_sameBlock hps.same, funext (hps.same.chunkTxs split), hps.working hvs]
        exact hws
      have hfill : r.2.allUndoItems ~ vs'.flatMap undoItemsOf ++ st.allUndoItems := by
        unfold allUndoItems
        rw [hundo]
        exact (filterMap_set_perm (hsls k mem_cons_self) _).flatten
      calc (checkChunks env H split order r).2.allUndoItems
          ~ r.2.allUndoItems ++ ws.flatMap undoItemsOf :=
            ih (hps.same.checkValidityOnly.trans hv) hps.valid hord hsls' hws'
        _ ~ vs'.flatMap undoItemsOf ++ st.allUndoItems ++ ws.flatMap undoItemsOf := hfill.append_right _
        _ ~ st.allUndoItems ++ vs'.flatMap undoItemsOf ++ ws.flatMap undoItemsOf :=
          perm_append_comm.append_right _
        _ = st.allUndoItems ++ (vs' ++ ws).flatMap undoItemsOf := by
            rw [flatMap_append, append_assoc]
    · exact absurd hvs (hno vs)

end BlockValidationState

def recordOf (i : UndoItem) : UnspentOutput :=
  ⟨i.prevTxId, i.outputIndex, i.blockHeight, i.offsetInBlock⟩

def outpointOf (i : UndoItem) : TxInput := ⟨i.prevTxId, i.outputIndex⟩

def spentRecords (items : List UndoItem) : List UnspentOutput :=
  (items.filter fun i => !i.isInsert).map recordOf

def insertedOutpoints (items : List UndoItem) : List TxInput :=
  (items.filter UndoItem.isInsert).map outpointOf

namespace Engine

variable {owner : Uint256} {items : List UndoItem} {db : UnspentOutputDatabase}
  {res : List ResolvedTx} {r : ResolvedTx}

theorem undoSpent_working : (undoSpent owner items db).working = db.working ++ spentRecords items := by
  unfold undoSpent spentRecords
  generalize items.filter (fun i => !i.isInsert) = l
  induction l generalizing db with
  | nil => simp
  | cons i l ih =>
    rw [foldl_cons, ih]
    simp [UnspentOutputDatabase.insert, UnspentOutputDatabase.addRecords, recordOf]

theorem undoInserted_working :
    (undoInserted owner items db).2.working =
      (takeAll outpoint (insertedOutpoints items) db.working).2 := by
  unfold undoInserted insertedOutpoints
  generalize items.filter UndoItem.isInsert = l
  generalize true = ok
  induction l generalizing db ok with
  | nil => rfl
  | cons i l ih =>
    refine (ih _).trans ?_
    rw [working_remove]
    rfl

theorem remove_isValid {i : TxInput} (hpos : ∀ u ∈ db.working, u.outpoint = i → 0 < u.blockHeight) :
    (db.remove owner i).1.isValid = (lookup outpoint i db.working).isSome := by
  cases hf : db.find i with
  | none =>
    rw [remove_of_find_none hf, show lookup _ i _ = none from hf]
    rfl
  | some u =>
    have hh : 0 < u.blockHeight := hpos u (mem_of_lookup hf) (key_of_lookup hf)
    rw [remove_of_find hf, show lookup _ i _ = some u from hf]
    simp [SpentOutput.isValid, hh]

theorem foldl_undoInsert_clean (l : List UndoItem) (ok : Bool)
    (hpos : ∀ u ∈ db.working, u.outpoint ∈ l.map outpointOf → 0 < u.blockHeight) :
    (l.foldl (undoInsert owner) (ok, db)).1 =
      (ok && (takeAll outpoint (l.map outpointOf) db.working).1) := by
  induction l generalizing db ok with
  | nil => simp [takeAll]
  | cons i l ih =>
    have hhead : (db.remove owner (outpointOf i)).1.isValid =
        (lookup outpoint (outpointOf i) db.working).isSome :=
      remove_isValid fun u hu hkey => hpos u hu (hkey ▸ mem_cons_self)
    have hrest : ∀ u ∈ (db.remove owner (outpointOf i)).2.working, u.outpoint ∈ l.map outpointOf →
        0 < u.blockHeight := fun u hu hmem => by
      rw [working_remove] at hu
      exact hpos u (discard_sublist.subset hu) (mem_cons_of_mem _ hmem)
    refine (ih _ hrest).trans ?_
    rw [working_remove, map_cons, takeAll, ← hhead, Bool.and_assoc]
    rfl

/-- All is clean exactly when every outpoint was found, for records of valid height. -/
theorem undoInserted_clean (hpos : ∀ u ∈ db.working, u.outpoint ∈ insertedOutpoints items →
    0 < u.blockHeight) :
    (undoInserted owner items db).1 = (takeAll outpoint (insertedOutpoints items) db.working).1 :=
  foldl_undoInsert_clean _ true hpos

open BlockValidationState

theorem filter_undoItemsOf (hpos : ∀ u ∈ r.spent, 0 < u.blockHeight) :
    (undoItemsOf r).filter (fun i => !i.isInsert) = r.spent.map undoItem ∧
      (undoItemsOf r).filter UndoItem.isInsert = outputItems r.tx := by
  have hspt : ∀ i ∈ r.spent.map undoItem, i.isInsert = false := fun i hi => by
    obtain ⟨u, hu, rfl⟩ := mem_map.mp hi
    have hne : u.blockHeight ≠ -1 := by have := hpos u hu; omega
    simp [UndoItem.isInsert, undoItem, hne]
  have hmade : ∀ i ∈ outputItems r.tx, i.isInsert := fun i hi => by
    obtain ⟨k, -, rfl⟩ := mem_map.mp hi
    rfl
  unfold undoItemsOf
  rw [filter_append, filter_append]
  constructor
  · rw [filter_eq_self.mpr fun i hi => by simp [hspt i hi],
      filter_eq_nil_iff.mpr fun i hi => by simp [hmade i hi], append_nil]
  · rw [filter_eq_nil_iff.mpr fun i hi => by simp [hspt i hi], filter_eq_self.mpr hmade, nil_append]

theorem spentRecords_undoItemsOf (hpos : ∀ r ∈ res, ∀ u ∈ r.spent, 0 < u.blockHeight) :
    spentRecords (res.flatMap undoItemsOf) = res.flatMap ResolvedTx.spent := by
  induction res with
  | nil => rfl
  | cons r res ih =>
    obtain ⟨hr, hres⟩ := forall_mem_cons.mp hpos
    rw [flatMap_cons, flatMap_cons, ← ih hres, spentRecords, filter_append, map_append,
      (filter_undoItemsOf hr).1, map_map, show recordOf ∘ undoItem = id from rfl, map_id]
    rfl

def txOutpoints (tx : Transaction) : List TxInput := (range tx.vout.length).map fun i : ℕ => ⟨tx.hash, i⟩

theorem insertedOutpoints_undoItemsOf (hpos : ∀ r ∈ res, ∀ u ∈ r.spent, 0 < u.blockHeight) :
    insertedOutpoints (res.flatMap undoItemsOf) = (res.map ResolvedTx.tx).flatMap txOutpoints := by
  induction res with
  | nil => rfl
  | cons r res ih =>
    obtain ⟨hr, hres⟩ := forall_mem_cons.mp hpos
    rw [flatMap_cons, map_cons, flatMap_cons, ← ih hres, insertedOutpoints, filter_append,
      map_append, (filter_undoItemsOf hr).2, outputItems, map_map]
    rfl

/-- What fits into an undo item: a transaction id that is not null, and `int` values. -/
structure Representable (u : UnspentOutput) : Prop where
  txid : u.prevTxId ≠ 0
  index : -2 ^ 31 ≤ u.outIndex ∧ u.outIndex < 2 ^ 31
  height : -2 ^ 31 ≤ u.blockHeight ∧ u.blockHeight < 2 ^ 31
  offset : -2 ^ 31 ≤ u.offsetInBlock ∧ u.offsetInBlock < 2 ^ 31

theorem wellFormed_undoItemsOf (hpos : ∀ u ∈ r.spent, 0 < u.blockHeight)
    (hspt : ∀ u ∈ r.spent, Representable u) (hhash : r.tx.hash ≠ 0) (hvout : r.tx.vout.length ≤ 2 ^ 31) :
    ∀ i ∈ undoItemsOf r, i.WellFormed := by
  intro i hi
  rcases mem_append.mp hi with hi | hi
  · obtain ⟨u, hu, rfl⟩ := mem_map.mp hi
    have hr := hspt u hu
    have hp := hpos u hu
    exact ⟨hr.txid, hr.index, hr.height, hr.offset, fun hneg => by simp [undoItem] at hneg; omega⟩
  · obtain ⟨k, hk, rfl⟩ := mem_map.mp hi
    rw [mem_range] at hk
    refine ⟨hhash, ⟨?_, ?_⟩, by simp [UndoItem.inserted], by simp [UndoItem.inserted], fun _ => rfl⟩
    · dsimp only [UndoItem.inserted]; omega
    · dsimp only [UndoItem.inserted]; omega

variable {ps : Params} {s : StateId} {st : BlockValidationState} {p : IndexPtr} {e : Engine}
  {split : ChunkSplit} {order : List ℕ} {outs : List TxOutputs}

def walkedOutpoints (b : FastBlock) : List TxInput :=
  (BlockData.records ⟨0, b.walk.map txOutputs⟩).map outpoint

def countedOutpoints (b : FastBlock) : List TxInput := b.vtx.flatMap txOutpoints

/-- The numbers fit into undo items, and the outputs of the block are new. -/
structure Undoable (st : BlockValidationState) (p : IndexPtr) (e : Engine) : Prop where
  height : 0 < (e p).nHeight ∧ (e p).nHeight < 2 ^ 31
  base : ∀ u ∈ e.utxo.working, Representable u
  walked : ∀ t ∈ st.block.walk, t.txid ≠ 0 ∧ t.vout.length ≤ 2 ^ 31 ∧ -2 ^ 31 ≤ t.offsetInBlock ∧
    t.offsetInBlock < 2 ^ 31
  counted : ∀ tx ∈ st.block.vtx, tx.hash ≠ 0 ∧ tx.vout.length ≤ 2 ^ 31
  fresh : ∀ u ∈ e.utxo.working, u.outpoint ∉ countedOutpoints st.block

/-- Disconnecting the block is clean and gives back the records that were there before. -/
def DisconnectsTo (p : IndexPtr) (e e' : Engine) : Prop :=
  ∃ e'', e'.disconnectTip p = .ok (true, e'') ∧ e''.utxo.working ~ e.utxo.working ∧
    e''.utxo.committed ~ e.utxo.working

theorem disconnectTip_eq {data : Bytes} {q : IndexPtr} (hhave : (e p).haveUndo)
    (hdata : e.undoBlocks p = some data) (hne : data ≠ []) (hq : (e p).pprev = some q) :
    e.disconnectTip p =
      let items := FastUndoBlock.items data
      let r := undoInserted (e p).phashBlock items (undoSpent (e p).phashBlock items e.utxo)
      .ok (r.1, { e with
        utxo := r.2.blockFinished (e p).phashBlock (e q).nHeight (e q).phashBlock
        blockchain := some q }) := by
  simp [disconnectTip, hhave, hdata, hq]

theorem replay_iff {owner : Uint256} {items : List UndoItem} {db : UnspentOutputDatabase}
    {base made : List UnspentOutput} (hall : db.working ++ spentRecords items ~ base ++ made)
    (hbase : ∀ u ∈ base, u.outpoint ∉ insertedOutpoints items) (hmade : ∀ u ∈ made, 0 < u.blockHeight) :
    ((undoInserted owner items (undoSpent owner items db)).1 ∧
        (undoInserted owner items (undoSpent owner items db)).2.working ~ base) ↔
      made.map outpoint ~ insertedOutpoints items := by
  rw [undoInserted_working, undoInserted_clean, undoSpent_working, takeAll_iff _ hall hbase]
  intro u hu hmem
  rw [undoSpent_working] at hu
  rcases mem_append.mp (hall.mem_iff.mp hu) with hu | hu
  · exact absurd hmem (hbase u hu)
  · exact hmade u hu

theorem outpoints_records (H : ℤ) (outs : List TxOutputs) :
    (BlockData.records ⟨H, outs⟩).map outpoint = (BlockData.records ⟨0, outs⟩).map outpoint := by
  simp [BlockData.records, TxOutputs.records, map_flatMap, comp_def, outpoint]

theorem checkBlock_undoItems {env : CheckEnv} {H : ℤ} {utxo : UnspentOutputDatabase} (hst : st.Fresh)
    (hord : order ~ range split.chunks) (hout : blockOutputs st.flags.hf201811Active st.block = .ok outs)
    (hpass : st.Passes env H (st.scheduled split order) (spendable H outs utxo) res) :
    (st.checkBlock env H false split order utxo).2.allUndoItems ~ res.flatMap undoItemsOf := by
  have hstart : SameBlock st (st.startChunks split.chunks) := ⟨rfl, rfl, rfl, rfl, rfl, rfl, rfl⟩
  have hsls : ∀ k ∈ order, (st.startChunks split.chunks).undoItems[k]? = some none := fun k hk => by
    have hlt : k < split.chunks := mem_range.mp (hord.mem_iff.mp hk)
    simp [startChunks, hlt]
  have hemp : (st.startChunks split.chunks).allUndoItems = [] := by
    simp [allUndoItems, startChunks]
  have h : (checkChunks env H split order
      (utxo.insertAll st.blockId ⟨H, outs⟩, st.startChunks split.chunks)).2.allUndoItems ~
        (st.startChunks split.chunks).allUndoItems ++ res.flatMap undoItemsOf := by
    refine @checkChunks_undoItems env (st.startChunks split.chunks) H hst.toAppend hst.valid split order
      (hord.nodup_iff.mpr nodup_range) hsls _ _ ?_
    rw [Passes.of_sameBlock hstart, funext (hstart.chunkTxs split)]
    exact hpass
  rwa [hemp, nil_append, ← checkBlock_of_ok hst.toAppend hout] at h

/-- What the inputs of a block can resolve to fits into undo items. -/
theorem Undoable.spendable (h : Undoable st p e)
    (hout : blockOutputs st.flags.hf201811Active st.block = .ok outs) :
    ∀ u ∈ BlockValidationState.spendable (e p).nHeight outs e.utxo, Representable u := by
  obtain rfl := blockOutputs_ok hout
  refine forall_mem_append.mpr ⟨h.base, fun u hu => ?_⟩
  obtain ⟨t, ht, hu⟩ := mem_flatMap.mp hu
  obtain ⟨w, hw, rfl⟩ := mem_map.mp ht
  obtain ⟨k, hk, rfl⟩ := mem_map.mp hu
  obtain ⟨htxid, hvout, hlo, hhi⟩ := h.walked w hw
  have hht := h.height
  rw [mem_range] at hk
  have hk' : (k : ℤ) < 2 ^ 31 := by
    unfold txOutputs TxOutputs.mk' at hk
    dsimp only at hk
    split_ifs at hk <;> omega
  refine ⟨htxid, ?_, ⟨by dsimp only; omega, hht.2⟩, hlo, hhi⟩
  dsimp only
  rw [(txOutputs_range w).1, zero_add]
  exact ⟨by omega, hk'⟩

/-- What is left of an appended block: its undo data, and the records that nobody has spent. -/
structure LeftBy (st : BlockValidationState) (p : IndexPtr) (e e' : Engine) (outputs : List TxOutputs)
    (res : List ResolvedTx) : Prop where
  haveUndo : (e' p).haveUndo = true
  pprev : (e' p).pprev = (e p).pprev
  undo : ∃ chunks : List (List UndoItem),
    e'.undoBlocks p = some (UndoBlockBuilder.build st.blockId chunks) ∧
    chunks.flatten ~ res.flatMap undoItemsOf
  unspent : spendable (e p).nHeight outputs e.utxo ~ res.flatMap ResolvedTx.spent ++ e'.utxo.working
  spent : ∀ r ∈ res, ∀ u ∈ r.spent, 0 < u.blockHeight
  txs : res.map ResolvedTx.tx ~ st.block.vtx

theorem appended_leftBy {e' : Engine} (hst : st.Fresh) (hrun : e.shuttingDown = false)
    (hs : e.states s = some st) (hp : st.blockIndex = some p) (hpar : (e p).pprev ≠ none)
    (hht : (e p).nHeight ≠ 0) (hcov : split.Covers st.block.vtx.length)
    (hord : order ~ range split.chunks) (h : validateBlock ps s split order e = .ok e')
    (happ : Appended st p (e.checkBlock ps s split order) e') :
    ∃ outs res, blockOutputs st.flags.hf201811Active st.block = .ok outs ∧
      LeftBy st p e e' outs res := by
  obtain ⟨outs, res, hrl⟩ := (validateBlock_appended_iff hst hrun hs hp hpar h).mp happ
  refine ⟨outs, res, hrl.walked, ?_⟩
  have hwk := hrl.working hst hs hp hpar happ
  have heq := @checkBlock_eq ps s st p e hs hp split order
  rw [decide_eq_false hpar] at heq
  set H := (e p).nHeight
  set env := e.checkEnv ps p
  set r := st.checkBlock env H false split order e.utxo with hr
  have hsame : SameBlock st r.2 := sameBlock_checkBlock ..
  rw [validateBlock, heq] at h
  rw [heq] at happ
  set e1 : Engine := { e with utxo := r.1, states := update e.states s (some r.2) }
  obtain ⟨r', hr', validating, children, states, flags, rfl⟩ := @processNewBlock_eq ps s r.2 p e1 e' hrun
    (update_self ..) (hsame.blockIndex.trans hp) (hsame.checkValidityOnly.trans hst.toAppend) h
  have happ' : Appended r.2 p e1 r'.1 := by
    unfold Appended at happ ⊢
    rw [hsame.blockId]
    exact happ
  have hstd : UndoStored r.2 p e1 r'.1 := settleBlock_undoStored hr' happ' hht
  obtain ⟨hrsl, hsp⟩ := resolveTxs_iff.mp hrl.passes.1
  obtain ⟨-, hperm, hpos⟩ := Supply.perm_of_resolve_bag hrsl
  refine ⟨hstd.haveUndo, hstd.pprev, ⟨_, ?_, checkBlock_undoItems hst hord hrl.walked hrl.passes⟩,
    ?_, ?_, ?_⟩
  · rw [← hsame.blockId]
    exact hstd.data
  · rw [hwk]
    exact hperm
  · intro x hx u hu
    simpa using hpos u (mem_flatMap.mpr ⟨x, hx, hu⟩)
  · rw [hsp.map_tx]
    have hall := (scheduled_perm hst.toAppend hcov hord).map Prod.fst
    rwa [zipIdx_map_fst] at hall

/-- Exactly when the iterator met the outpoints of the counted transactions. -/
theorem disconnectTip_inverse_iff {e' : Engine} (hst : st.Fresh) (hrun : e.shuttingDown = false)
    (hs : e.states s = some st) (hp : st.blockIndex = some p) (hparent : (e p).pprev ≠ none)
    (hcovers : split.Covers st.block.vtx.length) (horder : order ~ range split.chunks)
    (hundo : Undoable st p e) (h : validateBlock ps s split order e = .ok e')
    (happ : Appended st p (e.checkBlock ps s split order) e') :
    DisconnectsTo p e e' ↔ walkedOutpoints st.block ~ countedOutpoints st.block := by
  obtain ⟨outs, res, hout, hleft⟩ :=
    appended_leftBy hst hrun hs hp hparent hundo.height.1.ne' hcovers horder h happ
  obtain ⟨chunks, hdata, hits⟩ := hleft.undo
  obtain ⟨q, hq⟩ := Option.ne_none_iff_exists'.mp (hleft.pprev ▸ hparent)
  have hmem : ∀ r ∈ res, r.tx ∈ st.block.vtx := fun r hr =>
    hleft.txs.mem_iff.mp (mem_map.mpr ⟨r, hr, rfl⟩)
  -- the items come back as they were written
  have hwf : ∀ i ∈ chunks.flatten, i.WellFormed := fun i hi => by
    obtain ⟨r, hr, hi⟩ := mem_flatMap.mp (hits.mem_iff.mp hi)
    refine wellFormed_undoItemsOf (hleft.spent r hr) (fun u hu => ?_) (hundo.counted _ (hmem r hr)).1
      (hundo.counted _ (hmem r hr)).2 i hi
    exact hundo.spendable hout u
      (hleft.unspent.mem_iff.mpr (mem_append_left _ (mem_flatMap.mpr ⟨r, hr, hu⟩)))
  have hread : FastUndoBlock.items (UndoBlockBuilder.build st.blockId chunks) = chunks.flatten :=
    FastUndoBlock.items_build _ _ hwf
  have hspt : spentRecords chunks.flatten ~ res.flatMap ResolvedTx.spent := by
    rw [← spentRecords_undoItemsOf hleft.spent]
    exact (hits.filter _).map _
  have hinserted : insertedOutpoints chunks.flatten ~ countedOutpoints st.block := by
    have hperm : insertedOutpoints chunks.flatten ~ insertedOutpoints (res.flatMap undoItemsOf) :=
      (hits.filter _).map _
    rw [insertedOutpoints_undoItemsOf hleft.spent] at hperm
    exact hperm.trans (hleft.txs.flatMap_right _)
  have hreplay := @replay_iff (e' p).phashBlock chunks.flatten e'.utxo e.utxo.working
    (BlockData.records ⟨(e p).nHeight, outs⟩)
    ((hspt.append_left _).trans (perm_append_comm.trans hleft.unspent.symm))
    (fun u hu => by rw [hinserted.mem_iff]; exact hundo.fresh u hu)
    (fun u hu => by
      obtain ⟨t, -, hu⟩ := mem_flatMap.mp hu
      obtain ⟨k, -, rfl⟩ := mem_map.mp hu
      exact hundo.height.1)
  have hwalked : (BlockData.records ⟨(e p).nHeight, outs⟩).map outpoint = walkedOutpoints st.block := by
    rw [outpoints_records, blockOutputs_ok hout, walkedOutpoints]
  rw [hwalked] at hreplay
  unfold DisconnectsTo
  rw [disconnectTip_eq hleft.haveUndo hdata (UndoBlockBuilder.build_ne_nil _ _) hq, hread]
  constructor
  · rintro ⟨e'', heq, hw, -⟩
    obtain ⟨hcl, rfl⟩ := Prod.mk.inj (Except.ok.inj heq)
    exact (hreplay.mp ⟨hcl, hw⟩).trans hinserted
  · intro hsame
    obtain ⟨hcl, hw⟩ := hreplay.mpr (hsame.trans hinserted.symm)
    exact ⟨_, congrArg Except.ok (Prod.ext hcl rfl), hw, hw⟩

/-- A coinbase, and a second transaction that only the iterator meets. -/
def sampleTrailing : BlockValidationState :=
  let st := sampleState [sampleCoinbase (50 * COIN)]
  { st with block := { st.block with walk := st.block.walk ++ [⟨7, 181, 1, [⟨COIN, []⟩]⟩] } }

/-- The record of the trailing transaction stays when the block is disconnected. -/
theorem disconnectTip_not_inverse : Undoable sampleTrailing 1 (sampleEngine [] sampleTrailing) ∧
    ∃ e', validateBlock sampleParams 0 ⟨1, 1⟩ [0] (sampleEngine [] sampleTrailing) = .ok e' ∧
      Appended sampleTrailing 1 ((sampleEngine [] sampleTrailing).checkBlock sampleParams 0 ⟨1, 1⟩
        [0]) e' ∧
      (∃ e'', e'.disconnectTip 1 = .ok (true, e'') ∧ e''.utxo.committed = [⟨7, 0, 1, 181⟩]) ∧
      ¬ DisconnectsTo 1 (sampleEngine [] sampleTrailing) e' := by
  refine ⟨⟨by decide, forall_mem_nil _, by decide, by decide, by decide⟩,
    _, rfl, ⟨by decide, by decide⟩, ⟨_, rfl, by decide⟩, ?_⟩
  rintro ⟨e'', h, hw, -⟩
  cases h
  revert hw
  decide

theorem disconnectTip_inverse_iff_sample :
    ∃ e', validateBlock sampleParams 0 ⟨2, 1⟩ [1, 0] beforeSpending = .ok e' ∧
      (DisconnectsTo 1 beforeSpending e' ↔
        walkedOutpoints sampleSpending.block ~ countedOutpoints sampleSpending.block) := by
  refine ⟨_, rfl, ?_⟩
  exact @disconnectTip_inverse_iff sampleParams 0 _ 1 _ ⟨2, 1⟩ [1, 0] _ ⟨rfl, rfl, rfl, rfl⟩ rfl rfl rfl
    (by decide) (by decide) (by decide)
      ⟨by decide, forall_mem_nil _, by decide, by decide, by decide⟩ rfl
    ⟨by decide, by decide⟩

end Engine

end FloweeHub.Validation
