import FloweeHub.Mempool.Adding

/-! `insertTx` in terms of the mempool in front of the call. Its loop meets an assertion, stops, or
goes on with the orphans it found, of which the first valid one is attached. -/

namespace FloweeHub.TxMemPool

open Lib Relation Option List

variable (env : MempoolEnv) {m m' : TxMemPool} {utxo : Utxo} {ent fin : TxMemPoolEntry}

/-! ### The loop over the inputs -/

variable (m)

/-- The storage does not answer that there is no orphan for the output. -/
def Orphaned (op : OutPoint) : Prop := m.dspStorage.findOrphans op ≠ some []

/-- The output can be spent: the mempool or the database has it. -/
def Available (utxo : Utxo) (op : OutPoint) : Prop := m.hasOutput op ∨ (utxo op).isSome

/-- The loop goes on behind this input. -/
def Passes (utxo : Utxo) (op : OutPoint) : Prop := m.Orphaned op ∨ op ∉ m.mapNextTx ∧ m.Available utxo op

/-- The listed proofs of each input exist, and none is for an output that is spent already. -/
def ScanClean (m : TxMemPool) (utxo : Utxo) : List OutPoint → Prop
  | [] => True
  | op :: ops => (m.dspStorage.findOrphans op).isSome ∧ (m.Orphaned op → op ∉ m.mapNextTx) ∧
    (m.Passes utxo op → m.ScanClean utxo ops)

def orphansFor (ops : List OutPoint) : List (ℤ × ℤ) := ops.flatMap fun op =>
    (m.dspStorage.findOrphans op).getD []

variable {m}

/-- What the calls that end without an insertion leave. -/
structure Untouched (m m' : TxMemPool) : Prop extends SameFees m m' where
  listed : m'.dspStorage.Listed

theorem Sound.untouched (h : m.Sound) : Untouched m m := ⟨sameFees_storage m.dspStorage, h.listed⟩

theorem Sound.doubleSpend (h : m.Sound) {op : OutPoint} {oldTx : InPoint}
    (hop : m.mapNextTx.lookup op = some oldTx) (ent : TxMemPoolEntry) :
    ∃ outcome m', m.doubleSpend env ent oldTx = some (.stop outcome m') ∧ Untouched m m' ∧
      outcome ≠ .inserted := by
  obtain ⟨item, hitem, -⟩ := h.next op oldTx hop
  rw [TxMemPool.doubleSpend, hitem, map_some]
  split_ifs with hprf
  · cases DoubleSpendProof.create env.Hash oldTx.tx.toTransaction ent.tx.toTransaction with
    | error message => exact ⟨_, _, rfl, h.untouched, by simp⟩
    | ok proof =>
      simp only
      cases hadd : m.dspStorage.add env.Hash proof with
      | none => exact ⟨_, _, rfl, h.untouched, by simp⟩
      | some added =>
        simp only
        split_ifs
        · exact ⟨_, _, rfl, h.untouched, by simp⟩
        · exact ⟨_, _, rfl, ⟨sameFees_attach hitem _ _, h.listed.add hadd⟩, by simp⟩
  · exact ⟨_, _, rfl, h.untouched, by simp⟩

section Scan

variable {txin : TxIn} {vin : List TxIn} {orphans : List (ℤ × ℤ)}

theorem orphaned_iff (hfind : m.dspStorage.findOrphans txin.prevout = some orphans) :
    m.Orphaned txin.prevout ↔ orphans ≠ [] := by
  rw [Orphaned, hfind, ne_eq, some.injEq]

theorem scanInputs_pass (hfind : m.dspStorage.findOrphans txin.prevout = some orphans)
    (hspt : m.Orphaned txin.prevout → txin.prevout ∉ m.mapNextTx) (hpass : m.Passes utxo txin.prevout)
    (found : List (ℤ × ℤ)) :
    m.scanInputs env utxo ent (txin :: vin) found = m.scanInputs env utxo ent vin
      (found ++ orphans) := by
  rw [scanInputs, hfind, bind_some]
  by_cases horps : orphans = []
  · have hnot : ¬ m.Orphaned txin.prevout := fun hc => (orphaned_iff hfind).mp hc horps
    obtain ⟨hfree, hav⟩ := hpass.resolve_left hnot
    rw [Available] at hav
    rw [if_neg (by simp [horps]), AList.lookup_eq_none.mpr hfree, horps, append_nil]
    simp only [if_pos hav]
  · rw [if_pos horps, if_neg (hspt ((orphaned_iff hfind).mpr horps))]

theorem scan_fails (h : ¬ m.ScanClean utxo (vin.map (·.prevout))) (found : List (ℤ × ℤ)) :
    m.scanInputs env utxo ent vin found = none := by
  induction vin generalizing found with
  | nil => exact absurd trivial h
  | cons txin vin ih =>
    cases hfind : m.dspStorage.findOrphans txin.prevout with
    | none =>
      rw [scanInputs, hfind]
      rfl
    | some orphans =>
      by_cases hspt : m.Orphaned txin.prevout → txin.prevout ∉ m.mapNextTx
      · have hrest : ¬ (m.Passes utxo txin.prevout → m.ScanClean utxo (vin.map (·.prevout))) := fun hc =>
          h ⟨by rw [hfind]; rfl, hspt, hc⟩
        obtain ⟨hpass, hrest⟩ := Classical.not_imp.mp hrest
        rw [scanInputs_pass env hfind hspt hpass]
        exact ih hrest _
      · obtain ⟨horphaned, hmem⟩ := Classical.not_imp.mp hspt
        rw [scanInputs, hfind, bind_some, if_pos ((orphaned_iff hfind).mp horphaned),
          if_pos (not_not.mp hmem)]

theorem scan_passes (h : m.ScanClean utxo (vin.map (·.prevout)))
    (hpass : ∀ op ∈ vin.map (·.prevout), m.Passes utxo op) (found : List (ℤ × ℤ)) :
    m.scanInputs env utxo ent vin found =
      some (.pass (found ++ m.orphansFor (vin.map (·.prevout)))) := by
  induction vin generalizing found with
  | nil => simp [scanInputs, orphansFor]
  | cons txin vin ih =>
    obtain ⟨hfd, hspt, hrest⟩ := h
    have hhead := hpass _ mem_cons_self
    obtain ⟨orphans, hfind⟩ := isSome_iff_exists.mp hfd
    rw [scanInputs_pass env hfind hspt hhead, ih (hrest hhead) fun op hop =>
      hpass op (mem_cons_of_mem _ hop)]
    simp [orphansFor, hfind]

theorem Sound.scan_stops (hsound : m.Sound) (ent : TxMemPoolEntry)
    (h : m.ScanClean utxo (vin.map (·.prevout)))
    (hpass : ¬ ∀ op ∈ vin.map (·.prevout), m.Passes utxo op) (found : List (ℤ × ℤ)) :
    ∃ outcome m', m.scanInputs env utxo ent vin found = some (.stop outcome m') ∧ Untouched m m' ∧
      outcome ≠ .inserted := by
  induction vin generalizing found with
  | nil => exact absurd (by simp) hpass
  | cons txin vin ih =>
    obtain ⟨hfd, hspt, hrest⟩ := h
    obtain ⟨orphans, hfind⟩ := isSome_iff_exists.mp hfd
    by_cases hhead : m.Passes utxo txin.prevout
    · rw [scanInputs_pass env hfind hspt hhead]
      exact ih (hrest hhead) (fun hc => hpass (forall_mem_cons.mpr ⟨hhead, hc⟩)) _
    · rw [Passes, not_or, orphaned_iff hfind, not_not] at hhead
      rw [scanInputs, hfind, bind_some, if_neg (not_not.mpr hhead.1)]
      cases hlk : m.mapNextTx.lookup txin.prevout with
      | some oldTx => exact hsound.doubleSpend env hlk ent
      | none =>
        have hav : ¬ m.Available utxo txin.prevout := fun hc => hhead.2 ⟨AList.lookup_eq_none.mp hlk, hc⟩
        exact ⟨_, _, if_neg hav, hsound.untouched, by simp⟩

end Scan

/-! ### The orphans that were found -/

/-- What a proof is validated against after the transaction was added. -/
def lookupsWith (m : TxMemPool) (utxo : Utxo) (tx : PoolTx) : DoubleSpendProof.Lookups where
  tx hash := if hash = tx.hash then some tx.toTransaction else (m.lookups utxo).tx hash
  spending prevout :=
    if prevout ∈ inputs tx then some tx.toTransaction else (m.lookups utxo).spending prevout
  utxo := utxo

def verdict (m : TxMemPool) (utxo : Utxo) (tx : PoolTx) (id : ℤ) : Option DoubleSpendProof.Validity :=
  ((m.dspStorage.proofs.lookup id).getD emptyProof).validate env.verify (m.lookupsWith utxo tx)

/-- Whether one of the orphans is valid; there is no result if the assertions fail before. -/
def examine (verdict : ℤ → Option DoubleSpendProof.Validity) : List (ℤ × ℤ) → Option Bool
  | [] => some false
  | (id, _) :: orphans =>
    match verdict id with
    | some .Valid => some true
    | some .Invalid => examine verdict orphans
    | _ => none

theorem Added.lookups (h : Added m ent fin m') (hfin : Settles ent fin) :
    m'.lookups utxo = m.lookupsWith utxo ent.tx := by
  rw [TxMemPool.lookups, lookupsWith]
  congr 1
  · funext x
    rw [h.found]
    split_ifs
    · rw [Option.map_some, hfin.tx]
    · rw [Option.map_map]
      refine Option.map_congr fun e _ => ?_
      rw [Function.comp_apply, raised_tx]
  · funext op
    split_ifs with hop
    · obtain ⟨n, hn, -⟩ := h.next_new op hop
      rw [hn, map_some]
    · rw [h.next op hop]
      rfl

theorem lookup_proofs_remove (s : DoubleSpendProofStorage) (id id' : ℤ) :
    (s.remove env.Hash id).proofs.lookup id' = if id' = id then none else s.proofs.lookup id' := by
  rw [DoubleSpendProofStorage.remove]
  cases hprf : s.proofs.lookup id with
  | none =>
    split_ifs with hid
    · rw [hid, hprf]
    · rfl
  | some proof =>
    have hproofs : (s.removeOrphan proof id).proofs = s.proofs := by
      rw [DoubleSpendProofStorage.removeOrphan]
      split_ifs <;> rfl
    show ((s.removeOrphan proof id).proofs.erase id).lookup id' = _
    rw [hproofs, Table.lookup_erase]

theorem drop_orphans (m : TxMemPool) (hlst : m.dspStorage.Listed) (orphans : List (ℤ × ℤ)) :
    ∃ storage, orphans.foldlM (fun m o => m.removeProof env o.1) m =
      some { m with dspStorage := storage } ∧ storage.Listed := by
  have hstep : ∀ m', ∀ o ∈ orphans,
      (∃ storage : DoubleSpendProofStorage, m' = { m with dspStorage := storage } ∧ storage.Listed) →
      ∃ m'', m'.removeProof env o.1 = some m'' ∧
        ∃ storage : DoubleSpendProofStorage, m'' = { m with dspStorage := storage } ∧
          storage.Listed := by
    rintro _ o - ⟨storage, rfl, hstg⟩
    exact ⟨_, removeProof_some env hstg _, _, rfl, hstg.remove _⟩
  obtain ⟨m', hfold, storage, rfl, hstg⟩ := Loops.foldlM_keep hstep ⟨m.dspStorage, rfl, hlst⟩
  exact ⟨storage, hfold, hstg⟩

/-- The loop over the orphans, from any turn on: the proofs that are gone were invalid. -/
theorem rescue_spec (utxo : Utxo) (verdict : ℤ → Option DoubleSpendProof.Validity)
    (orphans : List (ℤ × ℤ)) (m : TxMemPool) (hlst : m.dspStorage.Listed)
    (hvd : ∀ id, verdict id = some .Invalid ∧ m.dspStorage.proofs.lookup id = none ∨
      verdict id = ((m.dspStorage.proofs.lookup id).getD emptyProof).validate env.verify
        (m.lookups utxo)) (hash : Uint256)
    (ent : TxMemPoolEntry) :
    (examine verdict orphans = none → rescue env utxo hash ent orphans m = none) ∧
    (examine verdict orphans = some false → ∃ storage : DoubleSpendProofStorage,
      rescue env utxo hash ent orphans m = some { m with dspStorage := storage } ∧ storage.Listed) ∧
    (examine verdict orphans = some true → ∃ (storage : DoubleSpendProofStorage) (id : ℤ),
      rescue env utxo hash ent orphans m =
        some { m with dspStorage := storage, mapTx := m.mapTx.insert hash { ent with dsproof := id } } ∧
          storage.Listed) := by
  induction orphans generalizing m with
  | nil => exact ⟨by simp [examine], fun _ => ⟨m.dspStorage, rfl, hlst⟩, by simp [examine]⟩
  | cons o orphans ih =>
    obtain ⟨id, peer⟩ := o
    have hself : ((m.dspStorage.proofs.lookup id).getD emptyProof).validate env.verify (m.lookups utxo) = verdict id := by
      rcases hvd id with ⟨hinv, hgone⟩ | hsame
      · rw [hgone, getD_none, DoubleSpendProof.validate, if_pos (by decide), hinv]
      · exact hsame.symm
    rw [rescue, examine, hself]
    cases hrc : verdict id with
    | none => exact ⟨fun _ => rfl, by simp, by simp⟩
    | some rc =>
      cases rc with
      | MissingTransaction => exact ⟨fun _ => rfl, by simp, by simp⟩
      | MissingUTXO => exact ⟨fun _ => rfl, by simp, by simp⟩
      | Valid =>
        refine ⟨by simp, by simp, fun _ => ?_⟩
        obtain ⟨storage, hdrop, hstg⟩ := drop_orphans env
          { m with dspStorage := m.dspStorage.claimOrphan id, mapTx := m.mapTx.insert hash { ent with dsproof := id } }
          (hlst.claimOrphan id) orphans
        exact ⟨storage, id, hdrop, hstg⟩
      | Invalid =>
        rw [removeProof_some env hlst, bind_some]
        refine ih _ (hlst.remove id) fun id' => ?_
        rw [lookup_proofs_remove]
        split_ifs with hid
        · exact Or.inl ⟨hid ▸ hrc, rfl⟩
        · exact hvd id'

/-- All inputs pass, so that the transaction is added. -/
structure Accepts (m : TxMemPool) (utxo : Utxo) (tx : PoolTx) : Prop where
  new : tx.hash ∉ m.mapTx
  clean : m.ScanClean utxo (inputs tx)
  passes : ∀ op ∈ inputs tx, m.Passes utxo op

/-- The verdict on the orphans that a new transaction finds. -/
def examined (m : TxMemPool) (utxo : Utxo) (tx : PoolTx) : Option Bool :=
  examine (m.verdict env utxo tx) (m.orphansFor (inputs tx))

variable (hfresh : ent.Fresh)
include hfresh

theorem insertTx_known (hkn : ent.tx.hash ∈ m.mapTx) : m.insertTx env utxo ent = some (.refused, m) := by
  rw [insertTx, if_neg (not_not.mpr hfresh.dsproof), if_pos hkn]

theorem insertTx_unclean (hnew : ent.tx.hash ∉ m.mapTx) (hcl : ¬ m.ScanClean utxo (inputs ent.tx)) :
    m.insertTx env utxo ent = none := by
  rw [insertTx, if_neg (not_not.mpr hfresh.dsproof), if_neg hnew, scan_fails env hcl]
  rfl

variable (hsound : m.Sound)
include hsound

theorem insertTx_stops (hnew : ent.tx.hash ∉ m.mapTx) (hcl : m.ScanClean utxo (inputs ent.tx))
    (hpass : ¬ ∀ op ∈ inputs ent.tx, m.Passes utxo op) :
    ∃ outcome m', m.insertTx env utxo ent = some (outcome, m') ∧ Untouched m m' ∧
      outcome ≠ .inserted := by
  obtain ⟨outcome, m', hscan, hunt, hne⟩ := hsound.scan_stops env ent hcl hpass []
  refine ⟨outcome, m', ?_, hunt, hne⟩
  rw [insertTx, if_neg (not_not.mpr hfresh.dsproof), if_neg hnew, hscan]
  rfl

theorem insertTx_rescue (hacc : m.Accepts utxo ent.tx) :
    ∃ pool1, Added m ent (m.newEntry ent.tx.hash ent) pool1 ∧
      pool1.dspStorage = m.dspStorage ∧ m.insertTx env utxo ent =
        (rescue env utxo ent.tx.hash ent (m.orphansFor (inputs ent.tx)) pool1).map fun m' =>
          (.inserted, m') := by
  obtain ⟨pool1, hpool1, hadd, hstg⟩ := hsound.addUnchecked hacc.new
  refine ⟨pool1, hadd, hstg, ?_⟩
  rw [insertTx, if_neg (not_not.mpr hfresh.dsproof), if_neg hacc.new,
    scan_passes env hacc.clean hacc.passes]
  simp only [bind_some, hpool1, nil_append]
  rfl

omit hsound in
theorem settles_newEntry : Settles ent (m.newEntry ent.tx.hash ent) := by
  obtain ⟨htx, hsize, halone⟩ := newEntry_fields m ent.tx.hash ent
  exact ⟨htx, hsize, halone hfresh.alone⟩

theorem insertTx_examined (hacc : m.Accepts utxo ent.tx) :
    (m.examined env utxo ent.tx = none → m.insertTx env utxo ent = none) ∧
    ∀ rescued, m.examined env utxo ent.tx = some rescued → ∃ m' fin,
      m.insertTx env utxo ent = some (.inserted, m') ∧ Added m ent fin m' ∧ Settles ent fin ∧
        m'.dspStorage.Listed ∧ (rescued = false → fin = m.newEntry ent.tx.hash ent) ∧
        (rescued → ∃ id, fin = { ent with dsproof := id }) := by
  obtain ⟨pool1, hadd, hstg, hins⟩ := insertTx_rescue env hfresh hsound hacc
  have hsets : Settles ent (m.newEntry ent.tx.hash ent) := settles_newEntry hfresh
  obtain ⟨hnone, hfalse, htrue⟩ := rescue_spec env utxo (m.verdict env utxo ent.tx)
    (m.orphansFor (inputs ent.tx)) pool1 (hstg ▸ hsound.listed)
    (fun id => Or.inr (by rw [verdict, hstg, hadd.lookups hsets])) ent.tx.hash ent
  refine ⟨fun hexm => ?_, fun rescued hexm => ?_⟩
  · rw [hins, hnone hexm]
    rfl
  · cases rescued with
    | false =>
      obtain ⟨storage, hrescue, hlst⟩ := hfalse hexm
      refine ⟨{ pool1 with dspStorage := storage }, _,
        by rw [hins, hrescue]; rfl, ?_, hsets, hlst, fun _ => rfl, by simp⟩
      exact ⟨hadd.found, hadd.link_new, hadd.link, hadd.next_new, hadd.next, hadd.deltas⟩
    | true =>
      obtain ⟨storage, id, hrescue, hlst⟩ := htrue hexm
      refine ⟨_, { ent with dsproof := id }, by rw [hins, hrescue]; rfl, ?_, ⟨rfl, rfl, ?_⟩, hlst,
        by simp, fun _ => ⟨id, rfl⟩⟩
      · refine ⟨fun x => ?_, hadd.link_new, hadd.link, hadd.next_new, hadd.next, hadd.deltas⟩
        rw [Table.lookup_insert, hadd.found]
        split_ifs <;> rfl
      · exact ⟨hfresh.alone.size_pos, hfresh.alone.size, hfresh.alone.count⟩

end FloweeHub.TxMemPool
