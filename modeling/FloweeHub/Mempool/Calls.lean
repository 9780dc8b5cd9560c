import FloweeHub.Mempool.Insertion

/-! The calls of the mempool. Only `insertTx` can meet a failing assertion; whatever is called, the
mempool stays sound. -/

namespace FloweeHub.TxMemPool

open Lib Relation Option

variable (env : MempoolEnv) {m m' : TxMemPool} {call : Call}

abbrev NewEntry := { e : TxMemPoolEntry // e.Fresh }

/-- The calls, with the UTXO and the time at which they are made where these matter. -/
inductive Call
  | insertTx (utxo : Utxo) (entry : NewEntry)
  | remove (tx : PoolTx) (fRecursive : Bool)
  | removeConflicts (tx : PoolTx)
  | removeForBlock (vtx : List PoolTx)
  | addDoubleSpendProof (proof : DoubleSpendProof)
  | addOrphan (proof : DoubleSpendProof) (peerId now : ℤ)
  | periodicCleanup (now : ℤ)
  | PrioritiseTransaction (hash : Uint256) (nFeeDelta : BitVec 64)

/-- The mempool after a call, unless an assertion fails. -/
def result (m : TxMemPool) : Call → Option TxMemPool
  | .insertTx utxo entry => (m.insertTx env utxo entry.1).map Prod.snd
  | .remove tx fRecursive => m.remove env tx fRecursive
  | .removeConflicts tx => m.removeConflicts env tx
  | .removeForBlock vtx => m.removeForBlock env vtx
  | .addDoubleSpendProof proof => m.addDoubleSpendProof env proof
  | .addOrphan proof peerId now =>
    some { m with dspStorage := (m.dspStorage.addOrphan env.Hash proof peerId now).getD m.dspStorage }
  | .periodicCleanup now => some { m with dspStorage := m.dspStorage.periodicCleanup env.Hash now }
  | .PrioritiseTransaction hash nFeeDelta => m.PrioritiseTransaction hash nFeeDelta

def step (m : TxMemPool) (call : Call) : TxMemPool := (m.result env call).getD m

theorem step_of_result (h : m.result env call = some m') : m.step env call = m' := by
  rw [step, h, getD_some]

theorem Sound.addDoubleSpendProof (h : m.Sound) (proof : DoubleSpendProof) :
    ∃ m', m.addDoubleSpendProof env proof = some m' ∧ Untouched m m' := by
  rw [TxMemPool.addDoubleSpendProof]
  cases hlk : m.mapNextTx.lookup proof.prevOut with
  | none => exact ⟨m, rfl, h.untouched⟩
  | some oldTx =>
    obtain ⟨item, hitem, -⟩ := h.next _ _ hlk
    simp only [hitem, map_some]
    refine ⟨_, rfl, ?_⟩
    split_ifs
    · exact h.untouched
    · cases hadd : m.dspStorage.add env.Hash proof with
      | none => exact h.untouched
      | some added => exact ⟨sameFees_attach hitem _ _, h.listed.add hadd⟩

theorem Sound.addOrphan (h : m.Sound) (proof : DoubleSpendProof) (peerId now : ℤ) :
    Untouched m { m with dspStorage := (m.dspStorage.addOrphan env.Hash proof peerId now).getD m.dspStorage } := by
  refine ⟨sameFees_storage _, ?_⟩
  cases hadd : m.dspStorage.addOrphan env.Hash proof peerId now with
  | none => exact h.listed
  | some storage => exact h.listed.addOrphan hadd

theorem Sound.periodicCleanup (h : m.Sound) (now : ℤ) :
    Untouched m { m with dspStorage := m.dspStorage.periodicCleanup env.Hash now } :=
  ⟨sameFees_storage _, h.listed.periodicCleanup now⟩

theorem Untouched.sound (h : Untouched m m') (hsound : m.Sound) : m'.Sound :=
  h.toSame.sound hsound h.listed

section Priorities

variable (hash : Uint256) (nFeeDelta : BitVec 64)

def newDelta (m : TxMemPool) : BitVec 64 := (m.mapDeltas.lookup hash).getD 0 + nFeeDelta

open Classical in
noncomputable def priced (m : TxMemPool) (x : Uint256) (e : TxMemPoolEntry) : TxMemPoolEntry :=
  if x = hash then e.UpdateFeeDelta (m.newDelta hash nFeeDelta)
  else if TransGen m.Parent hash x then e.changed 0 nFeeDelta 0
  else e

theorem shape_priced (x : Uint256) (e : TxMemPoolEntry) :
    (m.priced hash nFeeDelta x e).shape = e.shape := by
  rw [priced]
  split_ifs
  · rfl
  · simp [TxMemPoolEntry.shape, TxMemPoolEntry.changed]
  · rfl

/-- What `PrioritiseTransaction` changes. -/
structure Prioritised (m m' : TxMemPool) : Prop where
  found : ∀ x, m'.mapTx.lookup x = (m.mapTx.lookup x).map (m.priced hash nFeeDelta x)
  links : m'.mapLinks = m.mapLinks
  next : m'.mapNextTx = m.mapNextTx
  deltas : m'.mapDeltas = m.mapDeltas.insert hash (m.newDelta hash nFeeDelta)
  storage : m'.dspStorage = m.dspStorage

variable {hash nFeeDelta}

theorem Prioritised.same (h : Prioritised hash nFeeDelta m m') : Same m m' where
  entry := by
    intro x
    rw [h.found, Option.map_map]
    exact Option.map_congr fun e _ => shape_priced hash nFeeDelta x e
  __ := h

theorem Prioritised.sound (h : Prioritised hash nFeeDelta m m') (hsound : m.Sound) : m'.Sound :=
  h.same.sound hsound (h.storage ▸ hsound.listed)

variable (hash nFeeDelta)

theorem Sound.prioritise (h : m.Sound) :
    ∃ m', m.PrioritiseTransaction hash nFeeDelta = some m' ∧ Prioritised hash nFeeDelta m m' := by
  classical
  cases hlk : m.mapTx.lookup hash with
  | none =>
    refine ⟨{ m with mapDeltas := m.mapDeltas.insert hash (m.newDelta hash nFeeDelta) }, ?_,
      fun x => ?_, rfl, rfl, rfl, rfl⟩
    · rw [PrioritiseTransaction]
      simp only [hlk]
      rfl
    · cases hx : m.mapTx.lookup x with
      | none => rfl
      | some e =>
        have hne : x ≠ hash := fun hc => by
          rw [hc, hlk] at hx
          exact absurd hx (by simp)
        have hnot : ¬ TransGen m.Parent hash x := fun hc => by
          obtain ⟨p, hp, -⟩ := TransGen.head'_iff.mp hc
          obtain ⟨e', he'⟩ := mem_mapTx.mp (h.linked.parent_mem _ _ hp).1
          exact absurd (hlk.symm.trans he') (by simp)
        rw [map_some, priced, if_neg hne, if_neg hnot]
  | some e =>
    let pool1 : TxMemPool := { m with
      mapDeltas := m.mapDeltas.insert hash (m.newDelta hash nFeeDelta)
      mapTx := m.mapTx.insert hash (e.UpdateFeeDelta (m.newDelta hash nFeeDelta)) }
    have hsame : Same m pool1 := ⟨lookup_replace _ hlk rfl, rfl, rfl⟩
    have hlinked := hsame.linked h.linked
    obtain ⟨ancestors, hancs, hnd, habv⟩ := hlinked.ancestors (hsame.mem.mpr (mem_mapTx.mpr ⟨e, hlk⟩))
    rw [hsame.parent] at habv
    obtain ⟨mapTx, hfold, hfd⟩ := modifyTotals_all pool1 hnd 0 nFeeDelta 0 fun a ha => by
      have hmem : a ∈ pool1.mapTx := hsame.mem.mpr
        (h.linked.reach_mem (mem_mapTx.mpr ⟨e, hlk⟩) ((habv a).mp ha).to_reflTransGen)
      obtain ⟨ea, hea⟩ := mem_mapTx.mp hmem
      exact ⟨ea, hea, (hsame.covered h.covered).updateState_add hlinked.toRooted hea 0 nFeeDelta 0⟩
    refine ⟨{ pool1 with mapTx := mapTx }, ?_, fun x => ?_, rfl, rfl, rfl, rfl⟩
    · rw [PrioritiseTransaction]
      simp only [hlk]
      show (pool1.CalculateMemPoolAncestors hash).bind _ = _
      rw [hancs, bind_some]
      exact hfold
    · have hself : ¬ TransGen m.Parent hash hash := fun hc => h.linked.ne_of_transGen hc rfl
      rw [hfd]
      rw [Table.lookup_insert]
      by_cases hx : x = hash
      · have hnot : x ∉ ancestors := fun hc => hself (hx ▸ (habv x).mp hc)
        rw [if_neg hnot, if_pos hx, hx, hlk, map_some, priced, if_pos rfl]
      · rw [if_neg hx]
        cases m.mapTx.lookup x with
        | none => simp
        | some ex =>
          rw [map_some, map_some, priced, if_neg hx]
          simp only [habv]
          split_ifs <;> rfl

end Priorities

/-- The one call that adds a transaction. -/
def Call.IsInsertion : Call → Prop
  | .insertTx _ _ => True
  | _ => False

section Keeps

variable {I : TxMemPool → Prop} (hsound : ∀ m, I m → m.Sound)
  (hremoved : ∀ m gone m', I m → Removed m gone m' → (∀ x ∈ gone, x ∈ m.mapTx) → I m')
  (hsame : ∀ m m', I m → Same m m' → m'.dspStorage.Listed → I m')
include hsound hremoved hsame

/-- No other call fails, and each of them keeps what removals keep. -/
theorem result_keeps (h : I m) (hcall : ¬ call.IsInsertion) : ∃ m', m.result env call = some m' ∧ I m' := by
  have hwh : ∀ m gone m', I m → Removed m gone m' → Whole m gone → I m' := fun m gone m' h hgone hall =>
    hremoved m gone m' h hgone hall.mem
  have hclr : ∀ m hash, I m → hash ∉ m.mapTx → I (m.ClearPrioritisation hash) := fun m hash h _ =>
    hsame m _ h (same_clear hash) (hsound m h).listed
  cases call with
  | insertTx utxo ent => exact absurd trivial hcall
  | remove tx fRecursive =>
    cases fRecursive with
    | false =>
      obtain ⟨m', hpool', hgone⟩ := (hsound m h).remove_single env tx
      exact ⟨m', hpool', hremoved m _ m' h hgone fun x hx => (single_mem x hx).2⟩
    | true =>
      obtain ⟨m', gone, hpool', hgone, hall, -⟩ := (hsound m h).remove_recursive env tx
      exact ⟨m', hpool', hwh m gone m' h hgone hall⟩
  | removeConflicts tx => exact removeConflicts_keeps env hsound hwh hclr h tx
  | removeForBlock vtx =>
    obtain ⟨m', hpool', hkeep, -⟩ := removeForBlock_keeps env hsound hwh hclr
      (fun m tx _ m' h hgone => hremoved m _ m' h hgone fun x hx => (single_mem x hx).2) h
    exact ⟨m', hpool', hkeep⟩
  | addDoubleSpendProof proof =>
    obtain ⟨m', hpool', hunt⟩ := (hsound m h).addDoubleSpendProof env proof
    exact ⟨m', hpool', hsame m m' h hunt.toSame hunt.listed⟩
  | addOrphan proof peerId now =>
    have hunt := (hsound m h).addOrphan env proof peerId now
    exact ⟨_, rfl, hsame m _ h hunt.toSame hunt.listed⟩
  | periodicCleanup now =>
    have hunt := (hsound m h).periodicCleanup env now
    exact ⟨_, rfl, hsame m _ h hunt.toSame hunt.listed⟩
  | PrioritiseTransaction hash nFeeDelta =>
    obtain ⟨m', hpool', hprior⟩ := (hsound m h).prioritise hash nFeeDelta
    exact ⟨m', hpool', hsame m m' h hprior.same (hprior.storage ▸ (hsound m h).listed)⟩

end Keeps

theorem sound_empty : Sound empty where
  linked := by
    refine ⟨⟨by simp [empty], ?_, ?_⟩,
      by simp [empty], by simp [empty], by simp [empty, GetMemPoolChildren], ?_⟩
    · rintro c p ⟨l, hl, -⟩
      simp [empty, GetMemPoolParents] at hl
    · refine ⟨fun _ => 0, ?_⟩
      rintro c p ⟨l, hl, -⟩
      simp [empty, GetMemPoolParents] at hl
    · intro p c
      simp [empty, Child, Parent, Worklist.Edge, GetMemPoolChildren, GetMemPoolParents]
  covered := ⟨by simp [empty], by simp [empty], by simp [empty]⟩
  next := by simp [NextSound, empty]
  listed := DoubleSpendProofStorage.listed_empty

/-- The transaction is added, or the call leaves the entries, links and spent outputs alone. -/
theorem Sound.insertTx_cases (h : m.Sound) (utxo : Utxo) (ent : NewEntry) :
    ¬ (m.Accepts utxo ent.1.tx ∧ (m.examined env utxo ent.1.tx).isSome) ∧
        Untouched m (m.step env (.insertTx utxo ent)) ∨
      m.Accepts utxo ent.1.tx ∧ ∃ rescued fin, m.examined env utxo ent.1.tx = some rescued ∧
        Added m ent.1 fin (m.step env (.insertTx utxo ent)) ∧ Settles ent.1 fin ∧
        (m.step env (.insertTx utxo ent)).dspStorage.Listed ∧
        (rescued = false → fin = m.newEntry ent.1.tx.hash ent.1) ∧
        (rescued → ∃ id, fin = { ent.1 with dsproof := id }) := by
  have hdone {outcome : Outcome} {m' : TxMemPool} (hins : m.insertTx env utxo ent.1 =
      some (outcome, m')) :
      m.step env (.insertTx utxo ent) = m' := step_of_result env (by rw [result, hins]; rfl)
  have hfls (hins : m.insertTx env utxo ent.1 = none) : m.step env (.insertTx utxo ent) = m := by
    rw [TxMemPool.step, result, hins]
    rfl
  by_cases hkn : ent.1.tx.hash ∈ m.mapTx
  · rw [hdone (insertTx_known env ent.2 hkn)]
    exact Or.inl ⟨fun hc => hc.1.new hkn, h.untouched⟩
  by_cases hcl : m.ScanClean utxo (inputs ent.1.tx)
  swap
  · rw [hfls (insertTx_unclean env ent.2 hkn hcl)]
    exact Or.inl ⟨fun hc => hcl hc.1.clean, h.untouched⟩
  by_cases hpass : ∀ op ∈ inputs ent.1.tx, m.Passes utxo op
  swap
  · obtain ⟨_, m', hins, hunt, -⟩ := insertTx_stops env ent.2 h hkn hcl hpass
    rw [hdone hins]
    exact Or.inl ⟨fun hc => hpass hc.1.passes, hunt⟩
  have hacc : m.Accepts utxo ent.1.tx := ⟨hkn, hcl, hpass⟩
  obtain ⟨hnone, hsome⟩ := insertTx_examined env ent.2 h hacc
  cases hexm : m.examined env utxo ent.1.tx with
  | none =>
    rw [hfls (hnone hexm)]
    exact Or.inl ⟨by simp, h.untouched⟩
  | some rescued =>
    obtain ⟨m', fin, hins, hadd⟩ := hsome rescued hexm
    rw [hdone hins]
    exact Or.inr ⟨hacc, rescued, fin, rfl, hadd⟩

theorem Sound.step (h : m.Sound) (call : Call) : (m.step env call).Sound := by
  by_cases hcall : call.IsInsertion
  · cases call with
    | insertTx utxo ent =>
      rcases h.insertTx_cases env utxo ent with ⟨-, hunt⟩ | ⟨hacc, _, _, -, hadd, hsets, hlst, -⟩
      · exact hunt.sound h
      · exact hadd.sound hacc.new h.linked hsets h hlst
    | _ => exact absurd hcall id
  · obtain ⟨m', hres, hsound⟩ := result_keeps env (fun _ h => h) (fun _ _ _ h hremoved hmem =>
      hremoved.sound h hmem)
      (fun _ _ h hsame hlst => hsame.sound h hlst) h hcall
    rw [step_of_result env hres]
    exact hsound

end FloweeHub.TxMemPool
