import FloweeHub.Mempool.Totals
import Mathlib.Tactic.Abel

/-! The totals of the descendants along calls: in which calls they stay exact, told from the state in
front of each call. -/

namespace FloweeHub.TxMemPool

open Lib Relation Option List Or

variable (env : MempoolEnv) {m m' : TxMemPool} {hash x : Uint256} {nFeeDelta : BitVec 64} {c : Uint256}

theorem sum_change {M : Type*} [AddCommGroup M] {w w' : Uint256 → M} (hw : ∀ d, d ≠ c → w' d = w d)
    (s : Finset Uint256) : ∑ d ∈ s, w' d = ∑ d ∈ s, w d + if c ∈ s then w' c - w c else 0 := by
  split_ifs with hc
  · have hrest : ∑ d ∈ s.erase c, w' d = ∑ d ∈ s.erase c, w d := Finset.sum_congr rfl fun d hd =>
      hw d (Finset.ne_of_mem_erase hd)
    rw [← Finset.add_sum_erase s w' hc, ← Finset.add_sum_erase s w hc, hrest]
    abel
  · rw [add_zero]
    exact Finset.sum_congr rfl fun d hd => hw d fun hdc => hc (hdc ▸ hd)

section Priorities

variable (h : Prioritised hash nFeeDelta m m') {e : TxMemPoolEntry}
include h

theorem Prioritised.lookup_inv {e' : TxMemPoolEntry} (hx : m'.mapTx.lookup x = some e') :
    ∃ e, m.mapTx.lookup x = some e ∧ e' = m.priced hash nFeeDelta x e := by
  rw [h.found, map_eq_some_iff] at hx
  obtain ⟨e, he, rfl⟩ := hx
  exact ⟨e, he, rfl⟩

theorem Prioritised.feeOf_ne (hx : x ≠ hash) : m'.feeOf x = m.feeOf x := by
  rw [feeOf, feeOf, h.found]
  cases m.mapTx.lookup x with
  | none => rfl
  | some e =>
    rw [map_some, elim_some, elim_some, priced, if_neg hx]
    split_ifs <;> rfl

theorem Prioritised.feeOf_self (he : m.mapTx.lookup hash = some e) :
    m'.feeOf hash - m.feeOf hash = m.newDelta hash nFeeDelta - e.feeDelta := by
  rw [feeOf, feeOf, h.found, he, map_some, elim_some, elim_some, priced, if_pos rfl]
  exact add_sub_add_left_eq_sub _ _ _

theorem Prioritised.fee_exact (hcts : m.Counts []) (he : m.mapTx.lookup x = some e) :
    (m.priced hash nFeeDelta x e).nModFeesWithDescendants = ∑ d ∈ m'.family x, m'.feeOf d := by
  have hroot := hcts.sound.linked.toRooted
  have htot := (hcts.exact x e he (by simp)).fee
  have hxmem : x ∈ m.mapTx := mem_mapTx.mpr ⟨e, he⟩
  rw [h.same.family, sum_change (fun d hd => h.feeOf_ne hd), ← htot, priced]
  split_ifs with hx hself habv hself hself
  · subst hx
    rw [h.feeOf_self he]
    rfl
  · subst hx
    exact absurd (Lineage.mem_family_self (mem_nodes.mpr hxmem)) hself
  · -- an ancestor of the ent, which has a parent and so the fee delta that is kept for it
    obtain ⟨p, hp, -⟩ := TransGen.head'_iff.mp habv
    obtain ⟨eh, heh⟩ := mem_mapTx.mp (hroot.parent_mem hash p hp).1
    have hkept := (hcts.deltas hash eh heh).resolve_right fun hnone => hnone p hp
    rw [h.feeOf_self heh, newDelta, hkept, add_sub_cancel_left]
    rfl
  · obtain ⟨p, hp, -⟩ := TransGen.head'_iff.mp habv
    refine absurd (Lineage.mem_family.mpr ⟨mem_nodes.mpr (hroot.parent_mem hash p hp).1, ?_⟩) hself
    exact habv.to_reflTransGen
  · exact absurd (hroot.transGen_iff.mpr ⟨(Lineage.mem_family.mp hself).2, fun hc => hx hc.symm⟩) habv
  · rw [add_zero]

theorem Prioritised.counts (hcts : m.Counts []) : m'.Counts [] where
  sound := h.sound hcts.sound
  links := h.same.linksExact hcts.links
  deltas := by
    intro x e' hx
    obtain ⟨e, he, rfl⟩ := h.lookup_inv hx
    rw [h.deltas, Table.lookup_insert, h.same.parent, priced]
    split_ifs with hself
    · exact inl rfl
    · exact hcts.deltas x e he
    · exact hcts.deltas x e he
  exact := by
    intro x e' hx _
    obtain ⟨e, he, rfl⟩ := h.lookup_inv hx
    refine h.same.exactAt (hcts.exact x e he (by simp)) (shape_priced hash nFeeDelta x e) ?_
    rw [h.fee_exact hcts he, h.same.family]

end Priorities

/-- The parents in the mempool of a transaction of the block are in the block. -/
def ParentsInBlock (m : TxMemPool) (block : List Uint256) : Prop := ∀ c ∈ block, ∀ p, m.Parent c p →
    p ∈ block

theorem ParentsInBlock.ancestors {block : List Uint256} (h : m.ParentsInBlock block) {a : Uint256}
    (hc : c ∈ block) (hrch : ReflTransGen m.Parent c a) : a ∈ block := by
  induction hrch with
  | refl => exact hc
  | tail _ hstep ih => exact h _ ih _ hstep

/-- After a block no entry of it is left, and no other one was an ancestor of an entry of it. -/
theorem Counts.removeForBlock (h : m.Counts []) {vtx : List PoolTx}
    (hblk : m.ParentsInBlock (vtx.map (·.hash))) :
    ∃ m', m.removeForBlock env vtx = some m' ∧ m'.Counts [] := by
  let block := vtx.map (·.hash)
  have hsg : ∀ m, ∀ tx ∈ vtx, ∀ m', m.Counts block ∧ m.ParentsInBlock block →
      Removed m (m.single tx) m' → m'.Counts block ∧ m'.ParentsInBlock block := by
    intro m tx htx m' h hrem
    refine ⟨hrem.counts h.1 (fun r hr => (mem_single.mp hr).2) fun a _ ha d _ hrch => ?_,
      fun c hc p hp => h.2 c hc p ((hrem.parent_iff c p).mp hp).1⟩
    refine hrem.without.reach_of_not_above (fun r hr hc => ?_) hrch
    have hr : r = tx.hash := (mem_single.mp (mem_toFinset.mp hr)).1
    exact ha (h.2.ancestors (hr ▸ mem_map_of_mem htx) hc)
  have hst : m.Counts block := ⟨h.sound, h.links, h.deltas, fun x e he _ => h.exact x e he (by simp)⟩
  obtain ⟨m', hpool', ⟨hcts, -⟩, hgone⟩ := removeForBlock_keeps env
    (I := fun m => m.Counts block ∧ m.ParentsInBlock block) (fun m h => h.1.sound)
    (fun m gone m' h hrem hall =>
      ⟨hrem.counts_whole h.1 hall, fun c hc p hp => h.2 c hc p ((hrem.parent_iff c p).mp hp).1⟩)
    (fun m hash h hhash =>
      ⟨h.1.clear hhash, fun c hc p hp => h.2 c hc p (by rwa [(same_clear hash).parent] at hp)⟩)
    hsg ⟨hst, hblk⟩
  refine ⟨m', hpool', hcts.sound, hcts.links, hcts.deltas, fun x e he _ =>
    hcts.exact x e he fun hc => ?_⟩
  obtain ⟨tx, htx, rfl⟩ := mem_map.mp hc
  exact hgone tx htx (mem_mapTx.mpr ⟨e, he⟩)

/-! ### Totals along calls -/

variable (m)

/-- No assertion of `UpdateState` fails. In `insertTx` it is only reached from `addUnchecked`. -/
def UpdatesPass : Call → Prop
  | .insertTx _ entry => entry.1.tx.hash ∉ m.mapTx → (m.addUnchecked entry.1.tx.hash entry.1).isSome
  | call => (m.result env call).isSome

/-- No assertion of `UpdateState` fails, and totals and links are exact after the call. -/
def TotalsKept (call : Call) : Prop := m.UpdatesPass env call ∧ (m.step env call).TotalsExact

/-- Children come after their parents, and blocks hold the parents of their transactions. -/
def InOrder : Call → Prop
  | .insertTx _ entry => entry.1.tx.hash ∈ m.mapTx ∨ m.NoChildren entry.1.tx
  | .removeForBlock vtx => m.ParentsInBlock (vtx.map (·.hash))
  | _ => True

/-- An added entry counts its fee, no rescued one has a fee delta and parents, and a single removal
cuts nothing off. -/
def Counted : Call → Prop
  | .insertTx utxo entry =>
    m.Accepts utxo entry.1.tx → ∀ rescued, m.examined env utxo entry.1.tx = some rescued →
    entry.1.nModFeesWithDescendants = entry.1.nFee ∧
      (rescued = true → m.deltaFor entry.1.tx.hash = 0 ∨ m.searchParents entry.1.tx = [])
  | .remove tx false => m.NoCut tx.hash
  | _ => True

variable {m} {call : Call}

theorem Counts.totalsExact (h : m.Counts []) : m.TotalsExact :=
  (totalsExact_iff h.sound).mpr ⟨h.exact, h.links⟩

theorem totalsKept_of_counts (hcall : ¬ call.IsInsertion) (hres : m.result env call = some m')
    (hcts : m'.Counts []) : m.TotalsKept env call ∧ (m.step env call).Counts [] := by
  rw [TotalsKept, step_of_result env hres]
  refine ⟨⟨?_, hcts.totalsExact⟩, hcts⟩
  have hsome : (m.result env call).isSome := by rw [hres]; rfl
  cases call with
  | insertTx utxo ent => exact absurd trivial hcall
  | _ => exact hsome

theorem Counts.insertTx_step (h : m.Counts []) {utxo : Utxo} {ent : NewEntry}
    (hord : m.InOrder (.insertTx utxo ent)) :
    (m.TotalsKept env (.insertTx utxo ent) ↔ m.Counted env (.insertTx utxo ent)) ∧
      (m.TotalsKept env (.insertTx utxo ent) → (m.step env (.insertTx utxo ent)).Counts []) := by
  have hpass : m.UpdatesPass env (.insertTx utxo ent) := fun hnew => by
    obtain ⟨m', hpool', -⟩ := h.sound.addUnchecked hnew
    rw [hpool']
    rfl
  rcases h.sound.insertTx_cases env utxo ent with ⟨hnone, hunt⟩ | ⟨hacc, rescued, fin, hexm, hadd,
    hsets, hlst, hfin⟩
  · have hcts := hunt.toSameFees.counts h hunt.listed
    refine ⟨iff_of_true ⟨hpass, hcts.totalsExact⟩ fun hacc rescued hexm => absurd ⟨hacc, ?_⟩ hnone,
      fun _ => hcts⟩
    rw [hexm]
    rfl
  · have hch : m.NoChildren ent.1.tx := hord.resolve_left hacc.new
    have hlink := h.sound.linked
    have hsnd := hadd.sound hacc.new hlink hsets h.sound hlst
    have hlks := hadd.linksExact hacc.new hsets hlink hch h.links
    have hex := hadd.exact_iff hacc.new ent.2 hsets hfin h
    rw [TotalsKept, totalsExact_iff hsnd, hex]
    refine ⟨⟨fun hkept _ r hr => ?_, fun hctd => ⟨hpass, hctd hacc rescued hexm, hlks⟩⟩, fun hkept => ?_⟩
    · cases hexm.symm.trans hr
      exact hkept.2.1
    · exact ⟨hsnd, hlks, hadd.deltasKept hacc.new ent.2 hfin hlink h.deltas hkept.2.1.2,
        hex.mpr hkept.2.1⟩

theorem Counts.step (h : m.Counts []) (hord : m.InOrder call) :
    (m.TotalsKept env call ↔ m.Counted env call) ∧
      (m.TotalsKept env call → (m.step env call).Counts []) := by
  have hdone : ∀ {call : Call} {m'}, ¬ call.IsInsertion → m.Counted env call →
      m.result env call = some m' → m'.Counts [] →
      (m.TotalsKept env call ↔ m.Counted env call) ∧
        (m.TotalsKept env call → (m.step env call).Counts []) := by
    intro call m' hcall hctd hres hcts
    obtain ⟨hkept, hstep⟩ := totalsKept_of_counts env hcall hres hcts
    exact ⟨iff_of_true hkept hctd, fun _ => hstep⟩
  cases call with
  | insertTx utxo ent => exact h.insertTx_step env hord
  | remove tx fRecursive =>
    cases fRecursive with
    | true =>
      obtain ⟨m', gone, hpool', hrem, hall, -⟩ := h.sound.remove_recursive env tx
      exact hdone id trivial hpool' (hrem.counts_whole h hall)
    | false =>
      obtain ⟨m', hpool', hrem⟩ := h.sound.remove_single env tx
      have hres : m.result env (.remove tx false) = some m' := hpool'
      have hsnd := hrem.sound h.sound fun r hr => (mem_single.mp hr).2
      have hlks := hrem.linksExact h.sound.linked h.links
      have hsome : (m.result env (.remove tx false)).isSome := by rw [hres]; rfl
      rw [TotalsKept, step_of_result env hres, totalsExact_iff hsnd, hrem.exact_single_iff h]
      refine ⟨⟨fun hkept => hkept.2.1, fun hcut => ⟨hsome, hcut, hlks⟩⟩, fun hkept => ?_⟩
      exact ⟨hsnd, hlks, hrem.deltasKept h.deltas, (hrem.exact_single_iff h).mpr hkept.2.1⟩
  | removeConflicts tx =>
    obtain ⟨m', hpool', hcts⟩ :=
      removeConflicts_keeps env (I := fun m => m.Counts []) (fun _ h => h.sound)
      (fun _ _ _ h hrem hall => hrem.counts_whole h hall) (fun _ _ h hhash => h.clear hhash) h tx
    exact hdone id trivial hpool' hcts
  | removeForBlock vtx =>
    obtain ⟨m', hpool', hcts⟩ := h.removeForBlock env hord
    exact hdone id trivial hpool' hcts
  | addDoubleSpendProof proof =>
    obtain ⟨m', hpool', hunt⟩ := h.sound.addDoubleSpendProof env proof
    exact hdone id trivial hpool' (hunt.toSameFees.counts h hunt.listed)
  | addOrphan proof peerId now =>
    have hunt := h.sound.addOrphan env proof peerId now
    exact hdone id trivial rfl (hunt.toSameFees.counts h hunt.listed)
  | periodicCleanup now =>
    have hunt := h.sound.periodicCleanup env now
    exact hdone id trivial rfl (hunt.toSameFees.counts h hunt.listed)
  | PrioritiseTransaction hash nFeeDelta =>
    obtain ⟨m', hpool', hprior⟩ := h.sound.prioritise hash nFeeDelta
    exact hdone id trivial hpool' (hprior.counts h)

theorem counts_empty : Counts empty [] where
  sound := sound_empty
  links := by
    intro c p
    simp [empty, Child, Parent, Worklist.Edge, GetMemPoolChildren, GetMemPoolParents, SpendsFrom]
  deltas := by simp [DeltasKept, empty]
  exact := by simp [ExactBut, empty]

instance (tx : PoolTx) : Decidable (m.NoChildren tx) :=
  decidable_of_iff (m.mapTx.entries.all fun s => (inputs s.2.tx).all (·.hash ≠ tx.hash)) (by
    simp only [List.all_eq_true, decide_eq_true_eq]
    exact ⟨fun h x e he => h ⟨x, e⟩ (Table.mem_entries.mpr he), fun h s hs =>
      h s.1 s.2 (Table.mem_entries.mp hs)⟩)

instance (block : List Uint256) : Decidable (m.ParentsInBlock block) :=
  decidable_of_iff (block.all fun c => ((m.GetMemPoolParents c).getD []).all (· ∈ block)) (by
    simp only [List.all_eq_true, decide_eq_true_eq]
    refine forall₂_congr fun c _ => forall_congr' fun p => imp_congr_left ?_
    rw [Parent, Worklist.Edge]
    cases m.GetMemPoolParents c with
    | none => simp
    | some parents => simp)

instance : ∀ (m : TxMemPool) (call : Call), Decidable (m.InOrder call)
  | m, .insertTx _ entry =>
    inferInstanceAs (Decidable (entry.1.tx.hash ∈ m.mapTx ∨ m.NoChildren entry.1.tx))
  | m, .removeForBlock vtx => inferInstanceAs (Decidable (m.ParentsInBlock (vtx.map (·.hash))))
  | _, .remove _ _ => .isTrue trivial
  | _, .removeConflicts _ => .isTrue trivial
  | _, .addDoubleSpendProof _ => .isTrue trivial
  | _, .addOrphan _ _ _ => .isTrue trivial
  | _, .periodicCleanup _ => .isTrue trivial
  | _, .PrioritiseTransaction _ _ => .isTrue trivial

def spending (hash prevHash : Uint256) (h : prevHash ≠ hash) : PoolTx :=
  spendingFrom hash prevHash h [1, 1, 1, 1]

def acceptingEnv : MempoolEnv := ⟨fun _ => 0, fun _ _ _ _ _ => true⟩

/-- The insertion of an entry where output 0 of transaction 7 is the only one in the UTXO. -/
def inserting (entry : NewEntry) : Call :=
  .insertTx (fun op => if op = ⟨7, 0⟩ then some ⟨6000, [0x51]⟩ else none) entry

def insertingFee (tx : PoolTx) : Call := inserting ⟨.ofFee tx 1000, inr rfl⟩

theorem TotalsExact.childless (hsnd : m.Sound) (h : m.TotalsExact)
    (hch : m.GetMemPoolChildren x = some []) {count : ℤ} {nFee feeDelta total : BitVec 64}
    (hent : (m.mapTx.lookup x).map (fun e => (e.nCountWithDescendants, e.fees)) = some (count, nFee,
      feeDelta, total)) :
    count = 1 ∧ total = nFee + feeDelta := by
  obtain ⟨e, he, hfs⟩ := map_eq_some_iff.mp hent
  obtain ⟨rfl, rfl, rfl, rfl⟩ : e.nCountWithDescendants = count ∧ e.nFee = nFee ∧ e.feeDelta = feeDelta ∧
      e.nModFeesWithDescendants = total := by simpa [TxMemPoolEntry.fees] using hfs
  have hfam : m.family x = {x} := by
    ext d
    rw [family, Lineage.mem_family, Finset.mem_singleton]
    constructor
    · rintro ⟨-, hrch⟩
      rcases hrch.cases_tail with heq | ⟨c, -, hstep⟩
      · exact heq.symm
      · obtain ⟨children, hc, hmem⟩ := (hsnd.linked.child_iff x c).mpr hstep
        cases hch.symm.trans hc
        exact absurd hmem not_mem_nil
    · rintro rfl
      exact ⟨mem_nodes.mpr (mem_mapTx.mpr ⟨e, he⟩), .refl⟩
  obtain ⟨hct, -, hfee⟩ := h.1 x e he (hsnd.not_isDirty he)
  refine ⟨by rw [hct, hfam, Finset.card_singleton]; rfl, ?_⟩
  rw [hfee, hfam, Finset.sum_singleton, feeOf, he]
  rfl

/-- The mempool is sound after any calls. -/
theorem sound_run (calls : List Call) : (calls.foldl (step env) empty).Sound := by
  suffices hgen : ∀ m : TxMemPool, m.Sound → (calls.foldl (step env) m).Sound from hgen empty sound_empty
  induction calls with
  | nil => exact fun _ h => h
  | cons call calls ih => exact fun m h => ih _ (h.step env call)

/-- In every pool that calls lead to, a recursive removal passes its assertions and takes out what it
starts from with what descends from it, and nothing else. -/
theorem remove_takes_descendants (calls : List Call) (tx : PoolTx) :
    let m := calls.foldl (step env) empty
    ∃ start m', m.toRemove tx true = some start ∧ m.remove env tx true = some m' ∧
      ∀ x, x ∈ m'.mapTx ↔ x ∈ m.mapTx ∧ ¬ ∃ a ∈ start, ReflTransGen m.Child a x := by
  intro m
  obtain ⟨m', gone, hm', hrem, -, start, hst, hall⟩ :=
    (sound_run env calls : m.Sound).remove_recursive env tx
  exact ⟨start, m', hst, hm', fun x => by rw [hrem.mem, hall]⟩

end FloweeHub.TxMemPool
