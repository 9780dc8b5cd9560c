import FloweeHub.Mempool.Links
import FloweeHub.Mempool.OrphanLists
import Mathlib.Algebra.BigOperators.Group.Finset.Piecewise

/-! Removing transactions. `RemoveStaged` takes a set of entries out of all tables; `remove` stages
one entry, or all descendants as well. Proved is what is left in each table. Conflicts and mined
blocks are in `Sound`. -/

namespace FloweeHub.TxMemPool

open Lib Relation List AList

variable (env : MempoolEnv) {m m' m'' : TxMemPool} {stage gone : List Uint256} {r : Uint256}

/-- After the second loop of `UpdateForRemoveFromMempool` for the entries in `gone`. -/
structure Cut (m m' : TxMemPool) (stage gone : List Uint256) (m'' : TxMemPool) : Prop where
  link : ∀ h ∉ stage, m''.mapLinks.lookup h = (m.mapLinks.lookup h).map fun l =>
    ⟨l.parents.filter (· ∉ gone), l.children.filter (· ∉ stage)⟩
  children : ∀ h, m''.GetMemPoolChildren h = m'.GetMemPoolChildren h
  rest : m'' = { m' with mapLinks := m''.mapLinks }

theorem Left.children (h : Left m gone m') (x : Uint256) :
    m'.GetMemPoolChildren x = (m.GetMemPoolChildren x).map fun l => l.filter (· ∉ gone) := by
  rw [GetMemPoolChildren, GetMemPoolChildren, h.link, Option.map_map, Option.map_map]
  rfl

theorem Left.cut (h : Left m stage m') : Cut m m' stage [] m' where
  link := by
    intro x _
    rw [h.link]
    cases m.mapLinks.lookup x with
    | none => rfl
    | some l => simp
  children := fun _ => rfl
  rest := rfl

theorem parents_lookup (hroot : m.Rooted) {x : Uint256} {l : TxLinks} (hx : x ∈ m.mapTx)
    (hl : m.mapLinks.lookup x = some l) : l.parents.Nodup ∧ ∀ p, p ∈ l.parents ↔ m.Parent x p := by
  have hget : m.GetMemPoolParents x = some l.parents := by rw [GetMemPoolParents, hl]; rfl
  obtain ⟨parents, hpars, hnd⟩ := hroot.linked x hx
  cases hget.symm.trans hpars
  refine ⟨hnd, fun p => ⟨fun hp => ⟨_, hget, hp⟩, ?_⟩⟩
  rintro ⟨_, hl', hp⟩
  rwa [Option.some.inj (hget.symm.trans hl')]

theorem Cut.step (hleft : Left m stage m') (h : Cut m m' stage gone m'') (hlink : m.Linked)
    (hrmem : r ∈ m.mapTx) :
    ∃ pool1, m''.UpdateChildrenForRemoval r = some pool1 ∧ Cut m m' stage (gone ++ [r]) pool1 := by
  obtain ⟨lr, hlr⟩ := Table.mem_iff_lookup.mp ((hlink.links r).mpr hrmem)
  obtain ⟨hnd, hcd⟩ := hlink.children_lookup hlr
  have hget : m''.GetMemPoolChildren r = some (lr.children.filter (· ∉ stage)) := by
    rw [h.children, hleft.children, GetMemPoolChildren, hlr]
    rfl
  have hmem : ∀ c ∈ lr.children.filter (· ∉ stage), c ∈ m''.mapLinks := by
    intro c hc
    rw [mem_filter, decide_eq_true_eq] at hc
    have hcmem := (hlink.parent_mem c r ((hcd c).mp hc.1)).1
    rw [← lookup_isSome, h.link c hc.2, Option.isSome_map, lookup_isSome]
    exact (hlink.links c).mpr hcmem
  refine ⟨_, by rw [UpdateChildrenForRemoval, hget, Option.map_some, foldl_UpdateParent], ?_⟩
  have hlk := Table.lookup_foldl_modify (hnd.filter fun c => decide (c ∉ stage)) hmem {}
  refine ⟨fun x hx => ?_, fun x => ?_, ?_⟩
  · simp only [hlk, h.link x hx]
    cases hlx : m.mapLinks.lookup x with
    | none => simp
    | some lx =>
      have hxmem : x ∈ m.mapTx := (hlink.links x).mp (Table.mem_iff_lookup.mpr ⟨lx, hlx⟩)
      obtain ⟨hparNodup, hpar⟩ := parents_lookup hlink.toRooted hxmem hlx
      by_cases hxr : x ∈ lr.children
      · have hin : x ∈ lr.children.filter (· ∉ stage) := mem_filter.mpr ⟨hxr, decide_eq_true hx⟩
        simp only [hin, if_true, Option.map_some, setMember, Bool.false_eq_true, if_false,
          filter_concat_of_mem hparNodup]
      · have hout : x ∉ lr.children.filter (· ∉ stage) := fun hc => hxr (mem_filter.mp hc).1
        have hnot : r ∉ lx.parents := fun hc => hxr ((hcd x).mpr ((hpar r).mp hc))
        simp only [hout, if_false, Option.map_some]
        rw [filter_concat_of_notMem gone hnot]
  · rw [← h.children, GetMemPoolChildren, GetMemPoolChildren, hlk]
    split_ifs
    · rw [Option.map_map]
      rfl
    · rfl
  · rw [h.rest]

def inputs (tx : PoolTx) : List OutPoint := tx.vin.map (·.prevout)

theorem lookup_foldl_erase (vin : List TxIn) (next : Table OutPoint InPoint) (op : OutPoint) :
    (vin.foldl (fun next txin => next.erase txin.prevout) next).lookup op =
      if op ∈ vin.map (·.prevout) then none else next.lookup op := by
  induction vin generalizing next with
  | nil => simp
  | cons txin vin ih =>
    rw [foldl_cons, ih, Table.lookup_erase, map_cons]
    by_cases h1 : op ∈ vin.map (·.prevout) <;> by_cases h2 : op = txin.prevout <;> simp [h1, h2]

/-- One of the removed transactions spends the output. -/
def SpentBy (m : TxMemPool) (gone : List Uint256) (op : OutPoint) : Prop :=
  ∃ r ∈ gone, ∃ e, m.mapTx.lookup r = some e ∧ op ∈ inputs e.tx

/-- The tables without the entries in `gone`; `m'` is in front of the loop. -/
structure Erased (m m' : TxMemPool) (gone : List Uint256) (m'' : TxMemPool) : Prop where
  entry : ∀ h, m''.mapTx.lookup h = if h ∈ gone then none else m'.mapTx.lookup h
  link : ∀ h, m''.mapLinks.lookup h = if h ∈ gone then none else m'.mapLinks.lookup h
  next_gone : ∀ op, SpentBy m gone op → m''.mapNextTx.lookup op = none
  next : ∀ op, ¬ SpentBy m gone op → m''.mapNextTx.lookup op = m.mapNextTx.lookup op
  deltas : m''.mapDeltas = m.mapDeltas
  listed : m''.dspStorage.Listed

theorem removeProof_some (h : m.dspStorage.Listed) (id : ℤ) :
    m.removeProof env id = some { m with dspStorage := m.dspStorage.remove env.Hash id } := by
  rw [removeProof, if_pos (h.removeAsserts id)]

theorem Erased.step (h : Erased m m' gone m'')
    (hent : ∀ x, (m'.mapTx.lookup x).map (·.tx) = (m.mapTx.lookup x).map (·.tx)) (hr : r ∉ gone)
    (hrmem : r ∈ m.mapTx) :
    ∃ pool1, m''.removeUnchecked env r = some pool1 ∧ Erased m m' (gone ++ [r]) pool1 := by
  obtain ⟨e, he⟩ := mem_mapTx.mp hrmem
  obtain ⟨e', he', htx⟩ : ∃ e', m'.mapTx.lookup r = some e' ∧ e'.tx = e.tx := by
    have := hent r
    rw [he, Option.map_some, Option.map_eq_some_iff] at this
    exact this
  have hlk : m''.mapTx.lookup r = some e' := by rw [h.entry, if_neg hr, he']
  have hspt : ∀ op, SpentBy m (gone ++ [r]) op ↔ SpentBy m gone op ∨ op ∈ inputs e.tx := by
    intro op
    simp only [SpentBy, mem_append, mem_singleton]
    constructor
    · rintro ⟨x, hx | rfl, ex, hex, hop⟩
      · exact Or.inl ⟨x, hx, ex, hex, hop⟩
      · exact Or.inr (Option.some.inj (he.symm.trans hex) ▸ hop)
    · rintro (⟨x, hx, ex, hex, hop⟩ | hop)
      · exact ⟨x, Or.inl hx, ex, hex, hop⟩
      · exact ⟨r, Or.inr rfl, e, he, hop⟩
  obtain ⟨storage, hstg, hlst⟩ : ∃ storage,
      (if e'.dsproof ≠ -1 then m''.removeProof env e'.dsproof else some m'') =
        some { m'' with dspStorage := storage } ∧ storage.Listed := by
    split_ifs
    · exact ⟨_, removeProof_some env h.listed _, h.listed.remove _⟩
    · exact ⟨_, rfl, h.listed⟩
  refine ⟨_, by rw [removeUnchecked, hlk, Option.bind_some, hstg]; rfl, ?_⟩
  have hnext : ∀ op,
      (e'.tx.vin.foldl (fun next txin => next.erase txin.prevout) m''.mapNextTx).lookup op =
      if op ∈ inputs e.tx then none else m''.mapNextTx.lookup op := by
    intro op
    rw [lookup_foldl_erase, htx]
    rfl
  have herase : ∀ {ν : Type} (t t' : Table Uint256 ν), (∀ x, t.lookup x =
      if x ∈ gone then none else t'.lookup x) →
      ∀ x, (t.erase r).lookup x = if x ∈ gone ++ [r] then none else t'.lookup x := by
    intro ν t t' ht x
    rw [Table.lookup_erase, ht]
    by_cases h1 : x = r <;> by_cases h2 : x ∈ gone <;> simp [h1, h2]
  refine ⟨herase _ _ h.entry, herase _ _ h.link, fun op hop => ?_, fun op hop => ?_, h.deltas, hlst⟩
  · simp only [hnext]
    split_ifs with hin
    · rfl
    · exact h.next_gone op (((hspt op).mp hop).resolve_right hin)
  · rw [hspt, not_or] at hop
    simp only [hnext, if_neg hop.2]
    exact h.next op hop.1

theorem erased_all (hent : ∀ x, (m'.mapTx.lookup x).map (·.tx) = (m.mapTx.lookup x).map (·.tx))
    (hnext : m'.mapNextTx = m.mapNextTx) (hdls : m'.mapDeltas = m.mapDeltas)
    (hlst : m'.dspStorage.Listed) (hnd : stage.Nodup) (hmem : ∀ x ∈ stage, x ∈ m.mapTx) :
    ∃ m'', stage.foldlM (removeUnchecked env) m' = some m'' ∧ Erased m m' stage m'' := by
  refine Loops.foldlM_grow (P := Erased m m') (fun done r rest m'' hstg hers => ?_)
    ⟨by simp, by simp, fun op ⟨_, hx, _⟩ => absurd hx (by simp), fun op _ => by rw [hnext], hdls, hlst⟩
  exact hers.step env hent (notMem_of_nodup (hstg ▸ hnd)) (hmem r (by simp [hstg]))

/-- The mempool without some entries, all tables adjusted. -/
structure Removed (m : TxMemPool) (gone : List Uint256) (m' : TxMemPool) : Prop where
  entry : ∀ h, m'.mapTx.lookup h = if h ∈ gone then none else (m.mapTx.lookup h).map (m.reduced gone h)
  link : ∀ h, m'.mapLinks.lookup h = if h ∈ gone then none else (m.mapLinks.lookup h).map fun l =>
    ⟨l.parents.filter (· ∉ gone), l.children.filter (· ∉ gone)⟩
  next_gone : ∀ op, SpentBy m gone op → m'.mapNextTx.lookup op = none
  next : ∀ op, ¬ SpentBy m gone op → m'.mapNextTx.lookup op = m.mapNextTx.lookup op
  deltas : m'.mapDeltas = m.mapDeltas
  listed : m'.dspStorage.Listed

/-- No assertion fails, and exactly the staged entries are gone. -/
theorem RemoveStaged_spec (hlink : m.Linked) (hcov : m.Covered) (hlst : m.dspStorage.Listed)
    (hnd : stage.Nodup) (hmem : ∀ x ∈ stage, x ∈ m.mapTx) :
    ∃ m', m.RemoveStaged env stage = some m' ∧ Removed m stage m' := by
  obtain ⟨pool1, hpool1, hleft⟩ := left_all hlink hcov hnd hmem
  obtain ⟨pool2, hpool2, hcut⟩ :
      ∃ pool2, stage.foldlM UpdateChildrenForRemoval pool1 = some pool2 ∧
        Cut m pool1 stage stage pool2 :=
    Loops.foldlM_grow (P := Cut m pool1 stage)
      (fun done r rest _ hstg hcut => hcut.step hleft hlink (hmem r (by simp [hstg]))) hleft.cut
  have hmapTx : pool2.mapTx = pool1.mapTx := by rw [hcut.rest]
  have hent : ∀ x, (pool2.mapTx.lookup x).map (·.tx) = (m.mapTx.lookup x).map (·.tx) := by
    intro x
    rw [hmapTx, hleft.entry, Option.map_map]
    rfl
  have hrest : pool2.mapNextTx = m.mapNextTx ∧ pool2.mapDeltas = m.mapDeltas ∧
      pool2.dspStorage = m.dspStorage := by
    rw [hcut.rest, hleft.rest]
    exact ⟨rfl, rfl, rfl⟩
  obtain ⟨pool3, hpool3, hers⟩ := erased_all env hent hrest.1 hrest.2.1 (hrest.2.2 ▸ hlst) hnd hmem
  refine ⟨pool3, ?_, ?_⟩
  · rw [RemoveStaged, UpdateForRemoveFromMempool, hpool1, Option.bind_some, hpool2,
      Option.bind_some, hpool3]
  · refine ⟨fun x => ?_, fun x => ?_, hers.next_gone, hers.next, hers.deltas, hers.listed⟩
    · rw [hers.entry, hmapTx, hleft.entry]
    · rw [hers.link]
      split_ifs with hx
      · rfl
      · exact hcut.link x hx

/-! ### What a removal keeps -/

namespace Removed

variable (h : Removed m gone m') {x : Uint256}
include h

theorem mem : x ∈ m'.mapTx ↔ x ∈ m.mapTx ∧ x ∉ gone := by
  rw [← lookup_isSome, ← lookup_isSome, h.entry]
  split_ifs with hx
  · simp [hx]
  · simp [hx]

theorem nodes : m'.nodes = m.nodes \ gone.toFinset := by
  ext x
  rw [mem_nodes, h.mem, Finset.mem_sdiff, mem_nodes, mem_toFinset]

theorem lookup (hx : x ∉ gone) : m'.mapTx.lookup x = (m.mapTx.lookup x).map (m.reduced gone x) := by
  rw [h.entry, if_neg hx]

theorem lookup_inv {e' : TxMemPoolEntry} (hx : m'.mapTx.lookup x = some e') :
    x ∉ gone ∧ ∃ e, m.mapTx.lookup x = some e ∧ e' = m.reduced gone x e := by
  have hgone : x ∉ gone := (h.mem.mp (mem_mapTx.mpr ⟨e', hx⟩)).2
  rw [h.lookup hgone, Option.map_eq_some_iff] at hx
  obtain ⟨e, he, rfl⟩ := hx
  exact ⟨hgone, e, he, rfl⟩

theorem parents (c : Uint256) :
    m'.GetMemPoolParents c = if c ∈ gone then none else (m.GetMemPoolParents c).map fun l =>
      l.filter (· ∉ gone) := by
  rw [GetMemPoolParents, GetMemPoolParents, h.link]
  split_ifs
  · rfl
  · rw [Option.map_map, Option.map_map]
    rfl

theorem children (p : Uint256) :
    m'.GetMemPoolChildren p = if p ∈ gone then none else (m.GetMemPoolChildren p).map fun l =>
      l.filter (· ∉ gone) := by
  rw [GetMemPoolChildren, GetMemPoolChildren, h.link]
  split_ifs
  · rfl
  · rw [Option.map_map, Option.map_map]
    rfl

omit h in
/-- A table of which some rows are gone, and the same ones from the rows that are left. -/
theorem edge_iff {next next' : Uint256 → Option (List Uint256)}
    (hnext : ∀ a, next' a = if a ∈ gone then none else (next a).map fun l => l.filter (· ∉ gone))
    (a b : Uint256) :
    Worklist.Edge next' a b ↔ Worklist.Edge next a b ∧ a ∉ gone ∧ b ∉ gone := by
  rw [Worklist.Edge, hnext]
  split_ifs with ha
  · simp [ha]
  · simp only [Option.map_eq_some_iff, ha, not_false_eq_true, true_and, Worklist.Edge]
    constructor
    · rintro ⟨_, ⟨l, hl, rfl⟩, hb⟩
      rw [mem_filter, decide_eq_true_eq] at hb
      exact ⟨⟨l, hl, hb.1⟩, hb.2⟩
    · rintro ⟨⟨l, hl, hb⟩, hgone⟩
      exact ⟨_, ⟨l, hl, rfl⟩, mem_filter.mpr ⟨hb, decide_eq_true hgone⟩⟩

theorem parent_iff (c p : Uint256) : m'.Parent c p ↔ m.Parent c p ∧ c ∉ gone ∧ p ∉ gone :=
  edge_iff h.parents c p

theorem child_iff (p c : Uint256) : m'.Child p c ↔ m.Child p c ∧ p ∉ gone ∧ c ∉ gone :=
  edge_iff h.children p c

theorem without : Lineage.Without m.Parent m'.Parent gone.toFinset := by
  intro d p
  rw [h.parent_iff, mem_toFinset, mem_toFinset]

theorem linked (hlink : m.Linked) : m'.Linked where
  linked := by
    intro x hx
    obtain ⟨hmem, hgone⟩ := h.mem.mp hx
    obtain ⟨l, hl, hnd⟩ := hlink.linked x hmem
    exact ⟨_, by rw [h.parents, if_neg hgone, hl]; rfl, hnd.filter _⟩
  parent_mem := by
    intro c p hcp
    obtain ⟨hpar, hc, hp⟩ := (h.parent_iff c p).mp hcp
    obtain ⟨hcmem, hpmem⟩ := hlink.parent_mem c p hpar
    exact ⟨h.mem.mpr ⟨hcmem, hc⟩, h.mem.mpr ⟨hpmem, hp⟩⟩
  rank := by
    obtain ⟨rank, hrank⟩ := hlink.rank
    exact ⟨rank, fun c p hcp => hrank c p ((h.parent_iff c p).mp hcp).1⟩
  key := by
    intro x e' hx
    obtain ⟨-, e, he, rfl⟩ := h.lookup_inv hx
    exact hlink.key x e he
  links := by
    intro x
    rw [h.mem, ← hlink.links, ← lookup_isSome, ← lookup_isSome, h.link]
    split_ifs with hx
    · simp [hx]
    · simp [hx]
  children := by
    intro p l hl
    rw [h.children] at hl
    split_ifs at hl
    obtain ⟨l', hl', rfl⟩ := Option.map_eq_some_iff.mp hl
    exact (hlink.children p l' hl').filter _
  child_iff := by
    intro p c
    rw [h.child_iff, h.parent_iff, hlink.child_iff, @and_comm (p ∉ gone)]

theorem sizeOf (hx : x ∉ gone) : m'.sizeOf x = m.sizeOf x := by
  rw [TxMemPool.sizeOf, TxMemPool.sizeOf, h.lookup hx]
  cases m.mapTx.lookup x <;> rfl

theorem feeOf (hx : x ∉ gone) : m'.feeOf x = m.feeOf x := by
  rw [TxMemPool.feeOf, TxMemPool.feeOf, h.lookup hx]
  cases m.mapTx.lookup x <;> rfl

theorem family_subset (x : Uint256) : m'.family x ⊆ m.family x \ gone.toFinset := by
  rw [family, h.nodes]
  exact h.without.family_subset

end Removed

/-- What an entry that stays loses is the share of its family that is gone. -/
theorem Rooted.sum_sdiff {M : Type*} [AddCommMonoid M] (hroot : m.Rooted)
    (hmem : ∀ x ∈ gone, x ∈ m.mapTx) {x : Uint256} (hx : x ∉ gone) (w : Uint256 → M) :
    ∑ d ∈ m.family x \ gone.toFinset, w d + m.lost gone w x = ∑ d ∈ m.family x, w d := by
  classical
  have hset : gone.toFinset.filter (fun r => TransGen m.Parent r x) = m.family x ∩ gone.toFinset := by
    ext r
    rw [Finset.mem_filter, Finset.mem_inter, mem_toFinset, family, Lineage.mem_family, mem_nodes,
      hroot.transGen_iff]
    constructor
    · rintro ⟨hr, hrch, -⟩
      exact ⟨⟨hmem r hr, hrch⟩, hr⟩
    · rintro ⟨⟨-, hrch⟩, hr⟩
      exact ⟨hr, hrch, fun hc => hx (hc ▸ hr)⟩
  rw [lost, hset, add_comm, Finset.sum_inter_add_sum_sdiff]

theorem Removed.covered (h : Removed m gone m') (hroot : m.Rooted) (hcov : m.Covered)
    (hmem : ∀ x ∈ gone, x ∈ m.mapTx) : m'.Covered where
  size_pos := by
    intro x e' hx
    obtain ⟨-, e, he, rfl⟩ := h.lookup_inv hx
    exact hcov.size_pos x e he
  size := by
    intro x e' hx
    obtain ⟨hgone, e, he, rfl⟩ := h.lookup_inv hx
    have hsum := hroot.sum_sdiff hmem hgone m.sizeOf
    have htot := hcov.size x e he
    have hsame : ∑ d ∈ m'.family x, m'.sizeOf d = ∑ d ∈ m'.family x, m.sizeOf d :=
      Finset.sum_congr rfl fun d hd =>
        h.sizeOf (by simpa using (Finset.mem_sdiff.mp (h.family_subset x hd)).2)
    have hle : ∑ d ∈ m'.family x, m.sizeOf d ≤ ∑ d ∈ m.family x \ gone.toFinset, m.sizeOf d :=
      Finset.sum_le_sum_of_subset_of_nonneg (h.family_subset x) fun d _ _ => sizeOf_nonneg d
    show _ ≤ e.nSizeWithDescendants + -m.lost gone m.sizeOf x
    omega
  count := by
    intro x e' hx
    obtain ⟨hgone, e, he, rfl⟩ := h.lookup_inv hx
    have hsum := hroot.sum_sdiff hmem hgone fun _ => (1 : ℤ)
    have htot := hcov.count x e he
    have hle := Finset.card_le_card (h.family_subset x)
    rw [Finset.sum_const, Finset.sum_const, nsmul_eq_mul, nsmul_eq_mul, mul_one, mul_one] at hsum
    show _ ≤ e.nCountWithDescendants + -m.lost gone (fun _ => 1) x
    omega

end FloweeHub.TxMemPool
