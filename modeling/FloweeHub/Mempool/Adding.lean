import FloweeHub.Mempool.Sound

/-! Adding a transaction to the mempool. `addUnchecked` links the new entry to its parents and adds
its share to the totals of all its ancestors. -/

namespace FloweeHub

open Lib Relation List Option Table Or

namespace TxMemPoolEntry

/-- An entry as one of the two constructors makes it. -/
def Fresh (e : TxMemPoolEntry) : Prop := e = ofTx e.tx e.nFee ∨ e = ofFee e.tx e.nFee

/-- The totals of an entry without descendants. -/
structure Alone (e : TxMemPoolEntry) : Prop where
  size_pos : 0 < e.nTxSize
  size : e.nSizeWithDescendants = e.nTxSize
  count : e.nCountWithDescendants = 1

theorem Fresh.alone {e : TxMemPoolEntry} (h : e.Fresh) : e.Alone := by
  rcases h with h | h <;> rw [h] <;> exact ⟨e.tx.size_pos, rfl, rfl⟩

theorem Fresh.dsproof {e : TxMemPoolEntry} (h : e.Fresh) : e.dsproof = -1 := by
  rcases h with h | h <;> rw [h] <;> rfl

theorem Fresh.feeDelta {e : TxMemPoolEntry} (h : e.Fresh) : e.feeDelta = 0 := by
  rcases h with h | h <;> rw [h] <;> rfl

end TxMemPoolEntry

namespace TxMemPool

variable {m m' : TxMemPool} {ent fin : TxMemPoolEntry} {tx : PoolTx} {a : Uint256}

/-! ### The tables after `addUnchecked` -/

/-- The ancestors that a new transaction would have. -/
def Above (m : TxMemPool) (tx : PoolTx) (x : Uint256) : Prop :=
  ∃ p ∈ m.searchParents tx, ReflTransGen m.Parent p x

open Classical in
/-- The totals of an old entry with the share of the new one. -/
noncomputable def raised (m : TxMemPool) (entry : TxMemPoolEntry) (x : Uint256)
    (e : TxMemPoolEntry) : TxMemPoolEntry :=
  if m.Above entry.tx x then
    e.changed entry.nTxSize (m.newEntry entry.tx.hash entry).GetModifiedFee 1 else e

def adopted (m : TxMemPool) (tx : PoolTx) (x : Uint256) (children : List Uint256) : List Uint256 :=
  if x ∈ m.searchParents tx then children.insert tx.hash else children

/-- The mempool with one more entry, that is `fin` in the end. -/
structure Added (m : TxMemPool) (entry fin : TxMemPoolEntry) (m' : TxMemPool) : Prop where
  found : ∀ x, m'.mapTx.lookup x = if x = entry.tx.hash then some fin else (m.mapTx.lookup x).map
    (m.raised entry x)
  link_new : ∃ parents, m'.mapLinks.lookup entry.tx.hash = some ⟨parents, []⟩ ∧ parents.Nodup ∧
    ∀ p, p ∈ parents ↔ p ∈ m.searchParents entry.tx
  link : ∀ x, x ≠ entry.tx.hash → m'.mapLinks.lookup x = (m.mapLinks.lookup x).map fun l =>
    { l with children := m.adopted entry.tx x l.children }
  next_new : ∀ op ∈ inputs entry.tx, ∃ n, m'.mapNextTx.lookup op = some ⟨entry.tx, n⟩ ∧
    (entry.tx.vin[n]?).map (·.prevout) = some op
  next : ∀ op, op ∉ inputs entry.tx → m'.mapNextTx.lookup op = m.mapNextTx.lookup op
  deltas : m'.mapDeltas = m.mapDeltas

section Raised

variable {x : Uint256}

theorem raised_of_above (h : m.Above ent.tx x) :
    m.raised ent x = fun e => e.changed ent.nTxSize (m.newEntry ent.tx.hash ent).GetModifiedFee 1 := by
  funext e
  rw [raised, if_pos h]

theorem raised_of_not_above (h : ¬ m.Above ent.tx x) : m.raised ent x = id := by
  funext e
  rw [raised, if_neg h, id]

variable (x) (e : TxMemPoolEntry)

theorem raised_tx : (m.raised ent x e).tx = e.tx := by
  rw [raised]
  split_ifs <;> rfl

theorem raised_nTxSize : (m.raised ent x e).nTxSize = e.nTxSize := by
  rw [raised]
  split_ifs <;> rfl

theorem raised_GetModifiedFee : (m.raised ent x e).GetModifiedFee = e.GetModifiedFee := by
  rw [raised]
  split_ifs <;> rfl

end Raised

theorem mem_adopted {x c : Uint256} {children : List Uint256} :
    c ∈ m.adopted tx x children ↔ c ∈ children ∨ c = tx.hash ∧ x ∈ m.searchParents tx := by
  rw [adopted]
  split_ifs with hx
  · simp [hx, or_comm]
  · simp [hx]

theorem nodup_adopted {x : Uint256} {children : List Uint256} (h : children.Nodup) :
    (m.adopted tx x children).Nodup := by
  rw [adopted]
  split_ifs
  · exact h.insert
  · exact h

theorem nodup_searchParents (tx : PoolTx) : (m.searchParents tx).Nodup := (nodup_dedup _).filter _

theorem mem_searchParents {p : Uint256} :
    p ∈ m.searchParents tx ↔ (∃ op ∈ inputs tx, op.hash = p) ∧ p ∈ m.mapTx := by
  rw [searchParents, mem_filter, mem_dedup, decide_eq_true_eq, inputs]
  simp

theorem input_hash_ne {op : OutPoint} (h : op ∈ inputs tx) : op.hash ≠ tx.hash := by
  obtain ⟨txin, htxin, rfl⟩ := mem_map.mp h
  exact tx.other_ids txin htxin

theorem hash_notMem_searchParents (tx : PoolTx) : tx.hash ∉ m.searchParents tx := by
  rw [mem_searchParents]
  rintro ⟨⟨op, hop, hhash⟩, -⟩
  exact input_hash_ne hop hhash

/-- The own id is no parent, so that the search gives the same after the insertion. -/
theorem searchParents_insert (tx : PoolTx) (e : TxMemPoolEntry) (links : Table Uint256 TxLinks)
    (next : Table OutPoint InPoint) :
    ({ m with mapTx := m.mapTx.insert tx.hash e, mapLinks := links, mapNextTx := next } :
      TxMemPool).searchParents tx = m.searchParents tx := by
  refine filter_congr fun p hp => ?_
  obtain ⟨txin, htxin, rfl⟩ := mem_map.mp (mem_dedup.mp hp)
  have hne := tx.other_ids txin htxin
  simp [AList.mem_insert, hne]

theorem newEntry_fields (m : TxMemPool) (hash : Uint256) (ent : TxMemPoolEntry) :
    (m.newEntry hash ent).tx = ent.tx ∧ (m.newEntry hash ent).nTxSize = ent.nTxSize ∧
      (ent.Alone → (m.newEntry hash ent).Alone) := by
  rw [newEntry]
  cases m.mapDeltas.lookup hash with
  | none => exact ⟨rfl, rfl, id⟩
  | some delta =>
    simp only
    split_ifs
    · exact ⟨rfl, rfl, fun h => ⟨h.size_pos, h.size, h.count⟩⟩
    · exact ⟨rfl, rfl, id⟩

theorem foldl_UpdateParent_same (it : Uint256) (parents : List Uint256) (m : TxMemPool) (l : TxLinks)
    (hl : m.mapLinks.lookup it = some l) :
    ∃ links : Table Uint256 TxLinks, parents.foldl (fun m phash => m.UpdateParent it phash true) m =
      { m with mapLinks := links } ∧ (∀ x, x ≠ it → links.lookup x = m.mapLinks.lookup x) ∧
      ∃ ps, links.lookup it = some { l with parents := ps } ∧ (l.parents.Nodup → ps.Nodup) ∧
        ∀ p, p ∈ ps ↔ p ∈ l.parents ∨ p ∈ parents := by
  induction parents generalizing m l with
  | nil => exact ⟨m.mapLinks, rfl, fun _ _ => rfl, l.parents, hl, id, by simp⟩
  | cons a parents ih =>
    have hlk : (m.UpdateParent it a true).mapLinks.lookup it =
        some { l with parents := l.parents.insert a } := by
      simp [UpdateParent, Table.modify, setMember, hl]
    obtain ⟨links, hfold, hoth, ps, hps, hnd, hmem⟩ := ih (m.UpdateParent it a true) _ hlk
    refine ⟨links,
      by rw [foldl_cons, hfold]; rfl, fun x hx => ?_, ps, hps, fun h => hnd (h.insert), fun p => ?_⟩
    · rw [hoth x hx, UpdateParent, Table.modify, Table.lookup_insert, if_neg hx]
    · rw [hmem, mem_insert_iff, mem_cons]
      tauto

theorem lookup_foldl_insert (tx : PoolTx) (vin : List TxIn) (k : ℕ) (next : Table OutPoint InPoint)
    (hvin : ∀ i, vin[i]? = tx.vin[k + i]?) (op : OutPoint) : (op ∈ vin.map (·.prevout) → ∃ n,
      ((vin.zipIdx k).foldl (fun next e => next.insert e.1.prevout ⟨tx, e.2⟩) next).lookup op =
        some ⟨tx, n⟩ ∧ (tx.vin[n]?).map (·.prevout) = some op) ∧ (op ∉ vin.map (·.prevout) →
      ((vin.zipIdx k).foldl (fun next e => next.insert e.1.prevout ⟨tx, e.2⟩) next).lookup op =
        next.lookup op) := by
  induction vin generalizing k next with
  | nil => simp
  | cons txin vin ih =>
    have hrest : ∀ i, vin[i]? = tx.vin[k + 1 + i]? := by
      intro i
      have h := hvin (i + 1)
      rw [getElem?_cons_succ] at h
      rw [h]
      congr 1
      omega
    have hhead : tx.vin[k]? = some txin := by simpa using (hvin 0).symm
    rw [zipIdx_cons, foldl_cons]
    obtain ⟨hin, hout⟩ := ih (k + 1) (next.insert txin.prevout ⟨tx, k⟩) hrest
    constructor
    · intro hop
      by_cases hlat : op ∈ vin.map (·.prevout)
      · exact hin hlat
      · have hnow : op = txin.prevout := by simpa [hlat] using hop
        refine ⟨k, ?_, by rw [hhead, hnow]; rfl⟩
        rw [hout hlat, lookup_insert, if_pos hnow]
    · intro hop
      rw [map_cons, mem_cons, not_or] at hop
      rw [hout hop.2, lookup_insert, if_neg hop.1]

theorem Linked.above_mem (hlinked : m.Linked) (h : m.Above tx a) : a ∈ m.mapTx := by
  obtain ⟨p, hp, hrch⟩ := h
  exact hlinked.reach_mem (mem_searchParents.mp hp).2 hrch

theorem Covered.updateState_add (hcov : m.Covered) (hroot : m.Rooted) {e : TxMemPoolEntry}
    (ha : m.mapTx.lookup a = some e) (size : ℕ) (fee : BitVec 64) (count : ℕ) :
    e.UpdateState size fee count = some (e.changed size fee count) := by
  have hpos := hcov.count_pos hroot ha
  exact updateState_of_pos fee hpos.2.ne' (by omega)

theorem Sound.addUnchecked (h : m.Sound) (hnew : ent.tx.hash ∉ m.mapTx) :
    ∃ m', m.addUnchecked ent.tx.hash ent = some m' ∧
      Added m ent (m.newEntry ent.tx.hash ent) m' ∧ m'.dspStorage = m.dspStorage := by
  have hlinked := h.linked
  obtain ⟨ancestors, hancs, hancNodup, habv⟩ :=
    hlinked.ancestorsFrom (nodup_searchParents ent.tx) fun p hp => (mem_searchParents.mp hp).2
  have hne : ∀ a, m.Above ent.tx a → a ≠ ent.tx.hash := fun a ha hc => hnew (hc ▸ hlinked.above_mem ha)
  let pool1 : TxMemPool := { m with
    mapTx := m.mapTx.insert ent.tx.hash (m.newEntry ent.tx.hash ent)
    mapLinks := m.mapLinks.insert ent.tx.hash {}
    mapNextTx := ent.tx.vin.zipIdx.foldl (fun next e => next.insert e.1.prevout ⟨ent.tx, e.2⟩)
      m.mapNextTx }
  have hpars : pool1.searchParents ent.tx = m.searchParents ent.tx := searchParents_insert _ _ _ _
  obtain ⟨links, hfold, hoth, ps, hps, hpsNodup, hpsMem⟩ :=
    foldl_UpdateParent_same ent.tx.hash (m.searchParents ent.tx) pool1 {} (by simp [pool1])
  have hpsMem : ∀ p, p ∈ ps ↔ p ∈ m.searchParents ent.tx := by simpa using hpsMem
  have hpsNodup : ps.Nodup := hpsNodup nodup_nil
  have hpsLinks : ∀ p ∈ ps, p ∈ links := by
    intro p hp
    have hsrch := (hpsMem p).mp hp
    have hp' : p ≠ ent.tx.hash := fun hc => hash_notMem_searchParents ent.tx (hc ▸ hsrch)
    rw [← AList.lookup_isSome, hoth p hp', lookup_insert, if_neg hp', AList.lookup_isSome,
      hlinked.links]
    exact (mem_searchParents.mp hsrch).2
  let links' := ps.foldl (fun t piter => t.modify piter {} fun links =>
    { links with children := setMember true ent.tx.hash links.children }) links
  have hlinksNew : ∀ x, links'.lookup x =
      if x ∈ ps then (links.lookup x).map fun l =>
        { l with children := l.children.insert ent.tx.hash } else links.lookup x :=
    lookup_foldl_modify hpsNodup hpsLinks _ _
  obtain ⟨mapTx, htotals, hlk⟩ := modifyTotals_all { pool1 with mapLinks := links' } hancNodup
    ent.nTxSize (m.newEntry ent.tx.hash ent).GetModifiedFee 1 fun a ha => by
      have haboveA := (habv a).mp ha
      obtain ⟨e, he⟩ := mem_mapTx.mp (hlinked.above_mem haboveA)
      refine ⟨e, ?_, h.covered.updateState_add hlinked.toRooted he _ _ 1⟩
      rw [lookup_insert, if_neg (hne a haboveA), he]
  refine ⟨{ pool1 with mapLinks := links', mapTx := mapTx }, ?_, ⟨fun x => ?_,
    ⟨ps, ?_, hpsNodup, hpsMem⟩, fun x hx => ?_, fun op hop => ?_, fun op hop => ?_, rfl⟩, rfl⟩
  · have hget : ({ pool1 with mapLinks := links } : TxMemPool).GetMemPoolParents ent.tx.hash =
        some ps := by
      rw [GetMemPoolParents, hps]
      rfl
    have hent : ({ pool1 with mapLinks := links } : TxMemPool).mapTx.lookup ent.tx.hash =
        some (m.newEntry ent.tx.hash ent) := by
      rw [lookup_insert, if_pos rfl]
    rw [TxMemPool.addUnchecked, hancs, bind_some]
    show ((pool1.searchParents ent.tx).foldl (fun m phash => m.UpdateParent ent.tx.hash phash true)
      pool1).UpdateAncestorsOf
      true ent.tx.hash ancestors = _
    rw [hpars, hfold, UpdateAncestorsOf, hget, bind_some, hent]
    simp only [bind_some, foldl_UpdateChild, if_true, one_mul, (newEntry_fields m ent.tx.hash ent).2.1]
    exact htotals
  · rw [hlk]
    rw [lookup_insert]
    by_cases hx : x = ent.tx.hash
    · have hnot : x ∉ ancestors := fun hc => hne x ((habv x).mp hc) hx
      rw [if_neg hnot, if_pos hx, if_pos hx]
    · rw [if_neg hx, if_neg hx]
      by_cases hxa : x ∈ ancestors
      · have hxabove : m.Above ent.tx x := (habv x).mp hxa
        rw [if_pos hxa, raised_of_above hxabove]
      · have hxabove : ¬ m.Above ent.tx x := fun hc => hxa ((habv x).mpr hc)
        rw [if_neg hxa, raised_of_not_above hxabove, Option.map_id_fun, id]
  · have hnot : ent.tx.hash ∉ ps := fun hc => hash_notMem_searchParents ent.tx ((hpsMem _).mp hc)
    rw [hlinksNew, if_neg hnot, hps]
  · rw [hlinksNew, hoth x hx]
    rw [lookup_insert, if_neg hx]
    by_cases hxp : x ∈ ps
    · simp only [hxp, if_true, adopted, (hpsMem x).mp hxp]
    · have hnot : x ∉ m.searchParents ent.tx := fun hc => hxp ((hpsMem x).mpr hc)
      simp [hxp, adopted, hnot]
  · exact (lookup_foldl_insert ent.tx ent.tx.vin 0 m.mapNextTx (by simp) op).1 hop
  · exact (lookup_foldl_insert ent.tx ent.tx.vin 0 m.mapNextTx (by simp) op).2 hop

/-! ### What an addition keeps -/

/-- The entry in the end differs from the new one in its fee and its proof only. -/
structure Settles (entry fin : TxMemPoolEntry) : Prop where
  tx : fin.tx = entry.tx
  size : fin.nTxSize = entry.nTxSize
  alone : fin.Alone

namespace Added

variable (h : Added m ent fin m')
include h

theorem lookup_new : m'.mapTx.lookup ent.tx.hash = some fin := by
  rw [h.found, if_pos rfl]

theorem lookup_inv {x : Uint256} {e' : TxMemPoolEntry} (hx : m'.mapTx.lookup x = some e') :
    x = ent.tx.hash ∧ e' = fin ∨ x ≠ ent.tx.hash ∧ ∃ e, m.mapTx.lookup x = some e ∧
      e' = m.raised ent x e := by
  rw [h.found] at hx
  split_ifs at hx with hself
  · exact inl ⟨hself, (some.inj hx).symm⟩
  · obtain ⟨e, he, rfl⟩ := map_eq_some_iff.mp hx
    exact inr ⟨hself, e, he, rfl⟩

theorem mem {x : Uint256} : x ∈ m'.mapTx ↔ x = ent.tx.hash ∨ x ∈ m.mapTx := by
  rw [← AList.lookup_isSome, ← AList.lookup_isSome, h.found]
  split_ifs with hx
  · simp [hx]
  · simp [hx]

theorem nodes : m'.nodes = insert ent.tx.hash m.nodes := by
  ext x
  rw [mem_nodes, h.mem, Finset.mem_insert, mem_nodes]

theorem sizeOf {x : Uint256} (hx : x ≠ ent.tx.hash) : m'.sizeOf x = m.sizeOf x := by
  rw [TxMemPool.sizeOf, TxMemPool.sizeOf, h.found, if_neg hx]
  cases m.mapTx.lookup x with
  | none => rfl
  | some e => simp only [map_some, elim_some, raised_nTxSize]

theorem feeOf {x : Uint256} (hx : x ≠ ent.tx.hash) : m'.feeOf x = m.feeOf x := by
  rw [TxMemPool.feeOf, TxMemPool.feeOf, h.found, if_neg hx]
  cases m.mapTx.lookup x with
  | none => rfl
  | some e => simp only [map_some, elim_some, raised_GetModifiedFee]

theorem parents {x : Uint256} (hx : x ≠ ent.tx.hash) :
    m'.GetMemPoolParents x = m.GetMemPoolParents x := by
  rw [GetMemPoolParents, GetMemPoolParents, h.link x hx, Option.map_map]
  rfl

variable (hnew : ent.tx.hash ∉ m.mapTx) (hlinked : m.Linked)
include hnew hlinked

theorem parent_iff (d p : Uint256) :
    m'.Parent d p ↔ m.Parent d p ∨ d = ent.tx.hash ∧ p ∈ m.searchParents ent.tx := by
  by_cases hd : d = ent.tx.hash
  · have hold : ¬ m.Parent d p := fun hc => hnew (hd ▸ (hlinked.parent_mem d p hc).1)
    obtain ⟨ps, hps, -, hmem⟩ := h.link_new
    have hget : m'.GetMemPoolParents d = some ps := by rw [GetMemPoolParents, hd, hps]; rfl
    constructor
    · rintro ⟨ps', hps', hp⟩
      cases hget.symm.trans hps'
      exact inr ⟨hd, (hmem p).mp hp⟩
    · rintro (hc | ⟨-, hp⟩)
      · exact absurd hc hold
      · exact ⟨ps, hget, (hmem p).mpr hp⟩
  · simp only [Parent, Worklist.Edge, h.parents hd, hd, false_and, or_false]

theorem grows : Lineage.Grows m.Parent m'.Parent ent.tx.hash (m.searchParents ent.tx) where
  old := by
    intro d p hdp
    obtain ⟨hd, hp⟩ := hlinked.parent_mem d p hdp
    exact ⟨fun hc => hnew (hc ▸ hd), fun hc => hnew (hc ▸ hp)⟩
  other := hash_notMem_searchParents _
  iff := h.parent_iff hnew hlinked

omit hnew hlinked in
theorem children (x : Uint256) : m'.GetMemPoolChildren x =
    if x = ent.tx.hash then some [] else (m.GetMemPoolChildren x).map (m.adopted ent.tx x) := by
  split_ifs with hx
  · obtain ⟨ps, hps, -⟩ := h.link_new
    rw [GetMemPoolChildren, hx, hps]
    rfl
  · rw [GetMemPoolChildren, GetMemPoolChildren, h.link x hx, Option.map_map, Option.map_map]
    rfl

theorem child_iff (p c : Uint256) : m'.Child p c ↔ m'.Parent c p := by
  rw [h.parent_iff hnew hlinked, ← hlinked.child_iff, Child, Worklist.Edge, h.children]
  by_cases hp : p = ent.tx.hash
  · have hold : ¬ m.Child p c :=
      fun hc => hnew (hp ▸ (hlinked.parent_mem c p ((hlinked.child_iff p c).mp hc)).2)
    have hnot : p ∉ m.searchParents ent.tx := hp ▸ hash_notMem_searchParents _
    simp [hp, hp ▸ hold, hp ▸ hnot]
  · simp only [if_neg hp, map_eq_some_iff, Child, Worklist.Edge]
    constructor
    · rintro ⟨_, ⟨l, hl, rfl⟩, hc⟩
      rcases mem_adopted.mp hc with hc | hc
      · exact inl ⟨l, hl, hc⟩
      · exact inr hc
    · rintro (⟨l, hl, hc⟩ | ⟨hc, hsrch⟩)
      · exact ⟨_, ⟨l, hl, rfl⟩, mem_adopted.mpr (inl hc)⟩
      · obtain ⟨l, hl⟩ := mem_iff_lookup.mp ((hlinked.links p).mpr (mem_searchParents.mp hsrch).2)
        exact ⟨_, ⟨l.children, by rw [GetMemPoolChildren, hl]; rfl, rfl⟩,
          mem_adopted.mpr (inr ⟨hc, hsrch⟩)⟩

theorem linked (hfin : Settles ent fin) : m'.Linked where
  linked := by
    intro x hx
    by_cases hself : x = ent.tx.hash
    · obtain ⟨ps, hps, hnd, -⟩ := h.link_new
      exact ⟨ps, by rw [GetMemPoolParents, hself, hps]; rfl, hnd⟩
    · rw [h.parents hself]
      exact hlinked.linked x ((h.mem.mp hx).resolve_left hself)
  parent_mem := by
    intro c p hcp
    rw [h.mem, h.mem]
    rcases (h.parent_iff hnew hlinked c p).mp hcp with hold | ⟨rfl, hp⟩
    · obtain ⟨hc, hp⟩ := hlinked.parent_mem c p hold
      exact ⟨inr hc, inr hp⟩
    · exact ⟨inl rfl, inr (mem_searchParents.mp hp).2⟩
  rank := by
    obtain ⟨rank, hrank⟩ := hlinked.rank
    -- the new ent is above all others
    refine ⟨fun x => if x = ent.tx.hash then m.nodes.sup rank + 1 else rank x, fun c p hcp => ?_⟩
    rcases (h.parent_iff hnew hlinked c p).mp hcp with hold | ⟨rfl, hp⟩
    · obtain ⟨hc, hp⟩ := (h.grows hnew hlinked).old c p hold
      simp only [if_neg hc, if_neg hp]
      exact hrank c p hold
    · have hmem := (mem_searchParents.mp hp).2
      have hne : p ≠ ent.tx.hash := fun hc => hnew (hc ▸ hmem)
      simp only [if_true, if_neg hne]
      exact Nat.lt_succ_of_le (Finset.le_sup (f := rank) (mem_nodes.mpr hmem))
  key := by
    intro x e' hx
    rcases h.lookup_inv hx with ⟨rfl, rfl⟩ | ⟨-, e, he, rfl⟩
    · rw [hfin.tx]
    · rw [raised_tx]
      exact hlinked.key x e he
  links := by
    intro x
    rw [h.mem, ← hlinked.links]
    by_cases hself : x = ent.tx.hash
    · obtain ⟨ps, hps, -⟩ := h.link_new
      simp only [hself, true_or, iff_true]
      exact mem_iff_lookup.mpr ⟨_, hps⟩
    · rw [← AList.lookup_isSome, ← AList.lookup_isSome, h.link x hself, isSome_map]
      simp [hself]
  children := by
    intro p l hl
    rw [h.children] at hl
    split_ifs at hl
    · exact some.inj hl ▸ nodup_nil
    · obtain ⟨l', hl', rfl⟩ := map_eq_some_iff.mp hl
      exact nodup_adopted (hlinked.children p l' hl')
  child_iff := h.child_iff hnew hlinked

theorem sum_family {M : Type*} [AddCommMonoid M] {w w' : Uint256 → M}
    (hw : ∀ x, x ≠ ent.tx.hash → w' x = w x) (ha : a ≠ ent.tx.hash) :
    open Classical in ∑ d ∈ m'.family a, w' d =
      if m.Above ent.tx a then ∑ d ∈ m.family a, w d + w' ent.tx.hash else ∑ d ∈ m.family a, w d := by
  have hnot : ent.tx.hash ∉ m.family a := fun hc => hnew (mem_nodes.mp (Lineage.mem_family.mp hc).1)
  have hsame : ∑ d ∈ m.family a, w' d = ∑ d ∈ m.family a, w d :=
    Finset.sum_congr rfl fun d hd => hw d fun hc => hnot (hc ▸ hd)
  have hgr := h.grows hnew hlinked
  split_ifs with habv
  · have hfam : m'.family a = insert ent.tx.hash (m.family a) := by
      rw [family, h.nodes, hgr.family_ancestor habv, family]
    rw [hfam, Finset.sum_insert hnot, hsame, add_comm]
  · have hfam : m'.family a = m.family a := by
      rw [family, h.nodes, hgr.family_other (fun hc => hnew (mem_nodes.mp hc)) ha habv, family]
    rw [hfam, hsame]

theorem family_new : m'.family ent.tx.hash = {ent.tx.hash} := by
  rw [family, h.nodes, (h.grows hnew hlinked).family_new]

section

variable (hfin : Settles ent fin)
include hfin

theorem covered (hcov : m.Covered) : m'.Covered where
  size_pos := by
    intro x e' hx
    rcases h.lookup_inv hx with ⟨-, rfl⟩ | ⟨-, e, he, rfl⟩
    · exact hfin.alone.size_pos
    · rw [raised_nTxSize]
      exact hcov.size_pos x e he
  size := by
    intro x e' hx
    have hown : m'.sizeOf ent.tx.hash = ent.nTxSize := by
      rw [TxMemPool.sizeOf, h.lookup_new, elim_some, hfin.size]
    rcases h.lookup_inv hx with ⟨rfl, rfl⟩ | ⟨hne, e, he, rfl⟩
    · rw [h.family_new hnew hlinked, Finset.sum_singleton, hown, hfin.alone.size, hfin.size]
    · have hold := hcov.size x e he
      rw [h.sum_family hnew hlinked (fun x hx => h.sizeOf hx) hne, hown, raised]
      split_ifs
      · exact Int.add_le_add_right hold _
      · exact hold
  count := by
    intro x e' hx
    rcases h.lookup_inv hx with ⟨rfl, rfl⟩ | ⟨hne, e, he, rfl⟩
    · rw [h.family_new hnew hlinked, hfin.alone.count, Finset.card_singleton]
      rfl
    · have hold := hcov.count x e he
      have hcard := h.sum_family hnew hlinked (w := fun _ => (1 : ℤ)) (fun _ _ => rfl) hne
      simp only [Finset.sum_const, nsmul_eq_mul, mul_one] at hcard
      rw [hcard, raised]
      split_ifs
      · exact Int.add_le_add_right hold _
      · exact hold

omit hlinked in
theorem spends (op : OutPoint) (p : InPoint) :
    m'.Spends op p ↔ m.Spends op p ∨ p.tx = ent.tx ∧ (p.tx.vin[p.n]?).map (·.prevout) = some op := by
  have hold : ∀ q : PoolTx, q.hash = ent.tx.hash → m.mapTx.lookup q.hash = none := fun q hq => by
    rw [hq]
    exact AList.lookup_eq_none.mpr hnew
  constructor
  · rintro ⟨e', he', htx, hn⟩
    rcases h.lookup_inv he' with ⟨hhash, rfl⟩ | ⟨-, e, he, rfl⟩
    · exact inr ⟨by rw [← htx, hfin.tx], hn⟩
    · exact inl ⟨e, he, by rw [← htx, raised_tx], hn⟩
  · rintro (⟨e, he, htx, hn⟩ | ⟨htx, hn⟩)
    · have hne : p.tx.hash ≠ ent.tx.hash := fun hc => by
        rw [hold p.tx hc] at he
        exact absurd he (by simp)
      exact ⟨m.raised ent _ e, by rw [h.found, if_neg hne, he]; rfl, by rw [← htx, raised_tx], hn⟩
    · exact ⟨fin, by rw [htx, h.lookup_new], by rw [hfin.tx, htx], hn⟩

omit hlinked in
theorem nextSound (hnext : m.NextSound) : m'.NextSound := by
  intro op p hp
  rw [h.spends hnew hfin]
  by_cases hop : op ∈ inputs ent.tx
  · obtain ⟨n, hn, hvin⟩ := h.next_new op hop
    cases hn.symm.trans hp
    exact inr ⟨rfl, hvin⟩
  · rw [h.next op hop] at hp
    exact inl (hnext op p hp)

omit hlinked in
/-- An output that no other entry spends has one place in `mapNextTx`, and so one input. -/
theorem nextExact_iff (hnext : m.NextExact)
    (hfree : ∀ op ∈ inputs ent.tx, op ∉ m.mapNextTx) : m'.NextExact ↔ (inputs ent.tx).Nodup := by
  have hget : ∀ n : ℕ, (inputs ent.tx)[n]? = (ent.tx.vin[n]?).map (·.prevout) := fun n => by
    rw [inputs, getElem?_map]
  constructor
  · intro hex
    rw [nodup_iff_getElem?_ne_getElem?]
    intro i j hij hj hc
    have hop := getElem?_eq_getElem hj
    generalize (inputs ent.tx)[j] = op at hop
    have hpl : ∀ n : ℕ, (inputs ent.tx)[n]? = some op → m'.mapNextTx.lookup op = some ⟨ent.tx, n⟩ :=
      fun n hn =>
      (hex op ⟨ent.tx, n⟩).mpr ((h.spends hnew hfin _ _).mpr (inr ⟨rfl, by rw [← hget]; exact hn⟩))
    have hsame := (hpl i (hc.trans hop)).symm.trans (hpl j hop)
    injection some.inj hsame with _ hix
    omega
  · intro hnd op p
    refine ⟨h.nextSound hnew hfin (fun op p => (hnext op p).mp) op p, fun hp => ?_⟩
    rcases (h.spends hnew hfin op p).mp hp with hold | ⟨htx, hn⟩
    · have hlk := (hnext op p).mpr hold
      have hop : op ∉ inputs ent.tx := fun hc => hfree op hc (mem_iff_lookup.mpr ⟨p, hlk⟩)
      rw [h.next op hop, hlk]
    · have hop : op ∈ inputs ent.tx := mem_inputs.mpr ⟨p.n, htx ▸ hn⟩
      obtain ⟨k, hk, hvin⟩ := h.next_new op hop
      rw [htx, ← hget] at hn
      rw [← hget] at hvin
      have hlt : p.n < (inputs ent.tx).length := (List.getElem?_eq_some_iff.mp hn).1
      have hix : p.n = k := (List.getElem?_inj hlt hnd).mp (hn.trans hvin.symm)
      rw [hk, ← hix, ← htx]

theorem sound (hsnd : m.Sound) (hlst : m'.dspStorage.Listed) : m'.Sound :=
  ⟨h.linked hnew hlinked hfin, h.covered hnew hlinked hfin hsnd.covered,
    h.nextSound hnew hfin hsnd.next, hlst⟩

end

end Added

end TxMemPool

end FloweeHub
