import FloweeHub.Mempool.Removal

/-! What every call of the mempool keeps: the links lead to older entries, the totals are large
enough, and `mapNextTx` holds inputs of the mempool. -/

namespace FloweeHub

/-- What an entry is apart from its fees and its proof. -/
def TxMemPoolEntry.shape (e : TxMemPoolEntry) : PoolTx × ℕ × ℤ × ℤ :=
  (e.tx, e.nTxSize, e.nCountWithDescendants, e.nSizeWithDescendants)

def TxMemPoolEntry.fees (e : TxMemPoolEntry) : BitVec 64 × BitVec 64 × BitVec 64 :=
  (e.nFee, e.feeDelta, e.nModFeesWithDescendants)

namespace TxMemPool

open Lib Relation TxMemPoolEntry List Option

variable (env : MempoolEnv) {m m' : TxMemPool} {gone : List Uint256} {tx : PoolTx} {op : OutPoint}
  {p : InPoint} {M : Type*} {e e' : TxMemPoolEntry}

/-- The output is spent by the input of a transaction in the mempool. -/
def Spends (m : TxMemPool) (op : OutPoint) (p : InPoint) : Prop :=
  ∃ e, m.mapTx.lookup p.tx.hash = some e ∧ e.tx = p.tx ∧ (p.tx.vin[p.n]?).map (·.prevout) = some op

/-- `mapNextTx` holds inputs of transactions in the mempool. -/
def NextSound (m : TxMemPool) : Prop := ∀ op p, m.mapNextTx.lookup op = some p → m.Spends op p

/-- `mapNextTx` holds exactly the inputs of the transactions in the mempool. -/
def NextExact (m : TxMemPool) : Prop := ∀ op p, m.mapNextTx.lookup op = some p ↔ m.Spends op p

/-- The invariant of the mempool. -/
structure Sound (m : TxMemPool) : Prop where
  linked : m.Linked
  covered : m.Covered
  next : m.NextSound
  listed : m.dspStorage.Listed

theorem mem_inputs : op ∈ inputs tx ↔ ∃ n : ℕ, (tx.vin[n]?).map (·.prevout) = some op := by
  rw [inputs, mem_iff_getElem?]
  simp only [getElem?_map]

theorem Spends.mem_inputs (h : m.Spends op p) : op ∈ inputs p.tx := by
  obtain ⟨-, -, -, hn⟩ := h
  exact TxMemPool.mem_inputs.mpr ⟨p.n, hn⟩

theorem Spends.mem (h : m.Spends op p) : p.tx.hash ∈ m.mapTx := by
  obtain ⟨e, he, -⟩ := h
  exact mem_mapTx.mpr ⟨e, he⟩

/-! ### Changes beside the links -/

/-- The same counts, sizes, links and spent outputs; fees and proofs may differ. -/
structure Same (m m' : TxMemPool) : Prop where
  entry : ∀ x, (m'.mapTx.lookup x).map shape = (m.mapTx.lookup x).map shape
  links : m'.mapLinks = m.mapLinks
  next : m'.mapNextTx = m.mapNextTx

theorem same_of_eq (htx : m'.mapTx = m.mapTx) (hlks : m'.mapLinks = m.mapLinks)
    (hnext : m'.mapNextTx = m.mapNextTx) : Same m m' :=
  ⟨fun x => by rw [htx], hlks, hnext⟩

/-- An entry is replaced by one that is the same but for its fees and its proof. -/
theorem lookup_replace (f : TxMemPoolEntry → M) {h : Uint256} (he : m.mapTx.lookup h = some e)
    (hf : f e' = f e) (x : Uint256) :
    ((m.mapTx.insert h e').lookup x).map f = (m.mapTx.lookup x).map f := by
  rw [Table.lookup_insert]
  split_ifs with hx
  · rw [hx, he, map_some, map_some, hf]
  · rfl

namespace Same

variable (h : Same m m') {x : Uint256}
include h

theorem lookup_inv (hx : m'.mapTx.lookup x = some e') :
    ∃ e, m.mapTx.lookup x = some e ∧ e'.tx = e.tx ∧ e'.nTxSize = e.nTxSize ∧
      e'.nCountWithDescendants = e.nCountWithDescendants ∧
        e'.nSizeWithDescendants = e.nSizeWithDescendants := by
  have hent := h.entry x
  rw [hx, map_some, eq_comm, map_eq_some_iff] at hent
  obtain ⟨e, he, hsp⟩ := hent
  rw [shape, shape, Prod.mk.injEq, Prod.mk.injEq, Prod.mk.injEq] at hsp
  exact ⟨e, he, hsp.1.symm, hsp.2.1.symm, hsp.2.2.1.symm, hsp.2.2.2.symm⟩

theorem map_lookup (f : PoolTx × ℕ × ℤ × ℤ → M) (x : Uint256) :
    (m'.mapTx.lookup x).map (fun e => f e.shape) = (m.mapTx.lookup x).map fun e => f e.shape := by
  have hmap := congrArg (Option.map f) (h.entry x)
  rwa [Option.map_map, Option.map_map] at hmap

theorem mem : x ∈ m'.mapTx ↔ x ∈ m.mapTx := by
  have hsome := congrArg isSome (h.entry x)
  rw [isSome_map, isSome_map] at hsome
  rw [← AList.lookup_isSome, ← AList.lookup_isSome, hsome]

theorem nodes : m'.nodes = m.nodes := by
  ext x
  rw [mem_nodes, mem_nodes, h.mem]

theorem parents : m'.GetMemPoolParents = m.GetMemPoolParents := by
  funext x
  rw [GetMemPoolParents, GetMemPoolParents, h.links]

theorem children : m'.GetMemPoolChildren = m.GetMemPoolChildren := by
  funext x
  rw [GetMemPoolChildren, GetMemPoolChildren, h.links]

theorem parent : m'.Parent = m.Parent := by
  rw [Parent, Parent, h.parents]

theorem child : m'.Child = m.Child := by
  rw [Child, Child, h.children]

theorem family (x : Uint256) : m'.family x = m.family x := by
  rw [TxMemPool.family, TxMemPool.family, h.nodes, h.parent]

theorem sizeOf : m'.sizeOf = m.sizeOf := by
  funext x
  have helim : ∀ o : Option TxMemPoolEntry, o.elim 0 (fun e => (e.nTxSize : ℤ)) =
      (o.map fun e => ((e.shape.2.1 : ℕ) : ℤ)).getD 0 := by
    intro o
    cases o <;> rfl
  rw [TxMemPool.sizeOf, TxMemPool.sizeOf, helim, helim, h.map_lookup fun shape => (shape.2.1 : ℤ)]

theorem linked (hlink : m.Linked) : m'.Linked where
  toRooted := hlink.toRooted.of_parents h.mem h.parents
  key := by
    intro x e' hx
    obtain ⟨e, he, htx, -⟩ := h.lookup_inv hx
    rw [htx]
    exact hlink.key x e he
  links := by
    intro x
    rw [h.links, h.mem, hlink.links]
  children := by
    rw [h.children]
    exact hlink.children
  child_iff := by
    rw [h.child, h.parent]
    exact hlink.child_iff

theorem covered (hcov : m.Covered) : m'.Covered where
  size_pos := by
    intro x e' hx
    obtain ⟨e, he, -, hsize, -⟩ := h.lookup_inv hx
    rw [hsize]
    exact hcov.size_pos x e he
  size := by
    intro x e' hx
    obtain ⟨e, he, -, -, -, htot⟩ := h.lookup_inv hx
    rw [h.family, h.sizeOf, htot]
    exact hcov.size x e he
  count := by
    intro x e' hx
    obtain ⟨e, he, -, -, hct, -⟩ := h.lookup_inv hx
    rw [h.family, hct]
    exact hcov.count x e he

theorem spends (op : OutPoint) (p : InPoint) : m'.Spends op p ↔ m.Spends op p := by
  have hspd : ∀ m : TxMemPool, m.Spends op p ↔ (m.mapTx.lookup p.tx.hash).map (·.tx) = some p.tx ∧
      (p.tx.vin[p.n]?).map (·.prevout) = some op := by
    intro m
    constructor
    · rintro ⟨e, he, htx, hn⟩
      exact ⟨map_eq_some_iff.mpr ⟨e, he, htx⟩, hn⟩
    · rintro ⟨hmap, hn⟩
      obtain ⟨e, he, htx⟩ := map_eq_some_iff.mp hmap
      exact ⟨e, he, htx, hn⟩
  rw [hspd, hspd]
  have htx := h.map_lookup (fun shape => shape.1) p.tx.hash
  simp only [shape] at htx
  rw [htx]

theorem nextSound (hnext : m.NextSound) : m'.NextSound := by
  intro op p
  rw [h.next, h.spends]
  exact hnext op p

theorem nextExact (hnext : m.NextExact) : m'.NextExact := by
  intro op p
  rw [h.next, h.spends]
  exact hnext op p

theorem sound (hsound : m.Sound) (hlst : m'.dspStorage.Listed) : m'.Sound :=
  ⟨h.linked hsound.linked, h.covered hsound.covered, h.nextSound hsound.next, hlst⟩

end Same

/-- Nothing is different for the fees. -/
structure SameFees (m m' : TxMemPool) : Prop extends Same m m' where
  fees : ∀ x, (m'.mapTx.lookup x).map fees = (m.mapTx.lookup x).map fees
  deltas : m'.mapDeltas = m.mapDeltas

theorem sameFees_attach {h : Uint256} (he : m.mapTx.lookup h = some e) (id : ℤ)
    (storage : DoubleSpendProofStorage) :
    SameFees m { m with dspStorage := storage, mapTx := m.mapTx.insert h { e with dsproof := id } } where
  entry := lookup_replace _ he rfl
  links := rfl
  next := rfl
  fees := lookup_replace _ he rfl
  deltas := rfl

theorem sameFees_storage (storage : DoubleSpendProofStorage) :
    SameFees m { m with dspStorage := storage } :=
  ⟨same_of_eq rfl rfl rfl, fun _ => rfl, rfl⟩

theorem same_clear (h : Uint256) : Same m (m.ClearPrioritisation h) := same_of_eq rfl rfl rfl

variable (h : Removed m gone m')

include h

theorem Removed.spends (op : OutPoint) (p : InPoint) : m'.Spends op p ↔ m.Spends op p ∧
      p.tx.hash ∉ gone := by
  constructor
  · rintro ⟨e', he', htx, hn⟩
    obtain ⟨hgone, e, he, rfl⟩ := h.lookup_inv he'
    exact ⟨⟨e, he, htx, hn⟩, hgone⟩
  · rintro ⟨⟨e, he, htx, hn⟩, hgone⟩
    exact ⟨m.reduced gone _ e, by rw [h.lookup hgone, he]; rfl, htx, hn⟩

theorem Removed.nextSound (hnext : m.NextSound) : m'.NextSound := by
  intro op p hp
  have hspt : ¬ SpentBy m gone op := fun hc => by
    rw [h.next_gone op hc] at hp
    exact absurd hp (by simp)
  rw [h.next op hspt] at hp
  have hspd := hnext op p hp
  have hop := hspd.mem_inputs
  refine (h.spends op p).mpr ⟨hspd, fun hc => hspt ?_⟩
  obtain ⟨e, he, htx, -⟩ := hspd
  exact ⟨_, hc, e, he, htx ▸ hop⟩

theorem Removed.nextExact (hlink : m.Linked) (hnext : m.NextExact) : m'.NextExact := by
  intro op p
  refine ⟨h.nextSound (fun op p => (hnext op p).mp) op p, fun hp => ?_⟩
  obtain ⟨hspd, hgone⟩ := (h.spends op p).mp hp
  have hlk := (hnext op p).mpr hspd
  -- another entry that spends the output would be in `mapNextTx` as well
  have hspt : ¬ SpentBy m gone op := by
    rintro ⟨r, hr, e, he, hop⟩
    obtain ⟨n, hn⟩ := mem_inputs.mp hop
    have hkey := hlink.key r e he
    have hoth := (hnext op ⟨e.tx, n⟩).mpr ⟨e, by rw [hkey, he], rfl, hn⟩
    cases hlk.symm.trans hoth
    exact hgone (by rwa [hkey])
  rw [h.next op hspt, hlk]

theorem Removed.sound (hsound : m.Sound) (hmem : ∀ x ∈ gone, x ∈ m.mapTx) : m'.Sound :=
  ⟨h.linked hsound.linked, h.covered hsound.linked.toRooted hsound.covered hmem,
    h.nextSound hsound.next, h.listed⟩

omit h

/-- A set of entries with all their descendants. -/
structure Whole (m : TxMemPool) (all : List Uint256) : Prop where
  nodup : all.Nodup
  mem : ∀ x ∈ all, x ∈ m.mapTx
  closed : ∀ d p, m.Parent d p → p ∈ all → d ∈ all

theorem whole_nil : Whole m [] := ⟨nodup_nil, by simp, by simp⟩

/-- `CalculateDescendants` adds an entry with all its descendants, and no other. -/
theorem Whole.descendants {all : List Uint256} (h : Whole m all) (hlink : m.Linked) {it : Uint256}
    (hit : it ∈ m.mapTx) : ∃ out, m.CalculateDescendants it all = some out ∧ Whole m out ∧
      ∀ x, x ∈ out ↔ x ∈ all ∨ ReflTransGen m.Child it x := by
  have hcd : ∀ p c, m.Child p c → c ∈ m.mapTx := fun p c hc =>
    (hlink.parent_mem c p ((hlink.child_iff p c).mp hc)).1
  have hnext : ∀ a ∈ m.nodes, ∃ children, m.GetMemPoolChildren a = some children ∧
      ∀ b ∈ children, b ∈ m.nodes := by
    intro a ha
    obtain ⟨links, hlks⟩ := Table.mem_iff_lookup.mp ((hlink.links a).mpr (mem_nodes.mp ha))
    have hget : m.GetMemPoolChildren a = some links.children := by rw [GetMemPoolChildren, hlks]; rfl
    exact ⟨_, hget, fun b hb => mem_nodes.mpr (hcd a b ⟨_, hget, hb⟩)⟩
  have hwalking : Worklist.Walking m.GetMemPoolChildren m.nodes (if it ∈ all then [] else [it]) all := by
    refine ⟨fun a ha => ?_, fun a ha => ?_, ?_, h.nodup, fun a ha b hab => ?_⟩
    · split_ifs at ha
      · exact absurd ha not_mem_nil
      · exact mem_nodes.mpr (mem_singleton.mp ha ▸ hit)
    · split_ifs at ha with hall
      · exact absurd ha not_mem_nil
      · exact mem_singleton.mp ha ▸ hall
    · split_ifs <;> simp
    · exact Or.inl (h.closed b a ((hlink.child_iff a b).mp hab) ha)
  obtain ⟨out, hout, hnd, hrch⟩ := Worklist.walk_spec hnext hwalking
    ((Finset.card_le_card Finset.sdiff_subset).trans card_nodes_le)
  refine ⟨out, hout, ⟨hnd, fun x hx => ?_, fun d p hdp hp => ?_⟩, fun x => ?_⟩
  · rcases (hrch x).mp hx with hx | ⟨a, ha, hax⟩
    · exact h.mem x hx
    · rcases hax.cases_tail with rfl | ⟨p, -, hstep⟩
      · exact mem_nodes.mp (hwalking.inside x ha)
      · exact hcd p x hstep
  · rw [hrch] at hp ⊢
    rcases hp with hp | ⟨a, ha, hap⟩
    · exact Or.inl (h.closed d p hdp hp)
    · exact Or.inr ⟨a, ha, hap.tail ((hlink.child_iff p d).mpr hdp)⟩
  · rw [hrch]
    by_cases hall : it ∈ all
    · have hin : ReflTransGen m.Child it x → x ∈ all := fun hx => by
        induction hx with
        | refl => exact hall
        | tail _ hstep ih => exact h.closed _ _ ((hlink.child_iff _ _).mp hstep) ih
      simpa [hall] using hin
    · simp [hall]

theorem childrenOf_mem (hnext : m.NextSound) (origTx : PoolTx) :
    ∃ children, m.childrenOf origTx = some children ∧ ∀ x ∈ children, x ∈ m.mapTx := by
  refine Loops.foldlM_keep (P := fun children => ∀ x ∈ children, x ∈ m.mapTx) (fun children i _ h =>
    ?_) (by simp)
  cases hlk : m.mapNextTx.lookup ⟨origTx.hash, i⟩ with
  | none => exact ⟨children, rfl, h⟩
  | some next =>
    have hmem := (hnext _ _ hlk).mem
    refine ⟨_, if_pos hmem, fun x hx => ?_⟩
    rcases mem_insert_iff.mp hx with rfl | hx
    · exact hmem
    · exact h x hx

/-- A recursive removal takes out what it starts from with all descendants, and nothing else. -/
theorem Sound.remove_recursive (h : m.Sound) (tx : PoolTx) :
    ∃ m' gone, m.remove env tx true = some m' ∧ Removed m gone m' ∧ Whole m gone ∧
      ∃ start, m.toRemove tx true = some start ∧ ∀ x, x ∈ gone ↔
        ∃ a ∈ start, ReflTransGen m.Child a x := by
  obtain ⟨start, hst, hmem⟩ : ∃ start, m.toRemove tx true = some start ∧ ∀ x ∈ start, x ∈ m.mapTx := by
    rw [toRemove, if_pos rfl]
    split_ifs with htx
    · exact ⟨_, rfl, fun x hx => mem_singleton.mp hx ▸ htx⟩
    · exact childrenOf_mem h.next tx
  obtain ⟨stage, hstg, hwhole, hall⟩ : ∃ stage, start.foldlM (fun all it =>
    m.CalculateDescendants it all) [] = some stage ∧
      Whole m stage ∧ ∀ x, x ∈ stage ↔ ∃ a ∈ start, ReflTransGen m.Child a x := by
    refine Loops.foldlM_grow (P := fun done all => Whole m all ∧ ∀ x, x ∈ all ↔
      ∃ a ∈ done, ReflTransGen m.Child a x)
      (fun done it rest all hspl hall => ?_) ⟨whole_nil, by simp⟩
    obtain ⟨out, hout, hwhole, hit⟩ := hall.1.descendants h.linked (hmem it (by simp [hspl]))
    exact ⟨out, hout, hwhole, fun x => by rw [hit, hall.2]; simp [or_and_right, exists_or]⟩
  obtain ⟨m', hpool', hrem⟩ := RemoveStaged_spec env h.linked h.covered h.listed hwhole.nodup hwhole.mem
  refine ⟨m', stage, ?_, hrem, hwhole, start, hst, hall⟩
  rw [remove, hst, bind_some, if_pos rfl, hstg, bind_some, hpool']

def single (m : TxMemPool) (tx : PoolTx) : List Uint256 := if tx.hash ∈ m.mapTx then [tx.hash] else []

theorem single_mem : ∀ x ∈ m.single tx, x = tx.hash ∧ x ∈ m.mapTx := by
  intro x hx
  rw [single] at hx
  split_ifs at hx with htx
  · obtain rfl := mem_singleton.mp hx
    exact ⟨rfl, htx⟩
  · exact absurd hx not_mem_nil

theorem Sound.remove_single (h : m.Sound) (tx : PoolTx) :
    ∃ m', m.remove env tx false = some m' ∧ Removed m (m.single tx) m' := by
  have hnd : (m.single tx).Nodup := by
    rw [single]
    split_ifs <;> simp
  obtain ⟨m', hpool', hrem⟩ := RemoveStaged_spec env h.linked h.covered h.listed hnd fun x hx =>
    (single_mem x hx).2
  refine ⟨m', ?_, hrem⟩
  rw [remove, toRemove]
  simp only [Bool.false_eq_true, if_false]
  rw [← hpool', single]
  split_ifs <;> rfl

section Invariant

variable {I : TxMemPool → Prop} (hsound : ∀ m, I m → m.Sound)
  (hwhole : ∀ m gone m', I m → Removed m gone m' → Whole m gone → I m')
  (hclear : ∀ m hash, I m → hash ∉ m.mapTx → I (m.ClearPrioritisation hash))
include hsound hwhole hclear

/-- `removeConflicts` keeps what removals of whole families keep. -/
theorem removeConflicts_keeps (h : I m) (tx : PoolTx) : ∃ m', m.removeConflicts env tx = some m' ∧
      I m' := by
  refine Loops.foldlM_keep (fun m txin _ h => ?_) h
  rw [removeConflict]
  cases hlk : m.mapNextTx.lookup txin.prevout with
  | none => exact ⟨m, rfl, h⟩
  | some conflict =>
    simp only
    split_ifs
    · obtain ⟨m', gone, hpool', hrem, hgone, start, hst, hself⟩ :=
        (hsound m h).remove_recursive env conflict.tx
      refine ⟨_, by rw [hpool', map_some], hclear m' _ (hwhole m gone m' h hrem hgone) fun hc => ?_⟩
      rw [toRemove, if_pos ((hsound m h).next _ _ hlk).mem, some_inj] at hst
      exact (hrem.mem.mp hc).2 ((hself _).mpr ⟨_, hst ▸ mem_singleton_self _, .refl⟩)
    · exact ⟨m, rfl, h⟩

/-- `removeForBlock` also removes single entries, and leaves none of the block's. -/
theorem removeForBlock_keeps {vtx : List PoolTx}
    (hsg : ∀ m, ∀ tx ∈ vtx, ∀ m', I m → Removed m (m.single tx) m' → I m') (h : I m) :
    ∃ m', m.removeForBlock env vtx = some m' ∧ I m' ∧ ∀ tx ∈ vtx, tx.hash ∉ m'.mapTx := by
  refine Loops.foldlM_grow (P := fun done m => I m ∧ ∀ t : PoolTx, t ∈ done → t.hash ∉ m.mapTx)
    (fun done tx rest m hvtx h => ?_) ⟨h, by simp⟩
  obtain ⟨pool1, hpool1, hrem⟩ := (hsound m h.1).remove_single env tx
  have h1 := hsg m tx (by simp [hvtx]) pool1 h.1 hrem
  have hgone : ∀ t : PoolTx, t ∈ done ++ [tx] → t.hash ∉ pool1.mapTx := by
    intro t ht hc
    obtain ⟨hmem, hnot⟩ := hrem.mem.mp hc
    rcases mem_append.mp ht with hdone | hlast
    · exact h.2 t hdone hmem
    · obtain rfl := mem_singleton.mp hlast
      exact hnot (by simp [single, hmem])
  obtain ⟨pool2, hpool2, h2, hnot⟩ := removeConflicts_keeps env
    (I := fun m => I m ∧ ∀ t : PoolTx, t ∈ done ++ [tx] → t.hash ∉ m.mapTx) (fun m h => hsound m h.1)
    (fun m gone m' h hrem hall =>
      ⟨hwhole m gone m' h.1 hrem hall, fun t ht hc => h.2 t ht (hrem.mem.mp hc).1⟩)
    (fun m hash h hhash => ⟨hclear m hash h.1 hhash, h.2⟩) ⟨h1, hgone⟩ tx
  exact ⟨_, by rw [removeMined, hpool1, bind_some, hpool2, map_some], hclear pool2 _ h2 (hnot tx (by simp)), hnot⟩

end Invariant

end TxMemPool

end FloweeHub
