import FloweeHub.Lib.Lineage
import FloweeHub.Lib.Loops
import FloweeHub.Mempool.TxMemPool
import Mathlib.Algebra.Order.BigOperators.Group.Finset

/-! The links between the transactions of the mempool. Parents lead to older entries, and the
children are the other direction of the parents. -/

namespace FloweeHub.TxMemPool

open Lib Relation List

variable {m : TxMemPool} {d a : Uint256}

abbrev Parent (m : TxMemPool) : Uint256 → Uint256 → Prop := Worklist.Edge m.GetMemPoolParents

abbrev Child (m : TxMemPool) : Uint256 → Uint256 → Prop := Worklist.Edge m.GetMemPoolChildren

def nodes (m : TxMemPool) : Finset Uint256 := m.mapTx.keys.toFinset

theorem mem_nodes {h : Uint256} : h ∈ m.nodes ↔ h ∈ m.mapTx := by
  rw [nodes, mem_toFinset, AList.mem_keys]

theorem mem_mapTx {h : Uint256} : h ∈ m.mapTx ↔ ∃ e, m.mapTx.lookup h = some e := by
  rw [← AList.lookup_isSome, Option.isSome_iff_exists]

theorem card_nodes_le : m.nodes.card ≤ m.turns := by
  refine (toFinset_card_le _).trans ?_
  rw [turns, AList.keys, keys, length_map]

/-- Parents are in the mempool and lead to no cycle. -/
structure Rooted (m : TxMemPool) : Prop where
  linked : ∀ h, h ∈ m.mapTx → ∃ parents, m.GetMemPoolParents h = some parents ∧ parents.Nodup
  parent_mem : ∀ c p, m.Parent c p → c ∈ m.mapTx ∧ p ∈ m.mapTx
  rank : ∃ rank : Uint256 → ℕ, ∀ c p, m.Parent c p → rank p < rank c

/-- The links of a mempool between its operations. -/
structure Linked (m : TxMemPool) : Prop extends Rooted m where
  key : ∀ h e, m.mapTx.lookup h = some e → e.tx.hash = h
  links : ∀ h, h ∈ m.mapLinks ↔ h ∈ m.mapTx
  children : ∀ p children, m.GetMemPoolChildren p = some children → children.Nodup
  child_iff : ∀ p c, m.Child p c ↔ m.Parent c p

theorem Rooted.rank_le {rank : Uint256 → ℕ} (hrank : ∀ c p, m.Parent c p → rank p < rank c)
    (h : ReflTransGen m.Parent d a) : rank a ≤ rank d := by
  induction h with
  | refl => exact le_rfl
  | tail _ hstep ih => exact (hrank _ _ hstep).le.trans ih

section

variable (h : m.Rooted)

include h

theorem Rooted.ne_of_transGen (hda : TransGen m.Parent d a) : d ≠ a := by
  obtain ⟨rank, hrank⟩ := h.rank
  obtain ⟨p, hp, hrest⟩ := TransGen.head'_iff.mp hda
  rintro rfl
  exact absurd (hrank _ _ hp) (not_lt.mpr (Rooted.rank_le hrank hrest))

theorem Rooted.transGen_iff : TransGen m.Parent d a ↔ ReflTransGen m.Parent d a ∧ d ≠ a :=
  ⟨fun hda => ⟨hda.to_reflTransGen, h.ne_of_transGen hda⟩, fun hda =>
    (reflTransGen_iff_eq_or_transGen.mp hda.1).resolve_left fun hc => hda.2 hc.symm⟩

theorem Rooted.mem_of_reach (hda : ReflTransGen m.Parent d a) (hne : d ≠ a) : d ∈ m.mapTx := by
  obtain ⟨p, hp, -⟩ := TransGen.head'_iff.mp (h.transGen_iff.mpr ⟨hda, hne⟩)
  exact (h.parent_mem d p hp).1

theorem Rooted.reach_mem (hd : d ∈ m.mapTx) (hda : ReflTransGen m.Parent d a) : a ∈ m.mapTx := by
  rcases hda.cases_tail with rfl | ⟨c, -, hstep⟩
  · exact hd
  · exact (h.parent_mem _ _ hstep).2

theorem Rooted.ancestorsFrom {parents : List Uint256} (hnd : parents.Nodup)
    (hmem : ∀ p ∈ parents, p ∈ m.mapTx) :
    ∃ out, m.ancestorsFrom parents = some out ∧ out.Nodup ∧
      ∀ a, a ∈ out ↔ ∃ p ∈ parents, ReflTransGen m.Parent p a := by
  have hnext : ∀ a ∈ m.nodes, ∃ parents, m.GetMemPoolParents a = some parents ∧
      ∀ b ∈ parents, b ∈ m.nodes := by
    intro a ha
    obtain ⟨parents, hpars, -⟩ := h.linked a (mem_nodes.mp ha)
    exact ⟨parents, hpars, fun b hb => mem_nodes.mpr (h.parent_mem a b ⟨parents, hpars, hb⟩).2⟩
  have hwalking : Worklist.Walking m.GetMemPoolParents m.nodes parents [] :=
    ⟨fun a ha => mem_nodes.mpr (hmem a ha), by simp, hnd, nodup_nil, by simp⟩
  obtain ⟨out, hout, houtNodup, hrch⟩ := Worklist.walk_spec hnext hwalking
    ((Finset.card_le_card Finset.sdiff_subset).trans card_nodes_le)
  exact ⟨out, hout, houtNodup, fun a => by simpa using hrch a⟩

theorem Rooted.ancestors {r : Uint256} (hr : r ∈ m.mapTx) :
    ∃ out, m.CalculateMemPoolAncestors r = some out ∧ out.Nodup ∧ ∀ a, a ∈ out ↔
      TransGen m.Parent r a := by
  obtain ⟨parents, hpars, hnd⟩ := h.linked r hr
  obtain ⟨out, hout, houtNodup, hrch⟩ := h.ancestorsFrom hnd fun p hp =>
    (h.parent_mem r p ⟨parents, hpars, hp⟩).2
  refine ⟨out, by rw [CalculateMemPoolAncestors, hpars, Option.bind_some, hout], houtNodup, fun a => ?_⟩
  rw [hrch, TransGen.head'_iff]
  constructor
  · rintro ⟨p, hp, hrest⟩
    exact ⟨p, ⟨parents, hpars, hp⟩, hrest⟩
  · rintro ⟨p, ⟨parents', hpars', hp⟩, hrest⟩
    cases hpars.symm.trans hpars'
    exact ⟨p, hp, hrest⟩

end

theorem Rooted.of_parents {m' : TxMemPool} (h : m.Rooted) (hmem : ∀ {x}, x ∈ m'.mapTx ↔ x ∈ m.mapTx)
    (hpars : m'.GetMemPoolParents = m.GetMemPoolParents) : m'.Rooted := by
  refine ⟨fun x hx => ?_, fun c p hcp => ?_, ?_⟩
  · rw [hpars]
    exact h.linked x (hmem.mp hx)
  · rw [Parent, hpars] at hcp
    rw [hmem, hmem]
    exact h.parent_mem c p hcp
  · rw [Parent, hpars]
    exact h.rank

theorem foldl_UpdateChild (parents : List Uint256) (it : Uint256) (add : Bool) :
    parents.foldl (fun m piter => m.UpdateChild piter it add) m = { m with
      mapLinks := parents.foldl (fun t piter => t.modify piter {} fun links =>
        { links with children := setMember add it links.children }) m.mapLinks } := by
  induction parents generalizing m with
  | nil => rfl
  | cons p parents ih =>
    rw [foldl_cons, ih]
    rfl

theorem foldl_UpdateParent (children : List Uint256) (it : Uint256) (add : Bool) :
    children.foldl (fun m updateIt => m.UpdateParent updateIt it add) m = { m with
      mapLinks := children.foldl (fun t updateIt => t.modify updateIt {} fun links =>
        { links with parents := setMember add it links.parents }) m.mapLinks } := by
  induction children generalizing m with
  | nil => rfl
  | cons c children ih =>
    rw [foldl_cons, ih]
    rfl

theorem foldlM_modifyTotals (ancestors : List Uint256) (size : ℤ) (fee : BitVec 64) (count : ℤ) :
    ancestors.foldlM (fun m a => m.modifyTotals a size fee count) m =
      (ancestors.foldlM (fun (t : Table _ _) a => t.update? a fun e => e.UpdateState size fee count)
        m.mapTx).map fun mapTx =>
        { m with mapTx := mapTx } := by
  induction ancestors generalizing m with
  | nil => rfl
  | cons a ancestors ih =>
    rw [foldlM_cons, foldlM_cons, modifyTotals]
    cases hmod : m.mapTx.update? a fun e => e.UpdateState size fee count with
    | none => rfl
    | some mapTx => exact ih

/-- Changes of the totals of several entries that pass the assertions. -/
theorem modifyTotals_all (m : TxMemPool) {ancestors : List Uint256} (hnd : ancestors.Nodup)
    (size : ℤ) (fee : BitVec 64) (count : ℤ)
    (h : ∀ a ∈ ancestors, ∃ e, m.mapTx.lookup a = some e ∧
      e.UpdateState size fee count = some (e.changed size fee count)) :
    ∃ mapTx, ancestors.foldlM (fun m a => m.modifyTotals a size fee count) m =
      some { m with mapTx := mapTx } ∧
      ∀ x, mapTx.lookup x = if x ∈ ancestors then (m.mapTx.lookup x).map (·.changed size fee count)
        else m.mapTx.lookup x := by
  obtain ⟨mapTx, hfold, hall⟩ := Table.foldlM_update? hnd h
  exact ⟨mapTx, by rw [foldlM_modifyTotals, hfold]; rfl, hall⟩

noncomputable def family (m : TxMemPool) (h : Uint256) : Finset Uint256 :=
  Lineage.family m.nodes m.Parent h

def sizeOf (m : TxMemPool) (h : Uint256) : ℤ := (m.mapTx.lookup h).elim 0 fun e => e.nTxSize

def feeOf (m : TxMemPool) (h : Uint256) : BitVec 64 := (m.mapTx.lookup h).elim 0 fun e =>
    e.GetModifiedFee

/-- The totals are at least those of the family. -/
structure Covered (m : TxMemPool) : Prop where
  size_pos : ∀ h e, m.mapTx.lookup h = some e → 0 < e.nTxSize
  size : ∀ h e, m.mapTx.lookup h = some e → ∑ d ∈ m.family h, m.sizeOf d ≤ e.nSizeWithDescendants
  count : ∀ h e, m.mapTx.lookup h = some e → ((m.family h).card : ℤ) ≤ e.nCountWithDescendants

theorem sizeOf_nonneg (h : Uint256) : 0 ≤ m.sizeOf h := by
  rw [sizeOf]
  cases m.mapTx.lookup h with
  | none => exact le_rfl
  | some e => exact Int.natCast_nonneg _

open Classical in
/-- What an entry loses with the descendants among those that are gone. -/
noncomputable def lost {M : Type*} [AddCommMonoid M] (m : TxMemPool) (gone : List Uint256)
    (w : Uint256 → M) (h : Uint256) : M :=
  ∑ r ∈ gone.toFinset.filter fun r => TransGen m.Parent r h, w r

section Lost

variable {M : Type*} [AddCommMonoid M] {gone : List Uint256} {r h : Uint256} (w : Uint256 → M)

theorem lost_nil : m.lost [] w h = 0 := by
  simp [lost]

theorem lost_concat_of_above (hr : r ∉ gone) (habv : TransGen m.Parent r h) :
    m.lost (gone ++ [r]) w h = m.lost gone w h + w r := by
  have hset : (gone ++ [r]).toFinset = insert r gone.toFinset := by ext; simp
  rw [lost, lost, hset, Finset.filter_insert, if_pos habv, Finset.sum_insert (by simp [hr]), add_comm]

theorem lost_concat_of_not_above (habv : ¬ TransGen m.Parent r h) :
    m.lost (gone ++ [r]) w h = m.lost gone w h := by
  have hset : (gone ++ [r]).toFinset = insert r gone.toFinset := by ext; simp
  rw [lost, lost, hset, Finset.filter_insert, if_neg habv]

theorem Rooted.lost_add_le (hroot : m.Rooted) {w : Uint256 → ℤ} (hw : ∀ d, 0 ≤ w d)
    (hgone : ∀ r ∈ gone, r ∈ m.mapTx) (hh : h ∈ m.mapTx) : m.lost gone w h + w h ≤ ∑ d ∈ m.family h,
      w d := by
  classical
  have hself : h ∈ m.family h := Lineage.mem_family_self (mem_nodes.mpr hh)
  rw [← Finset.sum_erase_add _ _ hself]
  refine Int.add_le_add_right (Finset.sum_le_sum_of_subset_of_nonneg (fun r hr => ?_)
    fun d _ _ => hw d) _
  rw [Finset.mem_filter, mem_toFinset] at hr
  exact Finset.mem_erase.mpr ⟨hroot.ne_of_transGen hr.2, Lineage.mem_family.mpr
    ⟨mem_nodes.mpr (hgone r hr.1), hr.2.to_reflTransGen⟩⟩

end Lost

/-! ### Leaving the ancestors -/

/-- The totals of an entry without those that are gone. -/
noncomputable def reduced (m : TxMemPool) (gone : List Uint256) (h : Uint256) (e : TxMemPoolEntry) :
    TxMemPoolEntry :=
  e.changed (-m.lost gone m.sizeOf h) (-m.lost gone m.feeOf h) (-m.lost gone (fun _ => 1) h)

/-- After the first loop of `UpdateForRemoveFromMempool` for some entries. -/
structure Left (m : TxMemPool) (gone : List Uint256) (m' : TxMemPool) : Prop where
  entry : ∀ h, m'.mapTx.lookup h = (m.mapTx.lookup h).map (m.reduced gone h)
  link : ∀ h, m'.mapLinks.lookup h =
    (m.mapLinks.lookup h).map fun l => { l with children := l.children.filter (· ∉ gone) }
  rest : m' = { m with mapTx := m'.mapTx, mapLinks := m'.mapLinks }

section Left

variable {m' : TxMemPool} {gone : List Uint256} {r : Uint256} {x : Uint256} {l : List Uint256}

theorem left_nil : Left m [] m where
  entry := by
    intro h
    have hid : m.reduced [] h = id := by
      funext e
      simp [reduced, lost_nil, TxMemPoolEntry.changed]
    rw [hid, Option.map_id_fun, id]
  link := by
    intro h
    cases m.mapLinks.lookup h with
    | none => rfl
    | some l => simp
  rest := rfl

section

variable (h : Left m gone m')

include h

theorem Left.mem : x ∈ m'.mapTx ↔ x ∈ m.mapTx := by
  rw [← AList.lookup_isSome, ← AList.lookup_isSome, h.entry, Option.isSome_map]

theorem Left.parents : m'.GetMemPoolParents = m.GetMemPoolParents := by
  funext c
  rw [GetMemPoolParents, GetMemPoolParents, h.link, Option.map_map]
  rfl

theorem Left.parent : m'.Parent = m.Parent := by
  rw [Parent, Parent, h.parents]

end

theorem updateState_of_pos {e : TxMemPoolEntry} {size count : ℤ} (fee : BitVec 64)
    (hct : e.nCountWithDescendants ≠ 0)
    (hpos : 0 < e.nSizeWithDescendants + size ∧ 0 < e.nCountWithDescendants + count) :
    e.UpdateState size fee count = some (e.changed size fee count) := by
  rw [TxMemPoolEntry.UpdateState, if_neg (by simpa [TxMemPoolEntry.IsDirty] using hct), if_pos hpos]

/-- The totals of an entry are larger than what it loses with any others. -/
theorem Covered.lost_lt (hcov : m.Covered) (hroot : m.Rooted) (gone : List Uint256)
    (hgone : ∀ x ∈ gone, x ∈ m.mapTx) {e : TxMemPoolEntry} (ha : m.mapTx.lookup a = some e) :
    m.lost gone m.sizeOf a < e.nSizeWithDescendants ∧
      m.lost gone (fun _ => 1) a < e.nCountWithDescendants := by
  have hmem : a ∈ m.mapTx := mem_mapTx.mpr ⟨e, ha⟩
  have hsize := hroot.lost_add_le (w := m.sizeOf) sizeOf_nonneg hgone hmem
  have hct := hroot.lost_add_le (w := fun _ => 1) (fun _ => by decide) hgone hmem
  have hsizeTotal := hcov.size a e ha
  have hcountTotal := hcov.count a e ha
  have hpos : 0 < m.sizeOf a := by
    rw [sizeOf, ha]
    exact Int.natCast_pos.mpr (hcov.size_pos a e ha)
  rw [Finset.sum_const, nsmul_eq_mul, mul_one] at hct
  omega

theorem Covered.updateState (hcov : m.Covered) (hroot : m.Rooted)
    (hgone : ∀ x ∈ gone ++ [r], x ∈ m.mapTx) (hr : r ∉ gone) {e : TxMemPoolEntry}
    (ha : m.mapTx.lookup a = some e) (habv : TransGen m.Parent r a) (fee : BitVec 64) :
    (m.reduced gone a e).UpdateState (-m.sizeOf r) fee (-1) =
      some ((m.reduced gone a e).changed (-m.sizeOf r) fee (-1)) := by
  have hlt := hcov.lost_lt hroot _ hgone ha
  rw [lost_concat_of_above _ hr habv, lost_concat_of_above _ hr habv] at hlt
  refine updateState_of_pos fee ?_ ?_ <;> simp only [reduced, TxMemPoolEntry.changed] <;> omega

theorem Covered.count_pos (hcov : m.Covered) (hroot : m.Rooted) {e : TxMemPoolEntry}
    (ha : m.mapTx.lookup a = some e) :
    0 < e.nSizeWithDescendants ∧ 0 < e.nCountWithDescendants := by
  simpa only [lost_nil] using hcov.lost_lt hroot [] (by simp) ha

theorem changed_changed (e : TxMemPoolEntry) (s s' : ℤ) (f f' : BitVec 64) (c c' : ℤ) :
    (e.changed s f c).changed s' f' c' = e.changed (s + s') (f + f') (c + c') := by
  simp [TxMemPoolEntry.changed, add_assoc]

theorem reduced_concat (hr : r ∉ gone) (a : Uint256) (e : TxMemPoolEntry) :
    open Classical in m.reduced (gone ++ [r]) a e =
      if TransGen m.Parent r a then (m.reduced gone a e).changed (-m.sizeOf r) (-m.feeOf r) (-1)
      else m.reduced gone a e := by
  split_ifs with habv
  · simp only [reduced, lost_concat_of_above _ hr habv, changed_changed, neg_add]
  · simp only [reduced, lost_concat_of_not_above _ habv]

theorem filter_concat_of_mem (hl : l.Nodup) :
    (l.filter (· ∉ gone)).erase r = l.filter (· ∉ gone ++ [r]) := by
  rw [(hl.filter _).erase_eq_filter, filter_filter]
  refine filter_congr fun x _ => ?_
  by_cases hx : x = r <;> simp [hx]

theorem filter_concat_of_notMem (gone : List Uint256) (hr : r ∉ l) :
    l.filter (· ∉ gone) = l.filter (· ∉ gone ++ [r]) := by
  refine filter_congr fun x hx => ?_
  have hne : x ≠ r := fun hc => hr (hc ▸ hx)
  simp [hne]

theorem Linked.children_lookup (hlink : m.Linked) {l : TxLinks} (hl : m.mapLinks.lookup x = some l) :
    l.children.Nodup ∧ ∀ c, c ∈ l.children ↔ m.Parent c x := by
  have hget : m.GetMemPoolChildren x = some l.children := by rw [GetMemPoolChildren, hl]; rfl
  refine ⟨hlink.children x _ hget, fun c => ?_⟩
  rw [← hlink.child_iff]
  exact ⟨fun hc => ⟨_, hget, hc⟩, fun ⟨_, hl', hc⟩ => Option.some.inj (hget.symm.trans hl') ▸ hc⟩

theorem Left.step (h : Left m gone m') (hlink : m.Linked) (hcov : m.Covered)
    (hgone : ∀ x ∈ gone ++ [r], x ∈ m.mapTx) (hr : r ∉ gone) :
    ∃ m'', m'.leaveAncestors r = some m'' ∧ Left m (gone ++ [r]) m'' := by
  classical
  have hroot := hlink.toRooted
  have hrmem : r ∈ m.mapTx := hgone r (by simp)
  obtain ⟨e, he⟩ := mem_mapTx.mp hrmem
  obtain ⟨parents, hpars, hnd⟩ := hroot.linked r hrmem
  obtain ⟨ancestors, hancs, hancNodup, habv⟩ :=
    (hroot.of_parents h.mem h.parents).ancestors (h.mem.mpr hrmem)
  rw [h.parent] at habv
  have hparentMem : ∀ p ∈ parents, p ∈ m'.mapLinks := by
    intro p hp
    have hmem := (hlink.links p).mpr (hroot.parent_mem r p ⟨parents, hpars, hp⟩).2
    rw [← AList.lookup_isSome, h.link, Option.isSome_map, AList.lookup_isSome]
    exact hmem
  have hfee : (m.reduced gone r e).GetModifiedFee = m.feeOf r := by rw [feeOf, he]; rfl
  have hsize : ((m.reduced gone r e).nTxSize : ℤ) = m.sizeOf r := by rw [sizeOf, he]; rfl
  let links := parents.foldl (fun t piter => t.modify piter {} fun links =>
    { links with children := setMember false r links.children }) m'.mapLinks
  obtain ⟨mapTx, hfold, hlk⟩ := modifyTotals_all { m' with mapLinks := links } hancNodup
    (-m.sizeOf r) (-m.feeOf r) (-1) fun a ha => by
      have hra := (habv a).mp ha
      obtain ⟨ea, hea⟩ := mem_mapTx.mp (hroot.reach_mem hrmem hra.to_reflTransGen)
      refine ⟨m.reduced gone a ea, ?_, hcov.updateState hroot hgone hr hea hra _⟩
      rw [h.entry, hea]
      rfl
  refine ⟨{ m' with mapLinks := links, mapTx := mapTx }, ?_, ?_⟩
  · rw [leaveAncestors, hancs, Option.bind_some, UpdateAncestorsOf, h.parents, hpars, h.entry, he]
    simp only [Option.bind_some, Option.map_some, foldl_UpdateChild, hfee, hsize,
      Bool.false_eq_true, if_false, neg_one_mul]
    exact hfold
  · refine ⟨fun x => ?_, fun x => ?_, ?_⟩
    · simp only [hlk, h.entry, habv]
      cases hx : m.mapTx.lookup x with
      | none => simp
      | some ex =>
        simp only [Option.map_some, reduced_concat hr]
        split_ifs <;> rfl
    · simp only [links, Table.lookup_foldl_modify hnd hparentMem, h.link]
      cases hx : m.mapLinks.lookup x with
      | none => simp
      | some l =>
        obtain ⟨hchildNodup, hcd⟩ := hlink.children_lookup hx
        by_cases hxp : x ∈ parents
        · simp only [hxp, if_true, Option.map_some, setMember, Bool.false_eq_true, if_false,
            filter_concat_of_mem hchildNodup]
        · have hnot : r ∉ l.children := by
            rw [hcd]
            rintro ⟨parents', hpars', hx'⟩
            exact hxp (Option.some.inj (hpars.symm.trans hpars') ▸ hx')
          simp only [hxp, if_false, Option.map_some]
          rw [filter_concat_of_notMem gone hnot]
    · rw [h.rest]

theorem notMem_of_nodup {done rest : List Uint256} (h : (done ++ r :: rest).Nodup) : r ∉ done :=
  fun hc => (nodup_append.mp h).2.2 r hc r mem_cons_self rfl

/-- The first loop passes all assertions and takes every entry's share from its ancestors. -/
theorem left_all (hlink : m.Linked) (hcov : m.Covered) {stage : List Uint256} (hnd : stage.Nodup)
    (hmem : ∀ x ∈ stage, x ∈ m.mapTx) : ∃ m', stage.foldlM leaveAncestors m = some m' ∧
      Left m stage m' := by
  refine Loops.foldlM_grow (fun done r rest m' hstg hleft => ?_) left_nil
  refine hleft.step hlink hcov (fun x hx => hmem x ?_) (notMem_of_nodup (hstg ▸ hnd))
  have hspl : stage = done ++ [r] ++ rest := by simp [hstg]
  rw [hspl]
  exact mem_append_left _ hx

end Left

end FloweeHub.TxMemPool
