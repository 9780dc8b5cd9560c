import FloweeHub.Mempool.Spending

/-! The totals of the descendants. They stay exact apart from three cases: a constructor leaves out
the fee, a rescued proof puts back an entry without its delta, and removing an entry from the middle
cuts off descendants. -/

namespace FloweeHub.TxMemPool

open Lib Relation Option List Or

variable (env : MempoolEnv) {m m' : TxMemPool} {utxo : Utxo} {ent fin : TxMemPoolEntry}
  {gone : List Uint256} {x : Uint256} {e : TxMemPoolEntry}

/-- The totals of an entry are those of its family. -/
structure ExactAt (m : TxMemPool) (x : Uint256) (e : TxMemPoolEntry) : Prop where
  count : e.nCountWithDescendants = (m.family x).card
  size : e.nSizeWithDescendants = ∑ d ∈ m.family x, m.sizeOf d
  fee : e.nModFeesWithDescendants = ∑ d ∈ m.family x, m.feeOf d

variable (m)

/-- A transaction in the mempool spends an output of another one in the mempool. -/
def SpendsFrom (c p : Uint256) : Prop :=
  (∃ e, m.mapTx.lookup c = some e ∧ ∃ op ∈ inputs e.tx, op.hash = p) ∧ p ∈ m.mapTx

/-- The links are those of the transactions. -/
def LinksExact : Prop := ∀ c p, (m.Parent c p ↔ m.SpendsFrom c p) ∧ (m.Child p c ↔ m.SpendsFrom c p)

/-- The totals of all entries that are not dirty, and the links. -/
def TotalsExact : Prop := (∀ x e, m.mapTx.lookup x = some e → ¬ e.IsDirty → m.ExactAt x e) ∧ m.LinksExact

/-- An entry has the fee delta that is kept for it, or no parent that has counted another one. -/
def DeltasKept : Prop :=
  ∀ x e, m.mapTx.lookup x = some e → e.feeDelta = (m.mapDeltas.lookup x).getD 0 ∨ ∀ p, ¬ m.Parent x p

/-- The totals of the entries outside of a set. -/
def ExactBut (except : List Uint256) : Prop := ∀ x e, m.mapTx.lookup x = some e → x ∉ except →
    m.ExactAt x e

variable {m} {except : List Uint256}

/-- What holds as long as the totals are exact. -/
structure Counts (m : TxMemPool) (except : List Uint256) : Prop where
  sound : m.Sound
  links : m.LinksExact
  deltas : m.DeltasKept
  exact : m.ExactBut except

theorem Sound.not_isDirty (h : m.Sound) (he : m.mapTx.lookup x = some e) : ¬ e.IsDirty := by
  simpa [TxMemPoolEntry.IsDirty] using (h.covered.count_pos h.linked.toRooted he).2.ne'

theorem totalsExact_iff (hsnd : m.Sound) : m.TotalsExact ↔ m.ExactBut [] ∧ m.LinksExact := by
  refine and_congr_left fun _ => ⟨fun h x e he _ => h x e he (hsnd.not_isDirty he),
    fun h x e he _ => h x e he (by simp)⟩

theorem linksExact_iff (hlinked : m.Linked) : m.LinksExact ↔ ∀ c p, m.Parent c p ↔ m.SpendsFrom c p :=
  ⟨fun h c p => (h c p).1, fun h c p => ⟨h c p, (hlinked.child_iff p c).trans (h c p)⟩⟩

theorem Same.spendsFrom (h : Same m m') (c p : Uint256) : m'.SpendsFrom c p ↔ m.SpendsFrom c p := by
  have hspd : ∀ m : TxMemPool, m.SpendsFrom c p ↔
      (∃ tx, (m.mapTx.lookup c).map (·.tx) = some tx ∧ ∃ op ∈ inputs tx, op.hash = p) ∧ p ∈ m.mapTx := by
    intro m
    refine and_congr_left fun _ => ?_
    constructor
    · rintro ⟨e, he, hop⟩
      exact ⟨e.tx, by rw [he]; rfl, hop⟩
    · rintro ⟨tx, htx, hop⟩
      obtain ⟨e, he, rfl⟩ := map_eq_some_iff.mp htx
      exact ⟨e, he, hop⟩
  have htx := h.map_lookup (fun shape => shape.1) c
  simp only [TxMemPoolEntry.shape] at htx
  rw [hspd, hspd, htx, h.mem]

theorem Same.linksExact (h : Same m m') (hlks : m.LinksExact) : m'.LinksExact := by
  intro c p
  rw [h.parent, h.child, h.spendsFrom]
  exact hlks c p

theorem Same.exactAt (h : Same m m') (hex : m.ExactAt x e) {e' : TxMemPoolEntry}
    (hsp : e'.shape = e.shape) (hfee : e'.nModFeesWithDescendants = ∑ d ∈ m.family x, m'.feeOf d) :
    m'.ExactAt x e' := by
  rw [TxMemPoolEntry.shape, TxMemPoolEntry.shape, Prod.mk.injEq, Prod.mk.injEq, Prod.mk.injEq] at hsp
  refine ⟨?_, ?_, ?_⟩
  · rw [h.family, hsp.2.2.1, hex.count]
  · rw [h.family, h.sizeOf, hsp.2.2.2, hex.size]
  · rw [h.family, hfee]

theorem SameFees.feeOf (h : SameFees m m') : m'.feeOf = m.feeOf := by
  funext x
  have helim : ∀ o : Option TxMemPoolEntry, o.elim 0 (fun e => e.GetModifiedFee) =
      ((o.map TxMemPoolEntry.fees).map fun fees => fees.1 + fees.2.1).getD 0 := by
    intro o
    cases o <;> rfl
  rw [TxMemPool.feeOf, TxMemPool.feeOf, helim, helim, h.fees]

theorem SameFees.lookup_inv (h : SameFees m m') {e' : TxMemPoolEntry}
    (hx : m'.mapTx.lookup x = some e') :
    ∃ e, m.mapTx.lookup x = some e ∧ e'.shape = e.shape ∧ e'.fees = e.fees := by
  have hsp := h.entry x
  have hfees := h.fees x
  rw [hx, map_some, eq_comm, map_eq_some_iff] at hsp hfees
  obtain ⟨e, he, hsp⟩ := hsp
  obtain ⟨e1, he1, hfees⟩ := hfees
  cases he.symm.trans he1
  exact ⟨e, he, hsp.symm, hfees.symm⟩

theorem SameFees.counts (h : SameFees m m') (hcounts : m.Counts except)
    (hlst : m'.dspStorage.Listed) : m'.Counts except where
  sound := h.toSame.sound hcounts.sound hlst
  links := h.toSame.linksExact hcounts.links
  deltas := by
    intro x e' hx
    obtain ⟨e, he, -, hfees⟩ := h.lookup_inv hx
    rw [TxMemPoolEntry.fees, TxMemPoolEntry.fees, Prod.mk.injEq, Prod.mk.injEq] at hfees
    rw [h.deltas, h.toSame.parent, hfees.2.1]
    exact hcounts.deltas x e he
  exact := by
    intro x e' hx hexc
    obtain ⟨e, he, hsp, hfees⟩ := h.lookup_inv hx
    rw [TxMemPoolEntry.fees, TxMemPoolEntry.fees, Prod.mk.injEq, Prod.mk.injEq] at hfees
    have hex := hcounts.exact x e he hexc
    exact h.toSame.exactAt hex hsp (by rw [h.feeOf, hfees.2.2, hex.fee])

theorem Counts.clear (h : m.Counts except) {hash : Uint256} (hhash : hash ∉ m.mapTx) :
    (m.ClearPrioritisation hash).Counts except where
  sound := (same_clear hash).sound h.sound h.sound.listed
  links := (same_clear hash).linksExact h.links
  deltas := by
    intro x e hx
    have hne : x ≠ hash := fun hc => hhash (hc ▸ mem_mapTx.mpr ⟨e, hx⟩)
    have hdl : (m.ClearPrioritisation hash).mapDeltas.lookup x = m.mapDeltas.lookup x := by
      rw [ClearPrioritisation, Table.lookup_erase, if_neg hne]
    rw [hdl, (same_clear hash).parent]
    exact h.deltas x e hx
  exact := by
    intro x e hx hexc
    have hex := h.exact x e hx hexc
    exact (same_clear hash).exactAt hex rfl hex.fee

section Removals

variable (h : Removed m gone m')
include h

theorem Removed.spendsFrom (c p : Uint256) : m'.SpendsFrom c p ↔ m.SpendsFrom c p ∧ c ∉ gone ∧
      p ∉ gone := by
  rw [SpendsFrom, SpendsFrom, h.mem]
  constructor
  · rintro ⟨⟨e', he', hop⟩, hp⟩
    obtain ⟨hc, e, he, rfl⟩ := h.lookup_inv he'
    exact ⟨⟨⟨e, he, hop⟩, hp.1⟩, hc, hp.2⟩
  · rintro ⟨⟨⟨e, he, hop⟩, hp⟩, hc, hp'⟩
    exact ⟨⟨m.reduced gone c e, by rw [h.lookup hc, he]; rfl, hop⟩, hp, hp'⟩

theorem Removed.linksExact (hlinked : m.Linked) (hlks : m.LinksExact) : m'.LinksExact := by
  rw [linksExact_iff (h.linked hlinked)]
  intro c p
  rw [h.parent_iff, h.spendsFrom, (hlks c p).1]

theorem Removed.deltasKept (hdls : m.DeltasKept) : m'.DeltasKept := by
  intro x e' hx
  obtain ⟨-, e, he, rfl⟩ := h.lookup_inv hx
  rw [h.deltas]
  rcases hdls x e he with hdl | hnone
  · exact inl hdl
  · exact inr fun p hp => hnone p ((h.parent_iff x p).mp hp).1

/-- The totals of an entry stay exact if and only if no descendant is cut off from it. -/
theorem Removed.exactAt_iff (hroot : m.Rooted) (hmem : ∀ r ∈ gone, r ∈ m.mapTx) (hx : x ∉ gone)
    (hex : m.ExactAt x e) :
    m'.ExactAt x (m.reduced gone x e) ↔ m'.family x = m.family x \ gone.toFinset := by
  have hsizes := hroot.sum_sdiff hmem hx m.sizeOf
  have hfees := hroot.sum_sdiff hmem hx m.feeOf
  have hcounts := hroot.sum_sdiff hmem hx fun _ => (1 : ℤ)
  rw [Finset.sum_const, Finset.sum_const, nsmul_eq_mul, nsmul_eq_mul, mul_one, mul_one] at hcounts
  constructor
  · rintro ⟨hct, -, -⟩
    refine Finset.eq_of_subset_of_card_le (h.family_subset x) ?_
    have htot := hex.count
    have hct : e.nCountWithDescendants + -m.lost gone (fun _ => 1) x = (m'.family x).card := hct
    omega
  · intro hfam
    have hstay : ∀ d ∈ m.family x \ gone.toFinset, d ∉ gone := fun d hd => by
      simpa using (Finset.mem_sdiff.mp hd).2
    refine ⟨?_, ?_, ?_⟩
    · show e.nCountWithDescendants + -m.lost gone (fun _ => 1) x = _
      rw [hfam, hex.count]
      omega
    · show e.nSizeWithDescendants + -m.lost gone m.sizeOf x = _
      rw [hfam, Finset.sum_congr rfl fun d hd => h.sizeOf (hstay d hd), hex.size]
      omega
    · show e.nModFeesWithDescendants + -m.lost gone m.feeOf x = _
      rw [hfam, Finset.sum_congr rfl fun d hd => h.feeOf (hstay d hd), hex.fee, ← hfees,
        add_neg_cancel_right]

theorem Removed.counts (hcounts : m.Counts except) (hmem : ∀ r ∈ gone, r ∈ m.mapTx)
    (hkeep : ∀ x, x ∉ gone → x ∉ except → ∀ d, d ∉ gone → ReflTransGen m.Parent d x →
      ReflTransGen m'.Parent d x) :
    m'.Counts except where
  sound := h.sound hcounts.sound hmem
  links := h.linksExact hcounts.sound.linked hcounts.links
  deltas := h.deltasKept hcounts.deltas
  exact := by
    intro x e' hx hexc
    obtain ⟨hgone, e, he, rfl⟩ := h.lookup_inv hx
    rw [h.exactAt_iff hcounts.sound.linked.toRooted hmem hgone (hcounts.exact x e he hexc),
      family, h.nodes]
    refine h.without.family_eq fun d hd => ?_
    obtain ⟨hd, hdgone⟩ := Finset.mem_sdiff.mp hd
    exact hkeep x hgone hexc d (by simpa using hdgone) (Lineage.mem_family.mp hd).2

theorem Removed.counts_whole (hcounts : m.Counts except) (hall : Whole m gone) : m'.Counts except :=
  h.counts hcounts hall.mem fun _ _ _ _ hd hrch =>
    h.without.reach_of_closed (by simpa using hall.closed) (by simpa using hd) hrch

end Removals

/-- A link that has nothing to do with `c`. -/
def Beside (m : TxMemPool) (c d p : Uint256) : Prop := m.Parent d p ∧ d ≠ c ∧ p ≠ c

/-- Taking a transaction out cuts no other one off from an ancestor. -/
def NoCut (m : TxMemPool) (c : Uint256) : Prop :=
  ∀ d a, d ≠ c → a ≠ c → ReflTransGen m.Parent d a → ReflTransGen (m.Beside c) d a

section Single

variable {tx : PoolTx}

theorem mem_single : x ∈ m.single tx ↔ x = tx.hash ∧ x ∈ m.mapTx := by
  refine ⟨single_mem x, ?_⟩
  rintro ⟨rfl, hx⟩
  rw [single, if_pos hx]
  exact mem_singleton_self _

variable (h : Removed m (m.single tx) m') (hcounts : m.Counts [])
include h hcounts

theorem Removed.parent_single : m'.Parent = m.Beside tx.hash := by
  funext d p
  rw [eq_iff_iff, h.parent_iff, Beside]
  refine and_congr_right fun hdp => ?_
  obtain ⟨hd, hp⟩ := hcounts.sound.linked.parent_mem d p hdp
  rw [mem_single, mem_single]
  simp [hd, hp]

/-- Removing a single entry keeps all totals exact if and only if it cuts nothing off. -/
theorem Removed.exact_single_iff : m'.ExactBut [] ↔ m.NoCut tx.hash := by
  have hmem : ∀ r ∈ m.single tx, r ∈ m.mapTx := fun r hr => (mem_single.mp hr).2
  have hroot := hcounts.sound.linked.toRooted
  constructor
  · intro hex d a hd ha hrch
    rcases eq_or_ne d a with rfl | hda
    · exact .refl
    have hdmem := hroot.mem_of_reach hrch hda
    obtain ⟨e, he⟩ := mem_mapTx.mp (hroot.reach_mem hdmem hrch)
    have hagone : a ∉ m.single tx := fun hc => ha (mem_single.mp hc).1
    have haft : m'.ExactAt a (m.reduced (m.single tx) a e) :=
      hex a _ (by rw [h.lookup hagone, he]; rfl) (by simp)
    rw [h.exactAt_iff hroot hmem hagone (hcounts.exact a e he (by simp))] at haft
    have hin : d ∈ m.family a \ (m.single tx).toFinset := by
      rw [Finset.mem_sdiff, family, Lineage.mem_family, List.mem_toFinset]
      exact ⟨⟨mem_nodes.mpr hdmem, hrch⟩, fun hc => hd (mem_single.mp hc).1⟩
    rw [← haft, family, Lineage.mem_family, h.parent_single hcounts] at hin
    exact hin.2
  · intro hcut
    refine (h.counts hcounts hmem fun a ha _ d hd hrch => ?_).exact
    rw [h.parent_single hcounts]
    rcases eq_or_ne d a with rfl | hda
    · exact .refl
    have hdmem := hroot.mem_of_reach hrch hda
    have hamem := hroot.reach_mem hdmem hrch
    exact hcut d a (fun hc => hd (mem_single.mpr ⟨hc, hdmem⟩)) (fun hc =>
      ha (mem_single.mpr ⟨hc, hamem⟩)) hrch

end Single

variable (m)

def deltaFor (hash : Uint256) : BitVec 64 := (m.mapDeltas.lookup hash).getD 0

theorem newEntry_fees (hfr : ent.Fresh) (hash : Uint256) :
    (m.newEntry hash ent).feeDelta = m.deltaFor hash ∧
      (m.newEntry hash ent).GetModifiedFee = ent.nFee + m.deltaFor hash ∧
      (m.newEntry hash ent).nModFeesWithDescendants = ent.nModFeesWithDescendants + m.deltaFor hash := by
  have hzero := hfr.feeDelta
  rw [newEntry, deltaFor]
  cases m.mapDeltas.lookup hash with
  | none => simp [TxMemPoolEntry.GetModifiedFee, hzero]
  | some delta =>
    simp only [getD_some]
    split_ifs with hdl
    · simp [TxMemPoolEntry.GetModifiedFee, TxMemPoolEntry.UpdateFeeDelta, hzero]
    · obtain rfl := not_not.mp hdl
      simp [TxMemPoolEntry.GetModifiedFee, hzero]

/-- A rescued proof puts back the entry that the call was made with. -/
def Outcome.Final (entry : TxMemPoolEntry) (rescued : Bool) (fin : TxMemPoolEntry) : Prop :=
  (rescued = false → fin = m.newEntry entry.tx.hash entry) ∧
    (rescued = true → ∃ id, fin = { entry with dsproof := id })

/-- No entry spends an output of the transaction. -/
def NoChildren (tx : PoolTx) : Prop := ∀ x e, m.mapTx.lookup x = some e → ∀ op ∈ inputs e.tx,
    op.hash ≠ tx.hash

variable {m} {rescued : Bool}

section Additions

variable (h : Added m ent fin m') (hnew : ent.tx.hash ∉ m.mapTx) (hfin : Settles ent fin)
  (hlinked : m.Linked)
include h hnew hfin hlinked

theorem Added.exactAt_new : m'.ExactAt ent.tx.hash fin ↔
      fin.nModFeesWithDescendants = fin.GetModifiedFee := by
  have hfam := h.family_new hnew hlinked
  have hsize : m'.sizeOf ent.tx.hash = fin.nTxSize := by rw [TxMemPool.sizeOf, h.lookup_new, elim_some]
  have hfee : m'.feeOf ent.tx.hash = fin.GetModifiedFee := by
    rw [TxMemPool.feeOf, h.lookup_new, elim_some]
  constructor
  · intro hex
    rw [hex.fee, hfam, Finset.sum_singleton, hfee]
  · intro htot
    refine ⟨?_, ?_, ?_⟩
    · rw [hfin.alone.count, hfam, Finset.card_singleton]
      rfl
    · rw [hfin.alone.size, hfam, Finset.sum_singleton, hsize]
    · rw [htot, hfam, Finset.sum_singleton, hfee]

theorem Added.exactAt_old (hx : x ≠ ent.tx.hash) (hex : m.ExactAt x e) :
    m'.ExactAt x (m.raised ent x e) ↔
    (m.Above ent.tx x → (m.newEntry ent.tx.hash ent).GetModifiedFee = fin.GetModifiedFee) := by
  have hsize : m'.sizeOf ent.tx.hash = ent.nTxSize := by
    rw [TxMemPool.sizeOf, h.lookup_new, elim_some, hfin.size]
  have hfee : m'.feeOf ent.tx.hash = fin.GetModifiedFee := by
    rw [TxMemPool.feeOf, h.lookup_new, elim_some]
  have hcounts := h.sum_family hnew hlinked (w := fun _ => (1 : ℤ)) (fun _ _ => rfl) hx
  have hsizes := h.sum_family hnew hlinked (fun x hx => h.sizeOf hx) hx
  have hfees := h.sum_family hnew hlinked (fun x hx => h.feeOf hx) hx
  simp only [Finset.sum_const, nsmul_eq_mul, mul_one] at hcounts
  by_cases habv : m.Above ent.tx x
  · rw [if_pos habv] at hcounts hsizes hfees
    simp only [raised_of_above habv, habv, forall_const]
    constructor
    · intro haft
      have htot : e.nModFeesWithDescendants + (m.newEntry ent.tx.hash ent).GetModifiedFee =
          ∑ d ∈ m'.family x, m'.feeOf d :=
        haft.fee
      rw [hfees, hex.fee, hfee] at htot
      exact add_left_cancel htot
    · intro hsame
      refine ⟨?_, ?_, ?_⟩
      · show e.nCountWithDescendants + 1 = _
        rw [hex.count, hcounts]
      · show e.nSizeWithDescendants + ent.nTxSize = _
        rw [hex.size, hsizes, hsize]
      · show e.nModFeesWithDescendants + _ = _
        rw [hex.fee, hfees, hfee, hsame]
  · rw [if_neg habv] at hcounts hsizes hfees
    simp only [raised_of_not_above habv, habv, false_implies, iff_true, id]
    exact ⟨by rw [hex.count, hcounts], by rw [hex.size, hsizes], by rw [hex.fee, hfees]⟩

theorem Added.linksExact (hch : m.NoChildren ent.tx) (hlks : m.LinksExact) : m'.LinksExact := by
  rw [linksExact_iff (h.linked hnew hlinked hfin)]
  intro c p
  rw [h.parent_iff hnew hlinked, (hlks c p).1, SpendsFrom, SpendsFrom, h.mem]
  by_cases hc : c = ent.tx.hash
  · have hold : m.mapTx.lookup c = none := by rw [hc]; exact AList.lookup_eq_none.mpr hnew
    have hself : m'.mapTx.lookup c = some fin := by rw [hc, h.lookup_new]
    constructor
    · rintro (⟨⟨e, he, -⟩, -⟩ | ⟨-, hp⟩)
      · exact absurd (hold.symm.trans he) (by simp)
      · obtain ⟨hop, hp⟩ := mem_searchParents.mp hp
        exact ⟨⟨fin, hself, by rw [hfin.tx]; exact hop⟩, inr hp⟩
    · rintro ⟨⟨e, he, op, hop, hhash⟩, hp⟩
      cases hself.symm.trans he
      rw [hfin.tx] at hop
      refine inr ⟨hc, mem_searchParents.mpr ⟨⟨op, hop, hhash⟩, hp.resolve_left fun hpc => ?_⟩⟩
      exact input_hash_ne hop (hhash.trans hpc)
  · have hlk : m'.mapTx.lookup c = (m.mapTx.lookup c).map (m.raised ent c) := by rw [h.found, if_neg hc]
    constructor
    · rintro (⟨⟨e, he, hop⟩, hp⟩ | ⟨hcc, -⟩)
      · exact ⟨⟨_, by rw [hlk, he]; rfl, by rw [raised_tx]; exact hop⟩, inr hp⟩
      · exact absurd hcc hc
    · rintro ⟨⟨e', he', op, hop, hhash⟩, hp⟩
      rw [hlk] at he'
      obtain ⟨e, he, rfl⟩ := map_eq_some_iff.mp he'
      rw [raised_tx] at hop
      exact inl ⟨⟨e, he, op, hop, hhash⟩, hp.resolve_left fun hpc => hch c e he op hop (hhash.trans hpc)⟩

end Additions

/-- The totals stay exact if and only if the entry's fee is counted by itself and its ancestors. -/
theorem Added.exact_iff (h : Added m ent fin m') (hnew : ent.tx.hash ∉ m.mapTx) (hfr : ent.Fresh)
    (hfin : Settles ent fin) (hfinal : Outcome.Final m ent rescued fin) (hcounts : m.Counts []) :
    m'.ExactBut [] ↔ ent.nModFeesWithDescendants = ent.nFee ∧
      (rescued → m.deltaFor ent.tx.hash = 0 ∨ m.searchParents ent.tx = []) := by
  have hlinked := hcounts.sound.linked
  obtain ⟨-, hmod, htot⟩ := newEntry_fees m hfr ent.tx.hash
  have hown : fin.nModFeesWithDescendants = fin.GetModifiedFee ↔
      ent.nModFeesWithDescendants = ent.nFee := by
    cases rescued with
    | false => rw [hfinal.1 rfl, hmod, htot, add_left_inj]
    | true =>
      obtain ⟨id, rfl⟩ := hfinal.2 rfl
      simp [TxMemPoolEntry.GetModifiedFee, hfr.feeDelta]
  have hshare : (m.newEntry ent.tx.hash ent).GetModifiedFee = fin.GetModifiedFee ↔
      (rescued → m.deltaFor ent.tx.hash = 0) := by
    cases rescued with
    | false => simp [hfinal.1 rfl]
    | true =>
      obtain ⟨id, rfl⟩ := hfinal.2 rfl
      show _ = ent.nFee + ent.feeDelta ↔ _
      rw [hmod, hfr.feeDelta, add_right_inj]
      simp
  constructor
  · intro hex
    refine ⟨hown.mp ((h.exactAt_new hnew hfin hlinked).mp (hex _ _ h.lookup_new (by simp))),
      fun hrsc => ?_⟩
    by_cases hpars : m.searchParents ent.tx = []
    · exact inr hpars
    · obtain ⟨p, hp⟩ := exists_mem_of_ne_nil _ hpars
      have habv : m.Above ent.tx p := ⟨p, hp, .refl⟩
      obtain ⟨e, he⟩ := mem_mapTx.mp (mem_searchParents.mp hp).2
      have hne : p ≠ ent.tx.hash := fun hc => hash_notMem_searchParents ent.tx (hc ▸ hp)
      have haft := hex p (m.raised ent p e) (by rw [h.found, if_neg hne, he]; rfl) (by simp)
      have hsame := (h.exactAt_old hnew hfin hlinked hne (hcounts.exact p e he (by simp))).mp haft habv
      exact inl (hshare.mp hsame hrsc)
  · rintro ⟨hfee, hdl⟩ x e' hx -
    rcases h.lookup_inv hx with ⟨rfl, rfl⟩ | ⟨hne, e, he, rfl⟩
    · exact (h.exactAt_new hnew hfin hlinked).mpr (hown.mpr hfee)
    · refine (h.exactAt_old hnew hfin hlinked hne (hcounts.exact x e he (by simp))).mpr fun habv =>
        hshare.mpr fun hrsc => ?_
      refine (hdl hrsc).resolve_right fun hnone => ?_
      obtain ⟨p, hp, -⟩ := habv
      rw [hnone] at hp
      exact absurd hp not_mem_nil

theorem Added.deltasKept (h : Added m ent fin m') (hnew : ent.tx.hash ∉ m.mapTx) (hfr : ent.Fresh)
    (hfinal : Outcome.Final m ent rescued fin) (hlinked : m.Linked) (hdls : m.DeltasKept)
    (hrsc : rescued → m.deltaFor ent.tx.hash = 0 ∨ m.searchParents ent.tx = []) : m'.DeltasKept := by
  intro x e' hx
  rw [h.deltas]
  rcases h.lookup_inv hx with ⟨rfl, rfl⟩ | ⟨hne, e, he, rfl⟩
  · cases rescued with
    | false =>
      rw [hfinal.1 rfl]
      exact inl (newEntry_fees m hfr ent.tx.hash).1
    | true =>
      obtain ⟨id, rfl⟩ := hfinal.2 rfl
      rcases hrsc rfl with hzero | hnone
      · exact inl (hfr.feeDelta.trans hzero.symm)
      · refine inr fun p hp => ?_
        rcases (h.parent_iff hnew hlinked _ p).mp hp with hold | ⟨-, hsrch⟩
        · exact hnew (hlinked.parent_mem _ p hold).1
        · rw [hnone] at hsrch
          exact absurd hsrch not_mem_nil
  · have hdl : (m.raised ent x e).feeDelta = e.feeDelta := by
      rw [raised]
      split_ifs <;> rfl
    rw [hdl]
    rcases hdls x e he with hkept | hnone
    · exact inl hkept
    · refine inr fun p hp => ?_
      rcases (h.parent_iff hnew hlinked x p).mp hp with hold | ⟨hself, -⟩
      · exact hnone p hold
      · exact hne hself

end FloweeHub.TxMemPool
