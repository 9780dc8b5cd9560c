import FloweeHub.Chain.HeaderChain
import FloweeHub.Lib.Runs

/-! The header chain over sequences of `appendHeader` calls. The tips should be the leaves of the
unmarked blocks, and the header chain should end in the best of them. The loop that extends tips
replaces an invalid tip by its parent and does not look further. -/

namespace FloweeHub

open Lib Lib.ParentTree Lib.Runs List Option

/-- The headers with the set of blocks that have been added. -/
structure HeaderState where
  db : BlocksDB
  added : Finset IndexPtr

namespace HeaderState

open BlocksDB IndexHeap

def live (st : HeaderState) : Finset IndexPtr := st.db.index.live st.added

/-- The header chain is the best valid chain, and the tips are the ends of the valid chains. -/
structure HeadersOk (st : HeaderState) : Prop where
  unmarked : ∀ p, st.db.headersChain.Contains st.db.index p = true → (st.db p).failed = false
  best : ∃ tip ∈ st.live, st.db.headersChain = some tip ∧
    ∀ p ∈ st.live, (st.db p).nChainWork ≤ (st.db tip).nChainWork
  tips : ∀ p, p ∈ st.db.headerChainTips ↔ p ∈ st.live ∧ ∀ c ∈ st.live, (st.db c).pprev ≠ some p
  nodup : st.db.headerChainTips.Nodup

/-- What every call keeps, whatever it does to the tips. -/
structure Tidy (st : HeaderState) : Prop where
  linked : st.db.index.Linked
  marked : st.db.index.Marked st.added

variable {st : HeaderState} {b q v m : IndexPtr} {p : IndexPtr} {tips : List IndexPtr} {t : IndexPtr}

theorem HeadersOk.mem_tips (h : st.HeadersOk) :
    p ∈ st.db.headerChainTips ↔ IsLeaf st.db.index.parent st.live p := h.tips p

section

variable (ht : st.Tidy) (hnd : tips.Nodup) (htips : ∀ p, p ∈ tips ↔ IsLeaf st.db.index.parent st.live p)
  (hm : m ∈ st.live)
include ht hnd htips hm

/-- It is enough that the header chain ends in an unmarked block that no tip exceeds. -/
theorem Tidy.headersOk (hbest : ∀ t ∈ tips, (st.db t).nChainWork ≤ (st.db m).nChainWork) :
    (HeaderState.mk { st.db with headerChainTips := tips, headersChain := some m }
      st.added).HeadersOk where
  unmarked p hp := by
    obtain ⟨tip, htip, habv⟩ := (Contains_iff ht.linked.toTree).mp hp
    obtain rfl : m = tip := some_inj.mp htip
    exact (mem_live.mp (ht.marked.live_closed.ancestor habv hm)).2
  best := by
    refine ⟨m, hm, rfl, fun p hp => ?_⟩
    obtain ⟨t, hleaf, habv⟩ := exists_leaf ht.linked.heights hp
    exact (ht.linked.works.le habv).trans (hbest t ((htips t).mpr hleaf))
  tips := htips
  nodup := hnd

theorem Tidy.headersOk_bestTip :
    (HeaderState.mk { st.db with
      headerChainTips := tips, headersChain := (bestTip st.db.index (some m) tips).1 }
        st.added).HeadersOk := by
  obtain ⟨x, hx, hmem, -, hmax⟩ := bestTip_spec st.db.index m tips
  rw [hx]
  refine ht.headersOk hnd htips ?_ hmax
  rcases hmem with rfl | hmem
  · exact hm
  · exact ((htips x).mp hmem).1

end

theorem nodup_concat {l : List IndexPtr} {a : IndexPtr} (hl : l.Nodup) (ha : a ∉ l) : (l ++ [a]).Nodup :=
  hl.append (nodup_singleton a) (by simpa using ha)

theorem HeadersOk.antichain (h : st.HeadersOk) (ht : st.Tidy) {u : IndexPtr}
    (htip : t ∈ st.db.headerChainTips) (hu : u ∈ st.live) (habv : st.db.index.Above t u) : t = u :=
  (h.mem_tips.mp htip).eq ht.marked.live_closed habv hu

/-! ### Adding a block -/

/-- A block is added on top of an unmarked one, or as the first. -/
structure Adds (st : HeaderState) (b : IndexPtr) : Prop where
  fresh : b ∉ st.added
  valid : (st.db b).failed = false
  parent : ∀ q, st.db.index.parent b = some q → q ∈ st.live

section

variable (h : st.Adds b)

include h

theorem Adds.live_insert : st.db.index.live (insert b st.added) = insert b st.live := by
  rw [IndexHeap.live, Finset.filter_insert, if_pos h.valid]
  rfl

theorem Adds.not_live : b ∉ st.live := fun hb => h.fresh (mem_live.mp hb).1

theorem Adds.not_above (ht : st.Tidy) (hp : p ∈ st.live) : ¬ st.db.index.Above b p :=
  fun habv => h.not_live (ht.marked.live_closed.ancestor habv hp)

/-- The leaves when `b` is there: its parent is none any more. -/
theorem Adds.isLeaf_insert (ht : st.Tidy) : IsLeaf st.db.index.parent (insert b st.live) p ↔
      p = b ∨ IsLeaf st.db.index.parent st.live p ∧ st.db.index.parent b ≠ some p := by
  constructor
  · rintro ⟨hp, hcd⟩
    rcases Finset.mem_insert.mp hp with rfl | hp
    · exact .inl rfl
    · exact .inr ⟨⟨hp, fun c hc => hcd c (Finset.mem_insert_of_mem hc)⟩,
        hcd b (Finset.mem_insert_self b _)⟩
  · rintro (rfl | ⟨⟨hp, hcd⟩, hb⟩)
    · refine ⟨Finset.mem_insert_self p _, fun c hc hpar => ?_⟩
      rcases Finset.mem_insert.mp hc with rfl | hc
      · have := ht.linked.heights hpar
        omega
      · exact h.not_above ht hc (.of_parent hpar)
    · refine ⟨Finset.mem_insert_of_mem hp, fun c hc => ?_⟩
      rcases Finset.mem_insert.mp hc with rfl | hc
      · exact hb
      · exact hcd c hc

theorem Adds.tidy (ht : st.Tidy) : (HeaderState.mk st.db (insert b st.added)).Tidy where
  linked := ht.linked
  marked := {
    closed := fun a c hp hc => by
      rcases Finset.mem_insert.mp hc with rfl | hc
      · exact Finset.mem_insert_of_mem (mem_live.mp (h.parent a hp)).1
      · exact Finset.mem_insert_of_mem (ht.marked.closed hp hc)
    child := fun a c hp hc ha => by
      rcases Finset.mem_insert.mp hc with rfl | hc
      · rw [(mem_live.mp (h.parent a hp)).2] at ha
        cases ha
      · exact ht.marked.child hp hc ha
    root := fun p hp => by
      rcases Finset.mem_insert.mp hp with rfl | hp
      · cases hpar : st.db.index.parent p with
        | none => exact ⟨p, .refl p, hpar, h.valid⟩
        | some q =>
          obtain ⟨g, hg, hroot⟩ := ht.marked.root q (mem_live.mp (h.parent q hpar)).1
          exact ⟨g, hg.trans (.of_parent hpar), hroot⟩
      · exact ht.marked.root p hp
    fresh := fun p hp => ht.marked.fresh p fun hmem => hp (Finset.mem_insert_of_mem hmem) }

theorem Adds.headersOk (ht : st.Tidy) (hok : st.HeadersOk) :
    (HeaderState.mk (st.db.appendHeader b).2 (insert b st.added)).HeadersOk := by
  obtain ⟨m, hm, hcn, hbest⟩ := hok.best
  have ht' := h.tidy ht
  have hbtip : b ∉ st.db.headerChainTips := fun hmem => h.not_live (hok.mem_tips.mp hmem).1
  have hlive : (HeaderState.mk st.db (insert b st.added)).live = insert b st.live := h.live_insert
  have hm' : m ∈ (HeaderState.mk st.db (insert b st.added)).live := hlive ▸ Finset.mem_insert_of_mem hm
  rcases appendHeader_valid ht.linked.toTree h.valid with ⟨-, hkn⟩ |
    ⟨-, ⟨t, htip, habv, heq⟩ | ⟨hnew, heq⟩⟩
  · rcases hkn with hcon | ⟨t, htip, habv⟩
    · obtain ⟨tip, htip, habv⟩ := (Contains_iff ht.linked.toTree).mp hcon
      exact absurd (some_inj.mp (htip.symm.trans hcn) ▸ habv) (h.not_above ht hm)
    · exact absurd habv (h.not_above ht (hok.mem_tips.mp htip).1)
  · -- the tip before `b` is its parent
    have hpar : st.db.index.parent b = some t := by
      rcases habv.cases_parent with rfl | ⟨q, hq, htq⟩
      · exact absurd htip hbtip
      · rw [hok.antichain ht htip (h.parent q hq) htq, hq]
    have htips : ∀ p, p ∈ st.db.headerChainTips.erase t ++ [b] ↔
        IsLeaf st.db.index.parent (HeaderState.mk st.db (insert b st.added)).live p := by
      intro p
      rw [hlive, h.isLeaf_insert ht, mem_append, mem_singleton, hok.nodup.mem_erase_iff,
        hok.mem_tips, hpar, or_comm]
      refine or_congr_right ?_
      rw [and_comm, ne_eq, ne_eq, some_inj, eq_comm]
    have hnd := nodup_concat (hok.nodup.erase t) fun hmem => hbtip (mem_of_mem_erase hmem)
    rw [heq]
    split_ifs with hmain
    · refine ht'.headersOk hnd htips (hlive ▸ Finset.mem_insert_self b _) fun u hu => ?_
      rcases mem_append.mp hu with hu | hu
      · cases hcn.symm.trans hmain
        have hle := hbest u (hok.mem_tips.mp (mem_of_mem_erase hu)).1
        exact hle.trans (ht.linked.works hpar).le
      · rw [mem_singleton.mp hu]
    · rw [hcn]
      exact ht'.headersOk_bestTip hnd htips hm'
  · have htips : ∀ p, p ∈ st.db.headerChainTips ++ [b] ↔
        IsLeaf st.db.index.parent (HeaderState.mk st.db (insert b st.added)).live p := by
      intro p
      rw [hlive, h.isLeaf_insert ht, mem_append, mem_singleton, hok.mem_tips, or_comm]
      refine or_congr_right ⟨fun hp => ⟨hp, fun hpar => ?_⟩, And.left⟩
      exact (hnew p (hok.mem_tips.mpr hp)).2 (.of_parent hpar)
    rw [heq, hcn]
    exact ht'.headersOk_bestTip (nodup_concat hok.nodup hbtip) htips hm'

theorem Adds.headersOk_first (ht : st.Tidy) (hadd : st.added = ∅)
    (htips : st.db.headerChainTips = []) (hcn : st.db.headersChain = none) :
    (HeaderState.mk (st.db.appendHeader b).2 (insert b st.added)).HeadersOk := by
  have hemp : st.live = ∅ := by
    rw [live, IndexHeap.live, hadd]
    rfl
  have hlive : (HeaderState.mk st.db (insert b st.added)).live = insert b st.live := h.live_insert
  have hleaf : ∀ p, p ∈ [b] ↔
      IsLeaf st.db.index.parent (HeaderState.mk st.db (insert b st.added)).live p := by
    intro p
    rw [hlive, h.isLeaf_insert ht, hemp, mem_singleton]
    simp [IsLeaf]
  rw [appendHeader_first h.valid hcn htips]
  exact (h.tidy ht).headersOk (nodup_singleton b) hleaf (hlive ▸ Finset.mem_insert_self b _) (by simp)

end

theorem headersOk_again (ht : st.Tidy) (hok : st.HeadersOk) (hb : b ∈ st.live) :
    (HeaderState.mk (st.db.appendHeader b).2 st.added).HeadersOk := by
  obtain ⟨m, hm, hcn, -⟩ := hok.best
  rcases appendHeader_valid ht.linked.toTree (mem_live.mp hb).2 with
    ⟨heq, -⟩ | ⟨hc, ⟨t, htip, habv, heq⟩ | ⟨hnew, -⟩⟩
  · rwa [heq]
  · obtain rfl := hok.antichain ht htip hb habv
    have hmain : st.db.headersChain ≠ some t := fun heq => by
      rw [(Contains_iff ht.linked.toTree).mpr ⟨t, heq, .refl t⟩] at hc
      cases hc
    have hperm := (perm_append_singleton t _).trans (perm_cons_erase htip).symm
    rw [heq, if_neg hmain, hcn]
    exact ht.headersOk_bestTip (hperm.nodup_iff.mpr hok.nodup) (fun p =>
      hperm.mem_iff.trans hok.mem_tips) hm
  · obtain ⟨t, hleaf, habv⟩ := exists_leaf ht.linked.heights hb
    exact absurd habv (hnew t (hok.mem_tips.mpr hleaf)).1

/-! ### Invalidating a block -/

/-- `appendHeader` on a failed block; `before` are the blocks that were unmarked. -/
structure Fails (st : HeaderState) (b : IndexPtr) (before : Finset IndexPtr) : Prop where
  mem : b ∈ st.added
  failed : (st.db b).failed = true
  closed : Closed st.db.index.parent before
  live : ∀ p, p ∈ st.live ↔ p ∈ before ∧ ¬ st.db.index.Above b p
  tips : ∀ p, p ∈ st.db.headerChainTips ↔ IsLeaf st.db.index.parent before p
  nodup : st.db.headerChainTips.Nodup
  chain : ∃ m ∈ before, st.db.headersChain = some m ∧
    ∀ p ∈ before, (st.db p).nChainWork ≤ (st.db m).nChainWork

variable {before : Finset IndexPtr}

namespace Fails

variable {p : IndexPtr}

section

variable (h : st.Fails b before)

include h

theorem parent (ht : st.Tidy) : ∃ q, st.db.index.parent b = some q := by
  obtain ⟨g, hg, -, hgf⟩ := ht.marked.root b h.mem
  rcases hg.cases_parent with rfl | ⟨q, hq, -⟩
  · rw [h.failed] at hgf
    cases hgf
  · exact ⟨q, hq⟩

section

variable (ht : st.Tidy) (hq : st.db.index.parent b = some q)
include ht hq

theorem lastValid : st.db.index.LastValid q (validPrevOf st.db.index b) := by
  rw [validPrevOf_invalid h.failed hq]
  exact validFrom_lastValid ht.linked.toTree ht.marked (ht.marked.closed hq h.mem) (Nat.lt_succ_self _)

theorem validPrev_live : validPrevOf st.db.index b ∈ st.live := by
  obtain ⟨habv, hval, -⟩ := h.lastValid ht hq
  exact mem_live.mpr ⟨ht.marked.closed.ancestor habv (ht.marked.closed hq h.mem), hval⟩

theorem validPrev_eq (hlive : q ∈ st.live) : validPrevOf st.db.index b = q := by
  obtain ⟨habv, -, hlast⟩ := h.lastValid ht hq
  exact ht.linked.works.antisymm habv (hlast q (.refl q) (mem_live.mp hlive).2)

end

/-- Of the children of an unmarked block only the failed block itself got lost. -/
theorem eq_of_dropped {d : IndexPtr} (hp : p ∈ st.live) (hd : d ∈ before)
    (hpar : st.db.index.parent d = some p) (hdrop : d ∉ st.live) : d = b := by
  have habv : st.db.index.Above b d := by
    by_contra hn
    exact hdrop ((h.live d).mpr ⟨hd, hn⟩)
  rcases habv.cases_parent with rfl | ⟨c, hc, hbc⟩
  · rfl
  · cases hpar.symm.trans hc
    exact absurd hbc ((h.live p).mp hp).2

theorem live_subset (hp : p ∈ st.live) : p ∈ before := ((h.live p).mp hp).1

/-- Some tip is before the failed block, which is no tip itself: it had failed before. -/
theorem headersOk_found (ht : st.Tidy) (hb : b ∉ st.db.headerChainTips)
    (hfind : st.db.headerChainTips.find? (st.db.tipBefore b) = some t) :
    (HeaderState.mk (st.db.appendHeader b).2 st.added).HeadersOk := by
  obtain ⟨htip, habv⟩ := find_tipBefore_some ht.linked.toTree hfind
  obtain ⟨q, hq⟩ := h.parent ht
  obtain ⟨m, hm, hcn, hbest⟩ := h.chain
  have hleaf := (h.tips t).mp htip
  have hbef : b ∉ before := fun hmem => hb (hleaf.eq h.closed habv hmem ▸ htip)
  have hlive : st.live = before := by
    refine Finset.ext fun p => (h.live p).trans (and_iff_left_of_imp fun hp hbp => ?_)
    exact hbef (h.closed.ancestor hbp hp)
  have htq : st.db.index.Above t q := by
    rcases habv.cases_parent with rfl | ⟨c, hc, htc⟩
    · exact absurd htip hb
    · rwa [some_inj.mp (hq.symm.trans hc)]
  have hprev : validPrevOf st.db.index b = t := by
    have htlive : t ∈ st.live := hlive ▸ hleaf.1
    have hv := h.validPrev_live ht hq
    exact (hleaf.eq h.closed ((h.lastValid ht hq).last t htq (mem_live.mp htlive).2)
      (h.live_subset hv)).symm
  have hperm := (perm_append_singleton t _).trans (perm_cons_erase htip).symm
  have htips : ∀ p, p ∈ st.db.headerChainTips.erase t ++ [t] ↔ IsLeaf st.db.index.parent st.live p := by
    intro p
    rw [hlive, ← h.tips, hperm.mem_iff]
  have hnd := hperm.nodup_iff.mpr h.nodup
  rw [appendHeader_found (.inl h.failed) hfind, hprev]
  split_ifs with hmain
  · cases hcn.symm.trans hmain
    exact ht.headersOk hnd htips (hlive ▸ hm) fun u hu => hbest u (hlive ▸ ((htips u).mp hu).1)
  · rw [hcn]
    exact ht.headersOk_bestTip hnd htips (hlive ▸ hm)

/-- The ends of what is left: the tips, and perhaps the last valid block before the failed one. -/
theorem isLeaf_live (ht : st.Tidy) : IsLeaf st.db.index.parent st.live p ↔
      p ∈ st.db.headerChainTips ∧ p ∈ st.live ∨
      p = validPrevOf st.db.index b ∧ IsLeaf st.db.index.parent st.live p := by
  constructor
  · rintro ⟨hp, hcd⟩
    by_cases hold : ∃ d ∈ before, st.db.index.parent d = some p
    · obtain ⟨d, hd, hpar⟩ := hold
      obtain rfl := h.eq_of_dropped hp hd hpar fun hlive => hcd d hlive hpar
      exact .inr ⟨(h.validPrev_eq ht hpar hp).symm, hp, hcd⟩
    · refine .inl ⟨(h.tips p).mpr ⟨h.live_subset hp, fun d hd hpar => hold ⟨d, hd, hpar⟩⟩, hp⟩
  · rintro (⟨htip, hp⟩ | ⟨-, hleaf⟩)
    · exact ⟨hp, fun c hc => ((h.tips p).mp htip).2 c (h.live_subset hc)⟩
    · exact hleaf

/-- No tip is before the failed block: the tips behind it are dropped. -/
theorem headersOk_scanned (ht : st.Tidy)
    (hfind : st.db.headerChainTips.find? (st.db.tipBefore b) = none) :
    (HeaderState.mk (st.db.appendHeader b).2 st.added).HeadersOk := by
  obtain ⟨q, hq⟩ := h.parent ht
  obtain ⟨m, hm, hcn, hbest⟩ := h.chain
  have hmtip : m ∈ st.db.headerChainTips :=
    (h.tips m).mpr ⟨hm, fun c hc hp => absurd (hbest c hc) (not_le.mpr (ht.linked.works hp))⟩
  have hvlive := h.validPrev_live ht hq
  have hlvs : ∀ p, IsLeaf st.db.index.parent st.live p ↔ _ := fun p => h.isLeaf_live ht
  obtain ⟨s, hscan, hinv⟩ :=
    scan_invalid ht.linked.toTree b (validPrevOf st.db.index b) m st.db.headerChainTips
  rw [appendHeader_scanned (.inl h.failed) hfind (by rw [h.failed, hcn]; exact hscan)]
  generalize validPrevOf st.db.index b = v at *
  have hkept : ∀ t, t ∈ s.tips ↔ t ∈ st.db.headerChainTips ∧ t ∈ st.live := by
    intro t
    rw [hinv.mem_tips, h.live]
    exact and_congr_right fun htip => (and_iff_right ((h.tips t).mp htip).1).symm
  simp only [← hkept] at hlvs
  have hw : ∃ w ∈ st.live, s.headersChain = some w := by
    rcases hinv.chain with ⟨hm', hkeep⟩ | ⟨-, w, hw, rfl | hmem⟩
    · exact ⟨m, (h.live m).mpr ⟨hm, hkeep hmtip⟩, hm'⟩
    · exact ⟨w, hvlive, hw⟩
    · exact ⟨w, ((hkept w).mp hmem).2, hw⟩
  obtain ⟨w, hwlive, hw⟩ := hw
  simp only [h.failed, Bool.not_true, Bool.false_and, Bool.false_eq_true, if_false, hw]
  have hnd := hinv.sublist.nodup h.nodup
  by_cases hc : s.alreadyContains
  · -- a chain that is kept goes through the last valid block, which is then no end
    rw [if_neg (by simp [hc])]
    refine ht.headersOk_bestTip hnd (fun p => (or_iff_left_of_imp ?_).symm.trans (hlvs p).symm) hwlive
    rintro ⟨rfl, hleaf⟩
    obtain ⟨u, hu, hvu⟩ := hinv.contains.mp hc
    rwa [hleaf.eq ht.marked.live_closed hvu ((hkept u).mp hu).2]
  · have hvleaf : IsLeaf st.db.index.parent st.live v := by
      obtain ⟨u, hu, hvu⟩ := exists_leaf ht.linked.heights hvlive
      rcases (hlvs u).mp hu with hmem | ⟨rfl, hleaf⟩
      · exact absurd (hinv.contains.mpr ⟨u, hmem, hvu⟩) hc
      · exact hleaf
    have hvtips : v ∉ s.tips := fun hmem => hc (hinv.contains.mpr ⟨v, hmem, .refl v⟩)
    have hprev : s.validPrev = v := hinv.validPrev.resolve_right fun hp => hc hp.1
    by_cases hmod : s.modified
    · rw [if_pos (by simp [hc, hmod]), hprev]
      refine ht.headersOk_bestTip (nodup_concat hnd hvtips) (fun p => ?_) hwlive
      rw [hlvs, mem_append, mem_singleton]
      refine or_congr_right ⟨?_, And.left⟩
      rintro rfl
      exact ⟨rfl, hvleaf⟩
    · -- nothing is behind the failed block, so every old tip is kept
      have hbef : before ⊆ st.live :=
        fun p hp => (h.live p).mpr ⟨hp, fun hbp => hmod (hinv.modified.mpr ?_)⟩
      · refine absurd ((hkept v).mpr ⟨(h.tips v).mpr ⟨h.live_subset hvlive, fun d hd => ?_⟩,
          hvlive⟩) hvtips
        exact hvleaf.2 d (hbef hd)
      · obtain ⟨u, hu, hpu⟩ := exists_leaf ht.linked.heights hp
        exact ⟨u, (h.tips u).mpr hu, hbp.trans hpu⟩

/-- A failed block that is not one of the tips is handled well. -/
theorem headersOk (ht : st.Tidy) (hb : b ∉ st.db.headerChainTips) :
    (HeaderState.mk (st.db.appendHeader b).2 st.added).HeadersOk := by
  cases hfind : st.db.headerChainTips.find? (st.db.tipBefore b) with
  | some t => exact h.headersOk_found ht hb hfind
  | none => exact h.headersOk_scanned ht hfind

/-- A failed tip is replaced by its parent, which is right if that has no other child and, for the
tip of the header chain, no chain is better. -/
theorem headersOk_tip_iff (ht : st.Tidy) (hb : b ∈ st.db.headerChainTips)
    (hq : st.db.index.parent b = some q) :
    (HeaderState.mk (st.db.appendHeader b).2 st.added).HeadersOk ↔
      (∀ c ∈ st.live, st.db.index.parent c ≠ some q) ∧ (st.db.headersChain = some b →
        ∀ p ∈ st.live, (st.db p).nChainWork ≤ (st.db q).nChainWork) := by
  obtain ⟨m, hm, hcn, hbest⟩ := h.chain
  have hbleaf := (h.tips b).mp hb
  have hfind : st.db.headerChainTips.find? (st.db.tipBefore b) = some b := by
    cases hfind : st.db.headerChainTips.find? (st.db.tipBefore b) with
    | some t =>
      obtain ⟨htip, habv⟩ := find_tipBefore_some ht.linked.toTree hfind
      rw [((h.tips t).mp htip).eq h.closed habv hbleaf.1]
    | none => exact absurd (.refl b) (find_tipBefore_none ht.linked.toTree hfind hb)
  have hqlive : q ∈ st.live := by
    refine (h.live q).mpr ⟨h.closed hq hbleaf.1, fun hbq => ?_⟩
    exact absurd (ht.linked.works.le hbq) (ht.linked.works hq).not_ge
  have hlive : ∀ p, p ∈ st.live ↔ p ∈ before ∧ p ≠ b := by
    intro p
    rw [h.live]
    refine and_congr_right fun hp => not_congr ⟨fun hbp => (hbleaf.eq h.closed hbp hp).symm, ?_⟩
    rintro rfl
    exact .refl p
  have hqtips : q ∉ st.db.headerChainTips := fun hmem => ((h.tips q).mp hmem).2 b hbleaf.1 hq
  rw [appendHeader_found (.inl h.failed) hfind, h.validPrev_eq ht hq hqlive]
  constructor
  · intro hok
    refine ⟨((hok.tips q).mp (by simp)).2, fun hmain p hp => ?_⟩
    obtain ⟨tip, -, htip, hmax⟩ := hok.best
    simp only [hmain, if_true] at htip
    rw [some_inj.mp htip]
    exact hmax p hp
  · rintro ⟨hcd, hwork⟩
    have hnd := nodup_concat (h.nodup.erase b) fun hmem => hqtips (mem_of_mem_erase hmem)
    have htips : ∀ p, p ∈ st.db.headerChainTips.erase b ++ [q] ↔
        IsLeaf st.db.index.parent st.live p := by
      intro p
      rw [h.isLeaf_live ht, mem_append, mem_singleton, h.nodup.mem_erase_iff,
        h.validPrev_eq ht hq hqlive]
      refine or_congr ⟨fun ⟨hne, htip⟩ => ⟨htip, (hlive p).mpr ⟨((h.tips p).mp htip).1, hne⟩⟩,
        fun ⟨htip, hp⟩ => ⟨((hlive p).mp hp).2, htip⟩⟩ ⟨?_, And.left⟩
      rintro rfl
      exact ⟨rfl, hqlive, hcd⟩
    split_ifs with hmain
    · exact ht.headersOk hnd htips hqlive fun u hu => hwork hmain u ((htips u).mp hu).1
    · rw [hcn] at hmain ⊢
      refine ht.headersOk_bestTip hnd htips ((hlive m).mpr ⟨hm, ?_⟩)
      rintro rfl
      exact hmain rfl

end

end Fails

end HeaderState

namespace IndexHeap

variable {ix : IndexHeap}

def setMarks (index : IndexHeap) (valid child : IndexPtr → Bool) : IndexHeap := fun p =>
  { index p with failedValid := (index p).failedValid || valid p, failedChild := (index p).failedChild || child p }

theorem failed_setMarks (ix : IndexHeap) (valid child : IndexPtr → Bool) (p : IndexPtr) :
    (ix.setMarks valid child p).failed = ((ix p).failed || (valid p || child p)) := by
  simp only [setMarks, BlockIndex.failed]
  cases (ix p).failedValid <;> cases (ix p).failedChild <;> cases valid p <;> simp

theorem Linked.setMarks (h : ix.Linked) (valid child : IndexPtr → Bool) :
    (ix.setMarks valid child).Linked :=
  ⟨⟨h.heights, h.skips, h.lowest⟩, h.works⟩

/-- What `handleFailedBlock` marks: the block, and as its children the known blocks behind it. -/
def markFailed (index : IndexHeap) (added : Finset IndexPtr) (b : IndexPtr) : IndexHeap :=
  index.setMarks (fun p => p = b) fun p => p ≠ b ∧ p ∈ added ∧
    index.GetAncestor p (index b).nHeight = some b

theorem failed_markFailed (h : ix.Linked) {added : Finset IndexPtr} {b : IndexPtr} (hb : b ∈ added)
    (p : IndexPtr) :
    (ix.markFailed added b p).failed = true ↔ (ix p).failed ∨ p ∈ added ∧ ix.Above b p := by
  rw [markFailed, failed_setMarks]
  simp only [Bool.or_eq_true, decide_eq_true_eq, GetAncestor_height h.toTree]
  refine or_congr_right ⟨?_, fun ⟨hp, habv⟩ => ?_⟩
  · rintro (rfl | ⟨-, hp⟩)
    · exact ⟨hb, .refl p⟩
    · exact hp
  · by_cases hpb : p = b
    · exact .inl hpb
    · exact .inr ⟨hpb, hp, habv⟩

/-- What `createBlockIndexFor` marks: a block whose parent has failed. -/
def markChild (index : IndexHeap) (b : IndexPtr) : IndexHeap := index.setMarks (fun _ => false)
    fun p => p = b

theorem failed_markChild (b p : IndexPtr) : (ix.markChild b p).failed = true ↔ (ix p).failed ∨
      p = b := by
  rw [markChild, failed_setMarks]
  simp

variable {added : Finset IndexPtr} {b : IndexPtr}

theorem Marked.markFailed (h : ix.Marked added) (hl : ix.Linked) (hb : b ∈ added)
    (hroot : ix.parent b ≠ none) :
    (ix.markFailed added b).Marked added where
  closed := h.closed
  child a c hp hc ha := by
    rw [failed_markFailed hl hb] at ha ⊢
    rcases ha with ha | ⟨-, hba⟩
    · exact .inl (h.child hp hc ha)
    · exact .inr ⟨hc, hba.trans (.of_parent hp)⟩
  root p hp := by
    obtain ⟨g, hg, hnone, hgf⟩ := h.root p hp
    refine ⟨g, hg, hnone, ?_⟩
    rw [Bool.eq_false_iff, ne_eq, failed_markFailed hl hb, hgf]
    rintro (hf | ⟨-, hbg⟩)
    · cases hf
    · rcases hbg.cases_parent with rfl | ⟨c, hc, -⟩
      · exact hroot hnone
      · cases hc.symm.trans hnone
  fresh p hp := by
    rw [Bool.eq_false_iff, ne_eq, failed_markFailed hl hb, h.fresh p hp]
    rintro (hf | ⟨hmem, -⟩)
    · cases hf
    · exact hp hmem

theorem Marked.markChild (h : ix.Marked added) (hb : b ∉ added) {q : IndexPtr}
    (hq : ix.parent b = some q) (hmem : q ∈ added) : (ix.markChild b).Marked (insert b added) where
  closed a c hp hc := by
    rcases Finset.mem_insert.mp hc with rfl | hc
    · exact Finset.mem_insert_of_mem (some_inj.mp (hq.symm.trans hp) ▸ hmem)
    · exact Finset.mem_insert_of_mem (h.closed hp hc)
  child a c hp hc ha := by
    rw [failed_markChild] at ha ⊢
    rcases Finset.mem_insert.mp hc with rfl | hmem'
    · exact .inr rfl
    · rcases ha with ha | rfl
      · exact .inl (h.child hp hmem' ha)
      · exact absurd (h.closed hp hmem') hb
  root p hp := by
    have hold : ∀ p ∈ added, ∃ g, ix.Above g p ∧ ix.parent g = none ∧
        (ix.markChild b g).failed = false := by
      intro p' hp'
      obtain ⟨g, hg, hnone, hgf⟩ := h.root p' hp'
      refine ⟨g, hg, hnone, ?_⟩
      rw [Bool.eq_false_iff, ne_eq, failed_markChild, hgf]
      rintro (hf | rfl)
      · cases hf
      · exact hb (h.closed.ancestor hg hp')
    rcases Finset.mem_insert.mp hp with rfl | hp
    · obtain ⟨g, hg, hroot⟩ := hold q hmem
      exact ⟨g, hg.trans (.of_parent hq), hroot⟩
    · exact hold p hp
  fresh p hp := by
    rw [Finset.mem_insert, not_or] at hp
    rw [Bool.eq_false_iff, ne_eq, failed_markChild, h.fresh p hp.2]
    rintro (hf | hpb)
    · cases hf
    · exact hp.1 hpb

end IndexHeap

/-- `append` is for a header that arrived, `inherits` tells whether it got the mark of a failed
parent. -/
inductive HeaderCall
  | append (b : IndexPtr) (inherits : Bool)
  | invalidate (b : IndexPtr)
deriving DecidableEq, Repr

def HeaderCall.block : HeaderCall → IndexPtr
  | .append b _ | .invalidate b => b

namespace HeaderState

open BlocksDB IndexHeap

variable {st : HeaderState} {b : IndexPtr}

/-- The parent of a block carries a failed mark. -/
def parentFailed (st : HeaderState) (b : IndexPtr) : Bool := (st.db.index.parent b).any fun q =>
    (st.db q).failed

theorem parentFailed_iff : st.parentFailed b = true ↔ ∃ q, st.db.index.parent b = some q ∧
      (st.db q).failed := by
  unfold parentFailed
  cases st.db.index.parent b <;> simp

variable (st)

/-- The objects with the marks that are there when `appendHeader` is called. -/
def marks : HeaderCall → IndexHeap
  | .append b inherits =>
    if b ∉ st.added ∧ inherits = true ∧ st.parentFailed b = true then st.db.index.markChild b
    else st.db.index
  | .invalidate b => st.db.index.markFailed st.added b

def call (c : HeaderCall) : HeaderState where
  db := ({ st.db with index := st.marks c }.appendHeader c.block).2
  added := insert c.block st.added

/-- Parents are added before their children, and the genesis block is never invalidated. -/
def Allowed : HeaderCall → Prop
  | .append b _ => ∀ q ∈ st.db.index.parent b, q ∈ st.added
  | .invalidate b => b ∈ st.added ∧ st.db.index.parent b ≠ none

variable {st}

instance (st : HeaderState) : DecidablePred st.Allowed
  | .append b _ => inferInstanceAs (Decidable (∀ q ∈ st.db.index.parent b, q ∈ st.added))
  | .invalidate b => inferInstanceAs (Decidable (b ∈ st.added ∧ st.db.index.parent b ≠ none))

/-- A new block on top of a failed one is marked. -/
def Inherits (st : HeaderState) : HeaderCall → Prop
  | .append b inherits => b ∉ st.added → st.parentFailed b = true → inherits = true
  | .invalidate _ => True

instance (st : HeaderState) : DecidablePred st.Inherits
  | .append b inherits =>
    inferInstanceAs (Decidable (b ∉ st.added → st.parentFailed b = true → inherits = true))
  | .invalidate _ => inferInstanceAs (Decidable True)

/-- An invalidated tip has no unmarked sibling, and no unmarked block has more work than its parent.
-/
def Harmless (st : HeaderState) : HeaderCall → Prop
  | .append _ _ => True
  | .invalidate b => b ∈ st.db.headerChainTips → ∀ q ∈ st.db.index.parent b,
    (∀ c ∈ st.live, c ≠ b → st.db.index.parent c ≠ some q) ∧ (st.db.headersChain = some b →
      ∀ p ∈ st.live, p ≠ b → (st.db p).nChainWork ≤ (st.db q).nChainWork)

instance (st : HeaderState) : DecidablePred st.Harmless
  | .append _ _ => inferInstanceAs (Decidable True)
  | .invalidate b => inferInstanceAs (Decidable (b ∈ st.db.headerChainTips → ∀ q ∈ st.db.index.parent b,
    (∀ c ∈ st.live, c ≠ b → st.db.index.parent c ≠ some q) ∧ (st.db.headersChain = some b →
      ∀ p ∈ st.live, p ≠ b → (st.db p).nChainWork ≤ (st.db q).nChainWork)))

/-- Nothing has been added yet, or the header chain is in order. -/
structure Good (st : HeaderState) : Prop extends Tidy st where
  ok : st.added = ∅ ∧ st.db.headerChainTips = [] ∧ st.db.headersChain = none ∨ st.HeadersOk

theorem Good.headersOk (h : st.Good) (hb : b ∈ st.added) : st.HeadersOk := by
  rcases h.ok with ⟨hemp, -⟩ | hok
  · rw [hemp] at hb
    cases hb
  · exact hok

/-- Whatever `appendHeader` does, the marks and the tree stay. -/
theorem tidy_appendHeader {db : BlocksDB} {added : Finset IndexPtr}
    (h : (HeaderState.mk db added).Tidy) (b : IndexPtr) :
    (HeaderState.mk (db.appendHeader b).2 added).Tidy := by
  constructor
  · rw [appendHeader_index]
    exact h.linked
  · rw [appendHeader_index]
    exact h.marked

section

variable (hok : st.HeadersOk)

include hok

/-- After marking, everything about the tips is still about the blocks that were unmarked. -/
theorem HeadersOk.fails (ht : st.Tidy) {valid child : IndexPtr → Bool} {added : Finset IndexPtr}
    (hmem : b ∈ added) (hfl : (st.db.index.setMarks valid child b).failed)
    (hlive : ∀ p, p ∈ (st.db.index.setMarks valid child).live added ↔ p ∈ st.live ∧
      ¬ st.db.index.Above b p) :
    (HeaderState.mk { st.db with index := st.db.index.setMarks valid child } added).Fails b st.live :=
  ⟨hmem, hfl, ht.marked.live_closed, hlive, fun _ => hok.mem_tips, hok.nodup, hok.best⟩

/-- A known failed block is appended again: nothing behind it is among the unmarked ones. -/
theorem HeadersOk.fails_again (ht : st.Tidy) (hb : b ∈ st.added)
    (hf : (st.db b).failed) : st.Fails b st.live := by
  refine ⟨hb, hf, ht.marked.live_closed, fun p => (and_iff_left_of_imp fun hp hbp => ?_).symm,
    fun _ => hok.mem_tips, hok.nodup, hok.best⟩
  obtain ⟨hp, hpf⟩ := mem_live.mp hp
  rw [ht.marked.failed_above hp hbp hf] at hpf
  cases hpf

theorem not_tip_of_failed (hf : b ∉ st.live) : b ∉ st.db.headerChainTips := fun hmem =>
  hf (hok.mem_tips.mp hmem).1

theorem HeadersOk.fails_child (ht : st.Tidy) (hb : b ∉ st.added) :
    (HeaderState.mk { st.db with index := st.db.index.markChild b } (insert b st.added)).Fails b
      st.live := by
  refine hok.fails ht (Finset.mem_insert_self ..) ((failed_markChild b b).mpr (.inr rfl)) fun p => ?_
  have hnot : p ∈ st.live → ¬ st.db.index.Above b p := fun hp hbp =>
    hb (ht.marked.closed.ancestor hbp (mem_live.mp hp).1)
  rw [and_iff_left_of_imp hnot, mem_live, live, mem_live, Finset.mem_insert, Bool.eq_false_iff, ne_eq,
    ← markChild, failed_markChild, Bool.eq_false_iff, ne_eq, not_or]
  constructor
  · rintro ⟨hp, hpf, hne⟩
    exact ⟨hp.resolve_left hne, hpf⟩
  · rintro ⟨hp, hpf⟩
    refine ⟨.inr hp, hpf, ?_⟩
    rintro rfl
    exact hb hp

theorem HeadersOk.fails_invalidate (ht : st.Tidy) (hb : b ∈ st.added) :
    (HeaderState.mk { st.db with index := st.db.index.markFailed st.added b } st.added).Fails b
      st.live := by
  refine hok.fails ht hb ((failed_markFailed ht.linked hb b).mpr (.inr ⟨hb, .refl b⟩)) fun p => ?_
  rw [mem_live, live, mem_live, ← markFailed, Bool.eq_false_iff, ne_eq, failed_markFailed ht.linked hb,
    Bool.eq_false_iff, ne_eq, not_or, and_assoc]
  refine and_congr_right fun hp => and_congr_right fun _ => ?_
  rw [not_and, imp_iff_right hp]

end

theorem Good.append (h : st.Good) {inherits : Bool} (ha : st.Allowed (.append b inherits))
    (hi : st.Inherits (.append b inherits)) :
    (st.call (.append b inherits)).HeadersOk ∧ (st.call (.append b inherits)).Tidy := by
  have ht := h.toTidy
  unfold call
  simp only [HeaderCall.block]
  by_cases hb : b ∈ st.added
  · have hok := h.headersOk hb
    have hmks : st.marks (.append b inherits) = st.db.index := if_neg fun hn => hn.1 hb
    rw [hmks, Finset.insert_eq_of_mem hb]
    refine ⟨?_, tidy_appendHeader ht b⟩
    cases hf : (st.db b).failed with
    | false => exact headersOk_again ht hok (mem_live.mpr ⟨hb, hf⟩)
    | true =>
      refine (hok.fails_again ht hb hf).headersOk ht (not_tip_of_failed hok fun hlive => ?_)
      rw [(mem_live.mp hlive).2] at hf
      cases hf
  · by_cases hpf : st.parentFailed b
    · obtain ⟨q, hq, hqf⟩ := parentFailed_iff.mp hpf
      have hok := h.headersOk (ha q hq)
      have hmks : st.marks (.append b inherits) = st.db.index.markChild b := if_pos ⟨hb, hi hb hpf, hpf⟩
      rw [hmks]
      have ht' : (HeaderState.mk { st.db with index := st.db.index.markChild b }
          (insert b st.added)).Tidy :=
        ⟨ht.linked.setMarks .., ht.marked.markChild hb hq (ha q hq)⟩
      have htip : b ∉ st.db.headerChainTips := not_tip_of_failed hok fun hlive => hb (mem_live.mp hlive).1
      exact ⟨(hok.fails_child ht hb).headersOk ht' htip, tidy_appendHeader ht' b⟩
    · have hmks : st.marks (.append b inherits) = st.db.index := if_neg fun hn => hpf hn.2.2
      rw [hmks]
      have hadds : st.Adds b := by
        refine ⟨hb, ht.marked.fresh b hb, fun q hq => mem_live.mpr ⟨ha q hq, ?_⟩⟩
        rw [Bool.eq_false_iff]
        exact fun hqf => hpf (parentFailed_iff.mpr ⟨q, hq, hqf⟩)
      refine ⟨?_, tidy_appendHeader (hadds.tidy ht) b⟩
      rcases h.ok with ⟨hemp, htips, hcn⟩ | hok
      · exact hadds.headersOk_first ht hemp htips hcn
      · exact hadds.headersOk ht hok

theorem Good.invalidate (h : st.Good) (ha : st.Allowed (.invalidate b)) :
    ((st.call (.invalidate b)).HeadersOk ↔ st.Harmless (.invalidate b)) ∧ (st.call (.invalidate b)).Tidy := by
  obtain ⟨hb, hroot⟩ := ha
  have ht := h.toTidy
  have hok := h.headersOk hb
  have hfls := hok.fails_invalidate ht hb
  have ht' : (HeaderState.mk { st.db with index := st.db.index.markFailed st.added b } st.added).Tidy :=
    ⟨ht.linked.setMarks .., ht.marked.markFailed ht.linked hb hroot⟩
  unfold call
  simp only [HeaderCall.block, Finset.insert_eq_of_mem hb]
  refine ⟨?_, tidy_appendHeader ht' b⟩
  by_cases htip : b ∈ st.db.headerChainTips
  · obtain ⟨q, hq⟩ := ne_none_iff_exists'.mp hroot
    have hlive : ∀ p, p ∈ (HeaderState.mk { st.db with index := st.db.index.markFailed st.added b }
        st.added).live ↔ p ∈ st.live ∧ p ≠ b := by
      intro p
      rw [hfls.live]
      refine and_congr_right fun hp => not_congr ⟨fun hbp => ?_, ?_⟩
      · exact ((hok.mem_tips.mp htip).eq ht.marked.live_closed hbp hp).symm
      · rintro rfl
        exact .refl p
    refine (hfls.headersOk_tip_iff ht' htip hq).trans ?_
    simp only [hlive, and_imp, Harmless]
    constructor
    · intro hcond _ q' hq'
      rwa [some_inj.mp (hq'.symm.trans hq)]
    · exact fun hcond => hcond htip q hq
  · exact iff_of_true (hfls.headersOk ht' htip) fun hmem => absurd hmem htip

def start (index : IndexHeap) : HeaderState := ⟨⟨index, fun _ => none, none, []⟩, ∅⟩

theorem good_start {ix : IndexHeap} (hl : ix.Linked) (hfr : ∀ p, (ix p).failed = false) :
    (start ix).Good where
  linked := hl
  marked := ⟨fun _ _ _ h => absurd h (Finset.notMem_empty _), fun _ _ _ h =>
    absurd h (Finset.notMem_empty _), fun _ h => absurd h (Finset.notMem_empty _), fun p _ => hfr p⟩
  ok := .inl ⟨rfl, rfl, rfl⟩

/-- The header chain is the best valid chain after every call exactly if every call is harmless. -/
theorem headersOk_along_iff {ix : IndexHeap} (hl : ix.Linked) (hfresh : ∀ p, (ix p).failed = false)
    {calls : List HeaderCall} (ha : Along call Allowed (start ix) calls)
    (hi : Along call Inherits (start ix) calls) :
    Along call (fun st c => (st.call c).HeadersOk) (start ix) calls ↔
      Along call Harmless (start ix) calls := by
  refine along_congr Good (fun st c hgood hc => ?_) (good_start hl hfresh) (ha.and hi)
  cases c with
  | append b inherits =>
    obtain ⟨hok, htidy⟩ := hgood.append hc.1 hc.2
    exact ⟨iff_of_true hok trivial, fun _ => ⟨htidy, .inr hok⟩⟩
  | invalidate b =>
    obtain ⟨hiff, htidy⟩ := hgood.invalidate hc.1
    exact ⟨hiff, fun hok => ⟨htidy, .inr hok⟩⟩

/-- Two blocks on top of the genesis block, and a third on top of one of them. -/
def sampleTree : IndexHeap
  | 1 => { phashBlock := 1, pprev := some 0, nHeight := 1, nChainWork := 2 }
  | 2 => { phashBlock := 2, pprev := some 0, nHeight := 1, nChainWork := 2 }
  | 3 => { phashBlock := 3, pprev := some 1, nHeight := 2, nChainWork := 3 }
  | p => { phashBlock := p, pprev := none, nHeight := 0, nChainWork := 1 }

theorem sampleTree_linked : sampleTree.Linked where
  heights a b hp := by
    match b, hp with
    | 1, hp | 2, hp | 3, hp =>
      cases hp
      rfl
  works a b hp := by
    match b, hp with
    | 1, hp | 2, hp | 3, hp =>
      cases hp
      decide
  skips p q hp := by
    match p, hp with
    | 1, hp | 2, hp | 3, hp => cases hp
  lowest p := by
    unfold sampleTree
    split <;> simp

theorem sampleTree_fresh (p : IndexPtr) : (sampleTree p).failed = false := by
  unfold sampleTree
  split <;> rfl

/-- The tip is invalidated while another chain is as good: the header chain ends in the genesis
block. -/
theorem invalidated_tip_hides_sibling :
    let calls : List HeaderCall := [.append 0 true, .append 1 true, .append 2 true, .invalidate 1]
    let st := calls.foldl call (start sampleTree)
    sampleTree.Linked ∧ (∀ p, (sampleTree p).failed = false) ∧
      Along call Allowed (start sampleTree) calls ∧
      Along call Inherits (start sampleTree) calls ∧ st.db.headersChain = some 0 ∧
      st.db.headerChainTips = [2, 0] ∧ 2 ∈ st.live ∧ (st.db 0).nChainWork < (st.db 2).nChainWork ∧
      ¬ Along call (fun st c => (st.call c).HeadersOk) (start sampleTree) calls := by
  refine ⟨sampleTree_linked, sampleTree_fresh,
    by decide, by decide, by decide, by decide, by decide, by decide, ?_⟩
  rintro ⟨-, -, -, hok, -⟩
  obtain ⟨tip, -, htip, hbest⟩ := hok.best
  obtain rfl : 0 = tip := some_inj.mp ((by decide : _ = some 0).symm.trans htip)
  exact absurd (hbest 2 (by decide)) (by decide)

/-- A run that invalidates a block with a tip behind it and then the tip that is left. -/
theorem headersOk_along_sample :
    let calls : List HeaderCall :=
      [.append 0 true, .append 1 true, .append 2 true, .append 3 true, .invalidate 1,
        .append 3 true, .invalidate 2]
    Along call Harmless (start sampleTree) calls ∧
      Along call (fun st c => (st.call c).HeadersOk) (start sampleTree) calls :=
  ⟨by decide, (headersOk_along_iff sampleTree_linked sampleTree_fresh (by decide) (by decide)).mpr (by decide)⟩

end HeaderState

end FloweeHub
