import FloweeHub.Chain.BlockIndex
import FloweeHub.Lib.Loops
import FloweeHub.Lib.ParentTree

/-! What one call of `appendHeader` does to a heap whose objects form a tree. Each loop has its
lemma: the one that extends a tip, the one that drops tips, and the one that takes the best tip. -/

namespace FloweeHub

open Lib Lib.ParentTree BlocksDB List Option Bool

namespace IndexHeap

variable {ix : IndexHeap} {p q a b v m : IndexPtr}

def parent (index : IndexHeap) (p : IndexPtr) : Option IndexPtr := (index p).pprev

abbrev Above (index : IndexHeap) (a b : IndexPtr) : Prop := IsAncestor index.parent a b

/-- The fields that describe the tree fit together. -/
structure Tree (index : IndexHeap) : Prop where
  heights : Heights index.parent fun p => (index p).nHeight
  skips : ∀ p q, (index p).pskip = some q → index.Above q p ∧ q ≠ p
  lowest : ∀ p, 0 ≤ (index p).nHeight

/-- A tree in which the work goes up from parent to child. -/
structure Linked (index : IndexHeap) : Prop extends Tree index where
  works : Grows index.parent fun p => (index p).nChainWork

theorem Tree.nHeight_eq (h : ix.Tree) (hp : ix.parent b = some a) :
    (ix b).nHeight = (ix a).nHeight + 1 :=
  h.heights hp

theorem walk_eq_up (ix : IndexHeap) (n : ℕ) (p : IndexPtr) : ix.walk n p = up ix.parent n p := by
  induction n generalizing p with
  | zero => rfl
  | succ n ih =>
    rw [walk, up, parent]
    congr 1
    exact funext ih

theorem walk_succ (ix : IndexHeap) (n : ℕ) (p : IndexPtr) :
    ix.walk (n + 1) p = (ix.walk n p).bind fun q => (ix q).pprev := by
  rw [walk_eq_up, walk_eq_up, up_add]
  congr 1
  simp [up, parent]

theorem GetAncestor_eq_some (h : ix.Tree) {k : ℤ} :
    ix.GetAncestor p k = some a ↔ ix.Above a p ∧ (ix a).nHeight = k := by
  unfold GetAncestor
  split_ifs with hout
  · refine iff_of_false (by simp) ?_
    rintro ⟨ha, rfl⟩
    have hle := h.heights.grows.le ha
    have hlow := h.lowest a
    omega
  · rw [walk_eq_up]
    exact h.heights.up_iff (by omega)

/-- The test that the code makes for `a` being on the way from `p` to the genesis block. -/
theorem GetAncestor_height (h : ix.Tree) : ix.GetAncestor p (ix a).nHeight = some a ↔ ix.Above a p := by
  rw [GetAncestor_eq_some h, and_iff_left rfl]

theorem Contains_iff (h : ix.Tree) {c : Chain} :
    c.Contains ix p = true ↔ ∃ tip, c = some tip ∧ ix.Above p tip := by
  rw [Chain.Contains, decide_eq_true_eq, Chain.at', bind_eq_some_iff]
  simp only [GetAncestor_height h]

/-! ### The unmarked blocks -/

/-- The blocks that have been added and carry no failed mark. -/
def live (index : IndexHeap) (added : Finset IndexPtr) : Finset IndexPtr :=
  added.filter fun p => (index p).failed = false

theorem mem_live {added : Finset IndexPtr} : p ∈ ix.live added ↔ p ∈ added ∧ (ix p).failed = false :=
  Finset.mem_filter

/-- Parents come before children, descendants of a failed block are marked, the genesis block is
not. -/
structure Marked (index : IndexHeap) (added : Finset IndexPtr) : Prop where
  closed : Closed index.parent added
  child : ∀ ⦃a b⦄, index.parent b = some a → b ∈ added → (index a).failed = true →
    (index b).failed = true
  root : ∀ p ∈ added, ∃ g, index.Above g p ∧ index.parent g = none ∧ (index g).failed = false
  fresh : ∀ p ∉ added, (index p).failed = false

variable {added : Finset IndexPtr} {n : ℕ}

theorem Marked.live_closed (h : ix.Marked added) : Closed ix.parent (ix.live added) := by
  intro a b hp hb
  obtain ⟨hb, hbf⟩ := mem_live.mp hb
  refine mem_live.mpr ⟨h.closed hp hb, ?_⟩
  by_contra ha
  rw [h.child hp hb (by simpa using ha)] at hbf
  cases hbf

theorem Marked.failed_above (h : ix.Marked added) (hb : b ∈ added) (hab : ix.Above a b)
    (ha : (ix a).failed) : (ix b).failed := by
  by_contra hbf
  have := (mem_live.mp (h.live_closed.ancestor hab (mem_live.mpr ⟨hb, by simpa using hbf⟩))).2
  rw [ha] at this
  cases this

/-- Nothing on the way to the genesis block is marked, the block included. -/
def Sound (index : IndexHeap) (p : IndexPtr) : Prop := ∀ a, index.Above a p → (index a).failed = false

theorem Sound.root (hp : ix.parent p = none) (hf : (ix p).failed = false) : ix.Sound p := fun a ha => by
  rcases ha.cases_parent with rfl | ⟨c, hc, -⟩
  · exact hf
  · cases hc.symm.trans hp

theorem Sound.child (hp : ix.parent p = some q) (hf : (ix p).failed = false) (hq : ix.Sound q) :
    ix.Sound p := fun a ha => by
  rcases ha.cases_parent with rfl | ⟨c, hc, hac⟩
  · exact hf
  · exact hq a (some_inj.mp (hc.symm.trans hp) ▸ hac)

/-- The search may jump along `pskip`: what it passes lies behind a marked block. -/
theorem validFrom_spec (hl : ix.Tree) (hn : (ix p).nHeight.toNat < n)
    (hroot : ∃ g, ix.Above g p ∧ ix.parent g = none ∧ (ix g).failed = false) :
    ix.Above (validFrom ix n p) p ∧ (ix (validFrom ix n p)).failed = false ∧
      ∀ x, ix.Sound x → ix.Above x p → ix.Above x (validFrom ix n p) := by
  induction n generalizing p with
  | zero => exact absurd hn (Nat.not_lt_zero _)
  | succ n ih =>
    obtain ⟨g, hg, hnone, hgf⟩ := hroot
    rw [validFrom]
    split_ifs with hf
    · -- the search goes on at `q`, which has the genesis block and every sound block above it
      have hnext : ∀ q, ix.Above q p → q ≠ p → ix.Above g q →
          (∀ x, ix.Sound x → ix.Above x p → ix.Above x q) →
          ix.Above (validFrom ix n q) p ∧ (ix (validFrom ix n q)).failed = false ∧
            ∀ x, ix.Sound x → ix.Above x p → ix.Above x (validFrom ix n q) := by
        intro q hq hne hgq hall
        have hht := hl.heights.grows.lt hq hne
        have hlow' := hl.lowest q
        obtain ⟨habv, hval, hlast⟩ := ih (by omega) ⟨g, hgq, hnone, hgf⟩
        exact ⟨habv.trans hq, hval, fun x hx hxp => hlast x hx (hall x hx hxp)⟩
      have hpar : ∀ x, ix.Above x p → (ix x).failed = false → ∃ c, ix.parent p = some c ∧
          ix.Above x c := by
        intro x hx hxf
        rcases hx.cases_parent with rfl | hc
        · rw [hf] at hxf
          cases hxf
        · exact hc
      split
      next q hq =>
        obtain ⟨hskip, hqf⟩ := filter_eq_some_iff.mp hq
        obtain ⟨hqp, hqne⟩ := hl.skips p q hskip
        -- of two blocks on the way the one without marks is above the other
        have habv : ∀ x, ix.Above x p → (ix.Above q x → (ix q).failed = false) → ix.Above x q := by
          intro x hx hqx
          rcases hx.total hqp with hxq | hqx'
          · exact hxq
          · rw [hqx hqx'] at hqf
            cases hqf
        refine hnext q hqp hqne (habv g hg fun hqg => ?_) fun x hx hxp => habv x hxp (hx q)
        rcases hqg.cases_parent with rfl | ⟨c, hc, -⟩
        · exact hgf
        · cases hc.symm.trans hnone
      next =>
        split
        next q hq =>
          have hqp : ix.Above q p := .of_parent hq
          have hqne : q ≠ p := fun heq => by
            have := hl.heights hq
            rw [heq] at this
            omega
          have habv : ∀ x, ix.Above x p → (ix x).failed = false → ix.Above x q := by
            intro x hx hxf
            obtain ⟨c, hc, hxc⟩ := hpar x hx hxf
            rwa [some_inj.mp (hc.symm.trans hq)] at hxc
          exact hnext q hqp hqne (habv g hg hgf) fun x hx hxp => habv x hxp (hx x (.refl x))
        next hnone' =>
          obtain ⟨c, hc, -⟩ := hpar g hg hgf
          cases hc.symm.trans hnone'
    · exact ⟨.refl p, by simpa using hf, fun x _ hx => hx⟩

/-- The last block without a mark on the way down to `p`. -/
structure LastValid (index : IndexHeap) (p v : IndexPtr) : Prop where
  above : index.Above v p
  valid : (index v).failed = false
  last : ∀ x, index.Above x p → (index x).failed = false → index.Above x v

/-- If descendants of marked blocks are marked, the search finds the last one. -/
theorem validFrom_lastValid (hl : ix.Tree) (hm : ix.Marked added) (hp : p ∈ added)
    (hn : (ix p).nHeight.toNat < n) : ix.LastValid p (validFrom ix n p) := by
  obtain ⟨habv, hval, hlast⟩ := validFrom_spec hl hn (hm.root p hp)
  refine ⟨habv, hval, fun x hx hxf => hlast x (fun a ha => ?_) hx⟩
  rw [eq_false_iff]
  intro haf
  rw [hm.failed_above (hm.closed.ancestor hx hp) ha haf] at hxf
  cases hxf

end IndexHeap

namespace BlocksDB

variable {ix : IndexHeap} {block v m : IndexPtr} {tips : List IndexPtr} {s : Scan}

/-! ### The loops of `appendHeader` -/

/-- The last loop ends at a block with most work among the tips and where it started. -/
theorem bestTip_spec (ix : IndexHeap) (m : IndexPtr) (tips : List IndexPtr) :
    ∃ x, (bestTip ix (some m) tips).1 = some x ∧ (x = m ∨ x ∈ tips) ∧
      (ix m).nChainWork ≤ (ix x).nChainWork ∧ ∀ t ∈ tips, (ix t).nChainWork ≤ (ix x).nChainWork := by
  unfold bestTip
  generalize false = changed
  induction tips generalizing m changed with
  | nil => exact ⟨m, rfl, .inl rfl, le_rfl, by simp⟩
  | cons t tips ih =>
    rw [foldl_cons]
    dsimp only
    split_ifs with hlt
    · obtain ⟨x, hx, hmem, hle, hall⟩ := ih t true
      exact ⟨x, hx, .inr (mem_cons.mpr hmem), hlt.le.trans hle, forall_mem_cons.mpr ⟨hle, hall⟩⟩
    · obtain ⟨x, hx, hmem, hle, hall⟩ := ih m changed
      refine ⟨x, hx, hmem.imp_right (mem_cons_of_mem _), hle, forall_mem_cons.mpr ⟨?_, hall⟩⟩
      exact (not_lt.mp hlt).trans hle

/-- The second loop for a valid header that is in none of the header chains. -/
theorem scan_new (hl : ix.Tree) (s : Scan) (hs : s.validPrev = block)
    (hnew : ∀ t ∈ tips, ¬ ix.Above block t) :
    tips.foldlM (scanTip ix block true) s = some { s with tips := s.tips ++ tips } := by
  induction tips generalizing s with
  | nil => simp
  | cons t tips ih =>
    obtain ⟨ht, hnew⟩ := forall_mem_cons.mp hnew
    have htest := (IndexHeap.GetAncestor_height hl).not.mpr ht
    rw [foldlM_cons, scanTip, hs, if_neg htest, if_neg htest]
    have hrest := ih { s with tips := s.tips ++ [t], validPrev := block } rfl hnew
    simpa using hrest

theorem scan_known (hl : ix.Tree) (s : Scan) (hs : s.validPrev = block)
    (hkn : ∃ t ∈ tips, ix.Above block t) : tips.foldlM (scanTip ix block true) s = none := by
  induction tips generalizing s with
  | nil => simp at hkn
  | cons t tips ih =>
    rw [foldlM_cons, scanTip, hs]
    by_cases ht : ix.Above block t
    · rw [if_pos ((IndexHeap.GetAncestor_height hl).mpr ht), if_pos rfl]
      rfl
    · have htest := (IndexHeap.GetAncestor_height hl).not.mpr ht
      rw [if_neg htest, if_neg htest]
      exact ih { s with tips := s.tips ++ [t], validPrev := block } rfl (by simpa [ht] using hkn)

/-- The second loop behind the tips in `seen`: those on the block are dropped, and the header chain
has left them for `v` or for a tip that is kept. -/
structure ScanInv (index : IndexHeap) (block v m : IndexPtr) (seen : List IndexPtr) (s : Scan) :
    Prop where
  mem_tips : ∀ t, t ∈ s.tips ↔ t ∈ seen ∧ ¬ index.Above block t
  sublist : s.tips.Sublist seen
  modified : s.modified = true ↔ ∃ t ∈ seen, index.Above block t
  contains : s.alreadyContains = true ↔ ∃ t ∈ s.tips, index.Above v t
  validPrev : s.validPrev = v ∨ s.alreadyContains = true ∧ s.validPrev ∈ s.tips
  chain : s.headersChain = some m ∧ (m ∈ seen → ¬ index.Above block m) ∨
    s.modified = true ∧ ∃ w, s.headersChain = some w ∧ (w = v ∨ w ∈ s.tips)

theorem ScanInv.step (hl : ix.Tree) {seen : List IndexPtr} {t : IndexPtr}
    (h : ScanInv ix block v m seen s) :
    ∃ s', scanTip ix block false s t = some s' ∧ ScanInv ix block v m (seen ++ [t]) s' := by
  rw [scanTip]
  by_cases hdrop : ix.Above block t
  · rw [if_pos ((IndexHeap.GetAncestor_height hl).mpr hdrop), if_neg (by simp)]
    refine ⟨_, rfl, fun u => ?_, h.sublist.trans (sublist_append_left ..), ?_, h.contains,
      h.validPrev, ?_⟩
    · rw [h.mem_tips, mem_append, mem_singleton]
      constructor
      · rintro ⟨hu, hn⟩
        exact ⟨.inl hu, hn⟩
      · rintro ⟨hu | rfl, hn⟩
        · exact ⟨hu, hn⟩
        · exact absurd hdrop hn
    · simp only [true_iff]
      exact ⟨t, by simp, hdrop⟩
    · split_ifs with hmain
      · exact .inr ⟨rfl, s.validPrev, rfl, h.validPrev.imp_right And.right⟩
      · rcases h.chain with ⟨hm, hkeep⟩ | ⟨-, hw⟩
        · refine .inl ⟨hm, fun hmem => ?_⟩
          rcases mem_append.mp hmem with hmem | hmem
          · exact hkeep hmem
          · rw [mem_singleton.mp hmem] at hm
            exact absurd ((IndexHeap.Contains_iff hl).mpr ⟨t, hm, .refl t⟩) hmain
        · exact .inr ⟨rfl, hw⟩
  · rw [if_neg ((IndexHeap.GetAncestor_height hl).not.mpr hdrop)]
    have hmem : ∀ u, u ∈ s.tips ++ [t] ↔ u ∈ seen ++ [t] ∧ ¬ ix.Above block u := by
      intro u
      rw [mem_append, mem_append, h.mem_tips, mem_singleton]
      constructor
      · rintro (⟨hu, hn⟩ | rfl)
        · exact ⟨.inl hu, hn⟩
        · exact ⟨.inr rfl, hdrop⟩
      · rintro ⟨hu | rfl, hn⟩
        · exact .inl ⟨hu, hn⟩
        · exact .inr rfl
    have hsub : (s.tips ++ [t]).Sublist (seen ++ [t]) := h.sublist.append_right [t]
    have hmodified : s.modified ↔ ∃ u ∈ seen ++ [t], ix.Above block u := by
      rw [h.modified]
      simp [or_and_right, exists_or, hdrop]
    have hcn : s.headersChain = some m ∧ (m ∈ seen ++ [t] → ¬ ix.Above block m) ∨
        s.modified ∧ ∃ w, s.headersChain = some w ∧ (w = v ∨ w ∈ s.tips ++ [t]) := by
      rcases h.chain with ⟨hm, hkeep⟩ | ⟨hmod, w, hw, hmem⟩
      · refine .inl ⟨hm, fun hmem => ?_⟩
        rcases mem_append.mp hmem with hmem | hmem
        · exact hkeep hmem
        · rwa [mem_singleton.mp hmem]
      · exact .inr ⟨hmod, w, hw, hmem.imp_right (mem_append_left _)⟩
    by_cases habv : ix.Above s.validPrev t
    · rw [if_pos ((IndexHeap.GetAncestor_height hl).mpr habv)]
      refine ⟨_, rfl, hmem, hsub, hmodified, ?_, ?_, hcn⟩
      · simp only [true_iff]
        rcases h.validPrev with hprev | ⟨hcon, -⟩
        · exact ⟨t, by simp, hprev ▸ habv⟩
        · obtain ⟨u, hu, hvu⟩ := h.contains.mp hcon
          exact ⟨u, mem_append_left _ hu, hvu⟩
      · split_ifs
        · exact .inr ⟨rfl, by simp⟩
        · exact h.validPrev.imp_right fun hp => ⟨rfl, mem_append_left _ hp.2⟩
    · rw [if_neg ((IndexHeap.GetAncestor_height hl).not.mpr habv)]
      refine ⟨_, rfl, hmem, hsub, hmodified, ?_, h.validPrev.imp_right fun hp =>
        ⟨hp.1, mem_append_left _ hp.2⟩, hcn⟩
      rw [h.contains]
      constructor
      · rintro ⟨u, hu, hvu⟩
        exact ⟨u, mem_append_left _ hu, hvu⟩
      · rintro ⟨u, hu, hvu⟩
        rcases mem_append.mp hu with hu | hu
        · exact ⟨u, hu, hvu⟩
        · rw [mem_singleton.mp hu] at hvu
          rcases h.validPrev with hprev | ⟨hcon, -⟩
          · exact absurd (hprev ▸ hvu) habv
          · exact h.contains.mp hcon

theorem scan_invalid (hl : ix.Tree) (block v m : IndexPtr) (tips : List IndexPtr) :
    ∃ s, tips.foldlM (scanTip ix block false) ⟨[], v, some m, false, false, false⟩ = some s ∧
      ScanInv ix block v m tips s :=
  Loops.foldlM_grow (fun _ _ _ _ _ hs => hs.step hl)
    ⟨by simp, List.Sublist.refl [], by simp, by simp, .inl rfl, .inl ⟨rfl, by simp⟩⟩

/-! ### What a call does -/

/-- The block that the code calls `validPrev` before its loops. -/
def validPrevOf (index : IndexHeap) (block : IndexPtr) : IndexPtr :=
  let start := if !(index block).failed then block else (index block).pprev.getD block
  validFrom index ((index start).nHeight.toNat + 1) start

theorem validPrevOf_valid (h : (ix block).failed = false) : validPrevOf ix block = block := by
  simp [validPrevOf, h, validFrom]

theorem validPrevOf_invalid {q : IndexPtr} (h : (ix block).failed) (hq : (ix block).pprev = some q) :
    validPrevOf ix block = validFrom ix ((ix q).nHeight.toNat + 1) q := by
  simp [validPrevOf, h, hq]

variable {db : BlocksDB} {tip : IndexPtr}

abbrev tipBefore (db : BlocksDB) (block tip : IndexPtr) : Bool :=
  db.index.GetAncestor block (db tip).nHeight = some tip

@[simp] theorem appendHeader_index (db : BlocksDB) (block : IndexPtr) :
    (db.appendHeader block).2.index = db.index := by
  unfold appendHeader
  dsimp only
  split
  · rfl
  · split
    · split <;> rfl
    · split
      · rfl
      · split <;> rfl

@[simp] theorem appendHeader_byHash (db : BlocksDB) (block : IndexPtr) :
    (db.appendHeader block).2.byHash = db.byHash := by
  unfold appendHeader
  dsimp only
  split
  · rfl
  · split
    · split <;> rfl
    · split
      · rfl
      · split <;> rfl

theorem appendHeader_contains (hval : (db block).failed = false)
    (hc : db.headersChain.Contains db.index block) : (db.appendHeader block).2 = db := by
  simp [appendHeader, hval, hc]

theorem appendHeader_found (hc : (db block).failed ∨ db.headersChain.Contains db.index block = false)
    (hfind : db.headerChainTips.find? (db.tipBefore block) = some tip) :
    (db.appendHeader block).2 = { db with
      headerChainTips := db.headerChainTips.erase tip ++ [validPrevOf db.index block]
      headersChain :=
        if db.headersChain = some tip then some (validPrevOf db.index block)
        else (bestTip db.index db.headersChain
          (db.headerChainTips.erase tip ++ [validPrevOf db.index block])).1 } := by
  have htest : (!(db block).failed && db.headersChain.Contains db.index block) = false := by
    rcases hc with h | h <;> simp [h]
  unfold appendHeader validPrevOf
  simp only [htest, false_eq_true, if_false]
  rw [hfind]
  dsimp only
  split_ifs <;> rfl

theorem appendHeader_scanned (hc : (db block).failed ∨ db.headersChain.Contains db.index block = false)
    (hfind : db.headerChainTips.find? (db.tipBefore block) = none)
    (hscan : db.headerChainTips.foldlM (scanTip db.index block (!(db block).failed))
      ⟨[], validPrevOf db.index block, db.headersChain, false, false, false⟩ = some s) :
    (db.appendHeader block).2 =
      let tips := if s.modified && !s.alreadyContains then s.tips ++ [s.validPrev] else s.tips
      let tips := if !(db block).failed then tips ++ [block] else tips
      if !(db block).failed && s.headersChain.Height db.index = -1 then
        { db with headerChainTips := tips, headersChain := some block }
      else { db with headerChainTips := tips, headersChain := (bestTip db.index s.headersChain tips).1 } := by
  have htest : (!(db block).failed && db.headersChain.Contains db.index block) = false := by
    rcases hc with h | h <;> simp [h]
  unfold appendHeader
  unfold validPrevOf at hscan
  simp only [htest, false_eq_true, if_false]
  rw [hfind]
  rw [hscan]
  dsimp only
  split_ifs <;> rfl

theorem appendHeader_known (hc : db.headersChain.Contains db.index block = false)
    (hval : (db block).failed = false) (hfind : db.headerChainTips.find? (db.tipBefore block) = none)
    (hscan : db.headerChainTips.foldlM (scanTip db.index block true)
      ⟨[], block, db.headersChain, false, false, false⟩ = none) : (db.appendHeader block).2 = db := by
  have hprev := validPrevOf_valid hval
  unfold validPrevOf at hprev
  unfold appendHeader
  simp only [hval, hc, Bool.not_false, Bool.and_false, Bool.false_eq_true, if_false]
  rw [hfind]
  simp only [hval, Bool.not_false] at hprev ⊢
  rw [hprev, hscan]

theorem find_tipBefore_some (hl : db.index.Tree)
    (h : db.headerChainTips.find? (db.tipBefore block) = some tip) :
    tip ∈ db.headerChainTips ∧ db.index.Above tip block := by
  refine ⟨mem_of_find?_eq_some h, (IndexHeap.GetAncestor_height hl).mp ?_⟩
  simpa using find?_some h

theorem find_tipBefore_none (hl : db.index.Tree)
    (h : db.headerChainTips.find? (db.tipBefore block) = none) (htip : tip ∈ db.headerChainTips) :
    ¬ db.index.Above tip block := fun habv => by
  have := find?_eq_none.mp h tip htip
  exact this (by simpa using (IndexHeap.GetAncestor_height hl).mpr habv)

theorem appendHeader_first (hb : (db block).failed = false) (hnone : db.headersChain = none)
    (hemp : db.headerChainTips = []) :
    (db.appendHeader block).2 = { db with headerChainTips := [block], headersChain := some block } := by
  rw [appendHeader_scanned (s := ⟨[], block, none, false, false, false⟩) (.inr (by rw [hnone]; rfl))
    (by rw [hemp]; rfl) (by rw [hemp, hb, validPrevOf_valid hb, hnone]; rfl)]
  have hht : decide (Chain.Height db.index none = -1) := rfl
  simp only [hb, Bool.not_false, Bool.true_and, if_true, Bool.false_and, Bool.false_eq_true,
    if_false, nil_append, hht]

/-- A valid header is known already, extends a tip, or becomes one more tip. -/
theorem appendHeader_valid (hl : db.index.Tree) (hb : (db block).failed = false) :
    (db.appendHeader block).2 = db ∧
      (db.headersChain.Contains db.index block ∨ ∃ t ∈ db.headerChainTips, db.index.Above block t) ∨
    db.headersChain.Contains db.index block = false ∧
      ((∃ t ∈ db.headerChainTips, db.index.Above t block ∧ (db.appendHeader block).2 = { db with
          headerChainTips := db.headerChainTips.erase t ++ [block]
          headersChain := if db.headersChain = some t then some block
            else (bestTip db.index db.headersChain (db.headerChainTips.erase t ++ [block])).1 }) ∨
        (∀ t ∈ db.headerChainTips, ¬ db.index.Above block t ∧ ¬ db.index.Above t block) ∧
          (db.appendHeader block).2 = { db with
            headerChainTips := db.headerChainTips ++ [block]
            headersChain := db.headersChain.elim (some block) fun m =>
              (bestTip db.index (some m) (db.headerChainTips ++ [block])).1 }) := by
  cases hc : db.headersChain.Contains db.index block with
  | true => exact .inl ⟨appendHeader_contains hb hc, .inl rfl⟩
  | false =>
    cases hfind : db.headerChainTips.find? (db.tipBefore block) with
    | some t =>
      obtain ⟨ht, habv⟩ := find_tipBefore_some hl hfind
      refine .inr ⟨rfl, .inl ⟨t, ht, habv, ?_⟩⟩
      rw [appendHeader_found (.inr hc) hfind, validPrevOf_valid hb]
    | none =>
      by_cases hkn : ∃ t ∈ db.headerChainTips, db.index.Above block t
      · have hscan := scan_known hl ⟨[], block, db.headersChain, false, false, false⟩ rfl hkn
        exact .inl ⟨appendHeader_known hc hb hfind hscan, .inr hkn⟩
      · have hnew : ∀ t ∈ db.headerChainTips, ¬ db.index.Above block t := fun t ht habv =>
          hkn ⟨t, ht, habv⟩
        have hscan := scan_new hl ⟨[], block, db.headersChain, false, false, false⟩ rfl hnew
        refine .inr ⟨rfl, .inr ⟨fun t ht => ⟨hnew t ht, find_tipBefore_none hl hfind ht⟩, ?_⟩⟩
        rw [appendHeader_scanned (.inr hc) hfind (by rw [hb, validPrevOf_valid hb]; exact hscan)]
        simp only [hb, Bool.not_false, Bool.true_and, if_true, Bool.false_and, Bool.false_eq_true, if_false,
          nil_append, decide_eq_true_eq]
        cases db.headersChain with
        | none => rfl
        | some m =>
          have := hl.lowest m
          have hht : (db m).nHeight ≠ -1 := by omega
          exact if_neg hht

end BlocksDB

end FloweeHub
