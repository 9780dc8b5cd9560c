import Mathlib.Tactic.IntervalCases
import FloweeHub.Chain.CacheAllBlockInfos

/-! The index after a restart. The tip of the header chain carries no mark and has at least the work
of every good block; it is good unless an unmarked block behind a failed one has as much work. -/

namespace FloweeHub.BlocksDB

open Lib Lib.ParentTree IndexHeap List Option

variable {rows : List DiskBlockIndex} {utxo : UnspentOutputDatabase} {order : List IndexPtr}
  {p q : IndexPtr}

/-- The rows of a block tree whose genesis block has not failed. -/
structure Stored (rows : List DiskBlockIndex) (utxo : UnspentOutputDatabase) : Prop where
  hashes : (rows.map DiskBlockIndex.hash).Nodup
  parent : ∀ row ∈ rows, row.hashPrev ≠ 0 → ∃ prev ∈ rows, prev.hash = row.hashPrev ∧
    row.nHeight = prev.nHeight + 1
  genesis : ∃ g ∈ rows, utxo.blockIdHasFailed g.hash = false ∧ ∀ row ∈ rows, row.hashPrev = 0 → row = g

theorem readRows_parent (hp : (readRows rows utxo).parent p = some q) :
    ∃ row prev, rows[p]? = some row ∧ rows[q]? = some prev ∧ row.hashPrev ≠ 0 ∧
      prev.hash = row.hashPrev := by
  unfold IndexHeap.parent readRows at hp
  cases hrow : rows[p]? with
  | none => simp [hrow] at hp
  | some row =>
    simp only [hrow] at hp
    split_ifs at hp with hzero
    obtain ⟨hq, hhash, -⟩ := findIdx?_eq_some_iff_getElem.mp hp
    exact ⟨row, rows[q], rfl, getElem?_eq_getElem hq, hzero, by simpa using hhash⟩

theorem readRows_height {row : DiskBlockIndex} (hrow : rows[p]? = some row) :
    (readRows rows utxo p).nHeight = row.nHeight := by
  simp [readRows, hrow]

theorem readRows_lt (hp : (readRows rows utxo).parent p = some q) : q < rows.length := by
  obtain ⟨-, prev, -, hprev, -⟩ := readRows_parent hp
  exact (List.getElem?_eq_some_iff.mp hprev).1

theorem readRows_above_lt (hp : p < rows.length) (hqp : (readRows rows utxo).Above q p) :
    q < rows.length := by
  rcases hqp.cases_child with rfl | ⟨c, hc, -⟩
  · exact hp
  · exact readRows_lt hc

variable (h : Stored rows utxo)

include h

theorem Stored.tree : (readRows rows utxo).Tree where
  heights q p hp := by
    obtain ⟨row, prev, hrow, hprev, hzero, hhash⟩ := readRows_parent hp
    obtain ⟨prev', hmem, hhash', hht⟩ := h.parent row (mem_of_getElem? hrow) hzero
    obtain rfl : prev' = prev := inj_on_of_nodup_map h.hashes hmem (mem_of_getElem? hprev)
      (hhash'.trans hhash.symm)
    show (readRows rows utxo p).nHeight = (readRows rows utxo q).nHeight + 1
    rw [readRows_height hrow, readRows_height hprev, hht, Nat.cast_add, Nat.cast_one]
  skips p q hp := by
    unfold readRows at hp
    split at hp <;> cases hp
  lowest p := by
    unfold readRows
    split <;> simp

theorem Stored.root (hp : p < rows.length) (hnone : (readRows rows utxo).parent p = none) :
    ∃ g, rows[p]? = some g ∧ g.hashPrev = 0 := by
  have hrow : rows[p]? = some rows[p] := getElem?_eq_getElem hp
  refine ⟨rows[p], hrow, ?_⟩
  by_contra hzero
  obtain ⟨prev, hmem, hhash, -⟩ := h.parent rows[p] (getElem_mem hp) hzero
  unfold IndexHeap.parent readRows at hnone
  simp only [hrow, if_neg hzero] at hnone
  exact absurd (findIdx?_eq_none_iff.mp hnone prev hmem) (by simpa using hhash)

theorem Stored.exists_root (hp : p < rows.length) :
    ∃ g, (readRows rows utxo).Above g p ∧ (readRows rows utxo).parent g = none ∧
      (readRows rows utxo g).failed = false := by
  obtain ⟨g, hg, hnone⟩ := h.tree.heights.exists_root h.tree.lowest p
  refine ⟨g, hg, hnone, ?_⟩
  obtain ⟨row, hrow, hzero⟩ := h.root (readRows_above_lt hp hg) hnone
  obtain ⟨gen, -, hfl, hunique⟩ := h.genesis
  rw [hunique row (mem_of_getElem? hrow) hzero] at hrow
  simp [readRows, hrow, BlockIndex.failed, hfl]

/-- The two sums differ by the work of the genesis block. -/
theorem Stored.chainWork_eq :
    ∃ k, ∀ p < rows.length, chainWork (readRows rows utxo) p = tipSum (readRows rows utxo) p + k := by
  obtain ⟨gen, -, -, hunique⟩ := h.genesis
  refine ⟨GetBlockProof gen.nBits, fun p hp => ?_⟩
  obtain ⟨g, ⟨n, hn⟩, hnone⟩ := h.tree.heights.exists_root h.tree.lowest p
  induction n generalizing p with
  | zero =>
    cases hn
    obtain ⟨row, hrow, hzero⟩ := h.root hp hnone
    rw [tipSum_root h.tree hnone, chainWork, weight_eq h.tree.heights h.tree.lowest, hnone,
      ← hunique row (mem_of_getElem? hrow) hzero]
    simp [readRows, hrow]
  | succ n ih =>
    obtain ⟨c, hc, hup⟩ := bind_eq_some_iff.mp hn
    have hsum := ih c (readRows_lt hc) hup
    rw [tipSum_child h.tree hc, chainWork, weight_eq h.tree.heights h.tree.lowest, hc, elim_some]
    rw [chainWork] at hsum
    omega

omit h

variable (rows utxo)

/-- A block of the index that carries no mark of its own. -/
def Candidate (p : IndexPtr) : Prop := p < rows.length ∧ (readRows rows utxo p).failed = false

theorem nChainWork_BuildSkip (ix : IndexHeap) (l : List IndexPtr) (p : IndexPtr) :
    (l.foldl IndexHeap.BuildSkip ix p).nChainWork = (ix p).nChainWork := by
  induction l generalizing ix with
  | nil => rfl
  | cons a l ih =>
    rw [foldl_cons, ih, IndexHeap.BuildSkip]
    cases (ix a).pprev with
    | none => rfl
    | some q =>
      dsimp only
      by_cases hp : p = a
      · rw [hp, modify_self]
      · rw [modify_of_ne _ _ hp]

theorem partly_BuildSkip (order : List IndexPtr) :
    Partly (readRows rows utxo) (order.foldl IndexHeap.BuildSkip (readRows rows utxo)) := by
  refine ⟨.foldl sameBlocks_BuildSkip _ _, fun p => .inl ?_⟩
  rw [nChainWork_BuildSkip, readRows]
  split <;> rfl

theorem partly_appendAll (order : List IndexPtr) :
    Partly (readRows rows utxo) (appendAll rows utxo order).index := by
  rw [show (appendAll rows utxo order).index = _ from foldl_appendHeader_index ..]
  exact partly_BuildSkip rows utxo order

variable {rows utxo}

variable (h : Stored rows utxo)

include h

section

variable (hord : order.Perm (range rows.length))

include hord

theorem Stored.appendAll : Unmarked (Candidate rows utxo) (appendAll rows utxo order) ∧
      ∀ p < rows.length, (readRows rows utxo).Sound p →
        ∃ t ∈ (appendAll rows utxo order).headerChainTips, (readRows rows utxo).Above p t := by
  have hsame := (partly_BuildSkip rows utxo order).same
  have hmem : ∀ p, p ∈ order ↔ p < rows.length := fun p => by rw [hord.mem_iff, mem_range]
  have hst : Unmarked (Candidate rows utxo)
      ⟨order.foldl IndexHeap.BuildSkip (readRows rows utxo), fun hash => rows.findIdx? fun r =>
        r.hash = hash, none, []⟩ :=
    ⟨h.tree.foldl_BuildSkip order, by simp, .inl ⟨rfl, rfl⟩⟩
  obtain ⟨hun, hcov⟩ := hst.foldl order
    (fun p hp v hv hvf => ⟨readRows_above_lt ((hmem p).mp hp) (hsame.above.mp hv),
      by rwa [← hsame.failed]⟩)
    (fun p hp => by
      obtain ⟨g, hg, hnone, hgf⟩ := h.exists_root ((hmem p).mp hp)
      exact ⟨g, hsame.above.mpr hg, hsame.parent ▸ hnone, by rwa [hsame.failed]⟩)
  refine ⟨hun, fun p hp hs => ?_⟩
  obtain ⟨t, ht, hpt⟩ := hcov p (hsame.sound.mpr hs) (.inr ((hmem p).mpr hp))
  rw [foldl_appendHeader_index] at hpt
  exact ⟨t, ht, hsame.above.mp hpt⟩

theorem Stored.chain : ∃ m, (BlocksDB.appendAll rows utxo order).headersChain = some m ∧
      Candidate rows utxo m := by
  obtain ⟨hun, hcov⟩ := h.appendAll hord
  obtain ⟨gen, hgen, -⟩ := h.genesis
  obtain ⟨p, hp, -⟩ := getElem_of_mem hgen
  obtain ⟨g, hg, hnone, hgf⟩ := h.exists_root hp
  obtain ⟨t, ht, -⟩ := hcov g (readRows_above_lt hp hg) (.root hnone hgf)
  rcases hun.chain with ⟨-, hemp⟩ | ⟨m, hm, hQ, -⟩
  · rw [hemp] at ht
    cases ht
  · exact ⟨m, hm, hQ⟩

/-- The tip is unmarked, and every sound block has at most its work. -/
theorem Stored.tip : ∃ x, (CacheAllBlockInfos rows utxo order).headersChain = some x ∧
      Candidate rows utxo x ∧ ∀ p < rows.length, (readRows rows utxo).Sound p →
        chainWork (readRows rows utxo) p ≤ chainWork (readRows rows utxo) x := by
  obtain ⟨hun, hcov⟩ := h.appendAll hord
  obtain ⟨m, hm, hQ⟩ := h.chain hord
  obtain ⟨x, hx, hmem, -, hbest, hpart⟩ :=
    foldl_tipWork_best h.tree (partly_appendAll rows utxo order) hm
    (BlocksDB.appendAll rows utxo order).headerChainTips
  have hxQ : Candidate rows utxo x := by
    rcases hmem with rfl | hmem
    · exact hQ
    · exact hun.tips x hmem
  refine ⟨x, hx, hxQ, fun p hp hs => ?_⟩
  obtain ⟨k, hk⟩ := h.chainWork_eq
  obtain ⟨t, ht, hpt⟩ := hcov p hp hs
  have hle : tipSum (readRows rows utxo) p ≤ tipSum (readRows rows utxo) t :=
    weight_le h.tree.heights h.tree.lowest hpt
  have := (hbest t ht).trans (hpart.le x)
  rw [hk p hp, hk x hxQ.1]
  omega

theorem Stored.works (hp : p < rows.length) :
    ((CacheAllBlockInfos rows utxo order).index p).nChainWork = chainWork (readRows rows utxo) p := by
  obtain ⟨m, hm, -⟩ := h.chain hord
  obtain ⟨-, -, -, -, -, hpart⟩ := foldl_tipWork_best h.tree (partly_appendAll rows utxo order) hm
    (BlocksDB.appendAll rows utxo order).headerChainTips
  unfold CacheAllBlockInfos
  simp only [hpart.same.nHeight]
  have hmem : ∀ p, p ∈ order.insertionSort (fun p q => (readRows rows utxo p).nHeight ≤
      (readRows rows utxo q).nHeight) ↔ p < rows.length := fun p => by
    rw [(perm_insertionSort _ order).mem_iff, hord.mem_iff, mem_range]
  exact foldl_sumWork h.tree hpart.same (pairwise_insertionSort _ order)
    (fun p _ q hq => .inl ((hmem q).mpr (readRows_lt hq))) p (.inl ((hmem p).mpr hp))

end

omit h

/-! ### An order that ends behind a failed block -/

section Pinned

variable {db : BlocksDB} {c x : IndexPtr} {Q : IndexPtr → Prop} {l : List IndexPtr}

/-- A failed block while there is one tip: it stays, or is left for the last valid block before. -/
theorem appendHeader_single (hl : db.index.Tree) (hx : (db x).failed) (hcn : db.headersChain = some c)
    (htips : db.headerChainTips = [c]) :
    ∃ m, (db.appendHeader x).2 = { db with headerChainTips := [m], headersChain := some m } ∧
      (m = validPrevOf db.index x ∨ m = c ∧ ¬ db.index.Above x c) ∧
      (¬ db.index.Above c x → ¬ db.index.Above x c → m = c) := by
  have hself : ∀ m, (bestTip db.index (some m) [m]).1 = some m := fun m => by simp [bestTip]
  cases hfind : db.headerChainTips.find? (db.tipBefore x) with
  | some t =>
    obtain ⟨ht, htx⟩ := find_tipBefore_some hl hfind
    rw [htips, mem_singleton] at ht
    subst ht
    refine ⟨validPrevOf db.index x, ?_, .inl rfl, fun hn => absurd htx hn⟩
    rw [appendHeader_found (.inl hx) hfind, htips, hcn]
    simp
  | none =>
    by_cases hxc : db.index.Above x c
    · refine ⟨validPrevOf db.index x, ?_, .inl rfl, fun _ hn => absurd hxc hn⟩
      have hmain : db.headersChain.Contains db.index c := (Contains_iff hl).mpr ⟨c, hcn, .refl c⟩
      rw [appendHeader_scanned (s := ⟨[], validPrevOf db.index x, some (validPrevOf db.index x),
        true, false, true⟩) (.inl hx) hfind]
      · simp [hx, hself]
      · rw [htips, foldlM_cons, scanTip, if_pos ((GetAncestor_height hl).mpr hxc)]
        simp [hx, hmain]
    · refine ⟨c, ?_, .inr ⟨rfl, hxc⟩, fun _ _ => rfl⟩
      obtain ⟨s, hscan, hinv⟩ := scan_invalid hl x (validPrevOf db.index x) c db.headerChainTips
      rw [appendHeader_scanned (.inl hx) hfind (by rw [hx, hcn]; exact hscan)]
      have hmod : s.modified = false := by
        rw [Bool.eq_false_iff]
        intro hmod
        obtain ⟨t, ht, hxt⟩ := hinv.modified.mp hmod
        rw [htips, mem_singleton] at ht
        exact hxc (ht ▸ hxt)
      have hsub := hinv.sublist
      rw [htips] at hsub
      have hs : s.tips = [c] := by
        rcases sublist_singleton.mp hsub with hnil | hs
        · have hmem := (hinv.mem_tips c).mpr ⟨by simp [htips], hxc⟩
          rw [hnil] at hmem
          cases hmem
        · exact hs
      have hch : s.headersChain = some c := by
        rcases hinv.chain with ⟨hm, -⟩ | ⟨hm, -⟩
        · exact hm
        · rw [hmod] at hm
          cases hm
      simp [hx, hmod, hs, hch, hself]

/-- While there is one tip and it is before `c`, a failed block on the way to `c` or behind it leaves
it so, if no other unmarked block is behind `c`. -/
theorem single_foldl (hl : db.index.Tree) (hcn : db.headersChain = some x)
    (htips : db.headerChainTips = [x]) (hxc : db.index.Above x c)
    (hfl : ∀ p ∈ l, (db p).failed ∧ (db.index.Above p c ∨ db.index.Above c p) ∧
      ∃ g, db.index.Above g p ∧ db.index.parent g = none ∧ (db g).failed = false)
    (hlast : ∀ p ∈ l, ∀ v, db.index.Above v p → (db v).failed = false → db.index.Above c v → v = c) :
    ∃ m, l.foldl (fun db p => (db.appendHeader p).2) db =
      { db with headerChainTips := [m], headersChain := some m } ∧ db.index.Above m c := by
  induction l generalizing db x with
  | nil => exact ⟨x, by rw [← hcn, ← htips]; rfl, hxc⟩
  | cons p l ih =>
    obtain ⟨⟨hp, hpc, hroot⟩, hfl⟩ := forall_mem_cons.mp hfl
    obtain ⟨hpl, hlast⟩ := forall_mem_cons.mp hlast
    obtain ⟨m, heq, hm, -⟩ := appendHeader_single hl hp hcn htips
    have hmc : db.index.Above m c := by
      rcases hm with rfl | ⟨rfl, -⟩
      · obtain ⟨hvp, hvf, -⟩ := validPrevOf_failed hl hp hroot
        rcases hpc with hpc | hcp
        · exact hvp.trans hpc
        · rcases hvp.total hcp with hvc | hcv
          · exact hvc
          · rw [hpl _ hvp hvf hcv]
            exact .refl c
      · exact hxc
    rw [foldl_cons, heq]
    exact ih hl rfl rfl hmc hfl hlast

/-- Failed blocks of other branches leave the only tip. -/
theorem single_foldl_others (hl : db.index.Tree) (hcn : db.headersChain = some c)
    (htips : db.headerChainTips = [c])
    (hfl : ∀ p ∈ l, (db p).failed ∧ ¬ db.index.Above c p ∧ ¬ db.index.Above p c) :
    l.foldl (fun db p => (db.appendHeader p).2) db = db := by
  induction l with
  | nil => rfl
  | cons p l ih =>
    obtain ⟨⟨hp, hcp, hpc⟩, hfl⟩ := forall_mem_cons.mp hfl
    obtain ⟨m, heq, -, hm⟩ := appendHeader_single hl hp hcn htips
    rw [hm hcp hpc, ← hcn, ← htips] at heq
    rw [foldl_cons, heq]
    exact ih hfl

theorem bestTip_stays {ix : IndexHeap} {tips : List IndexPtr}
    (h : ∀ t ∈ tips, (ix t).nChainWork ≤ (ix c).nChainWork) : (bestTip ix (some c) tips).1 = some c := by
  unfold bestTip
  generalize false = changed
  induction tips generalizing changed with
  | nil => rfl
  | cons t tips ih =>
    obtain ⟨ht, h⟩ := forall_mem_cons.mp h
    rw [foldl_cons]
    dsimp only
    rw [if_neg ht.not_gt]
    exact ih h changed

/-- The header chain ends in `c`, the first of the tips. -/
structure Pinned (Q : IndexPtr → Prop) (c : IndexPtr) (db : BlocksDB) : Prop where
  tips : ∃ l, db.headerChainTips = c :: l ∧ ∀ t ∈ l, Q t
  chain : db.headersChain = some c

/-- A valid header that does not extend `c` changes nothing about that while no work is known. -/
theorem Pinned.appendHeader (h : Pinned Q c db) (hl : db.index.Tree) (hzero : ∀ p, (db p).nChainWork = 0)
    (hx : (db x).failed = false) (hcx : ¬ db.index.Above c x) (hQ : Q x) :
    Pinned Q c (db.appendHeader x).2 := by
  obtain ⟨⟨l, htips, hl'⟩, hcn⟩ := h
  have hbest : ∀ tips, (bestTip db.index (some c) tips).1 = some c := fun tips =>
    bestTip_stays fun t _ => by rw [hzero, hzero]
  have hnew : ∀ l', (∀ t ∈ l', t ∈ l) → ∀ t ∈ l' ++ [x], Q t := fun l' hsub =>
    forall_mem_append.mpr ⟨fun t ht => hl' t (hsub t ht), forall_mem_singleton.mpr hQ⟩
  rcases appendHeader_valid hl hx with ⟨heq, -⟩ | ⟨-, ⟨t, -, htx, heq⟩ | ⟨-, heq⟩⟩ <;> rw [heq]
  · exact ⟨⟨l, htips, hl'⟩, hcn⟩
  · have htc : c ≠ t := fun heq => hcx (heq ▸ htx)
    rw [htips, erase_cons_tail (by simpa using htc)]
    refine ⟨⟨l.erase t ++ [x], rfl, hnew _ fun u hu => mem_of_mem_erase hu⟩, ?_⟩
    rw [hcn, if_neg (by simpa using htc), hbest]
  · refine ⟨⟨l ++ [x], by rw [htips]; rfl, hnew l fun _ ht => ht⟩, ?_⟩
    rw [hcn]
    exact hbest _

theorem Pinned.foldl (h : Pinned Q c db) (hl : db.index.Tree)
    (hzero : ∀ p, (db p).nChainWork = 0)
    (hall : ∀ x ∈ l, (db x).failed = false ∧ ¬ db.index.Above c x ∧ Q x) :
    Pinned Q c (l.foldl (fun db p => (db.appendHeader p).2) db) := by
  induction l generalizing db with
  | nil => exact h
  | cons x l ih =>
    obtain ⟨⟨hx, hcx, hQ⟩, hall⟩ := forall_mem_cons.mp hall
    exact ih (h.appendHeader hl hzero hx hcx hQ) (by rwa [appendHeader_index])
      (by rwa [appendHeader_index])
      (by rwa [appendHeader_index])

/-- A block on the only tip, or that tip itself, becomes the only tip. -/
theorem appendHeader_onto (hl : db.index.Tree) (hb : (db c).failed = false)
    (hcn : db.headersChain = some x) (htips : db.headerChainTips = [x]) (hxc : db.index.Above x c) :
    (db.appendHeader c).2 = { db with headerChainTips := [c], headersChain := some c } := by
  by_cases hcx : db.index.Above c x
  · obtain rfl : c = x := hl.heights.grows.antisymm hcx hxc
    rw [appendHeader_contains hb ((Contains_iff hl).mpr ⟨c, hcn, .refl c⟩), ← hcn, ← htips]
  · rcases appendHeader_valid hl hb with ⟨-, hc | ⟨t, ht, hct⟩⟩ | ⟨-, ⟨t, ht, -, heq⟩ | ⟨hnew, -⟩⟩
    · obtain ⟨m, hm, hcm⟩ := (Contains_iff hl).mp hc
      exact absurd (some_inj.mp (hm.symm.trans hcn) ▸ hcm) hcx
    · rw [htips, mem_singleton] at ht
      exact absurd (ht ▸ hct) hcx
    · rw [htips, mem_singleton] at ht
      subst ht
      rw [heq, htips, hcn]
      simp
    · exact absurd hxc (hnew x (by simp [htips])).2

end Pinned

/-- A list in another order: the marked elements that are near before `c`, the others behind it. -/
theorem perm_marked_first {l : List IndexPtr} {marked near : IndexPtr → Bool} {g c : IndexPtr}
    (hg : g ∈ l.filter fun p => !marked p) (hc : c ∈ (l.filter fun p => !marked p).erase g) :
    (g :: (l.filter marked).filter near ++ c :: (((l.filter marked).filter fun p => !near p) ++
      ((l.filter fun p => !marked p).erase g).erase c)).Perm l := by
  have hmarked := filter_append_perm near (l.filter marked)
  have hothers := ((perm_cons_erase hc).symm.cons g).trans (perm_cons_erase hg).symm
  refine Perm.trans ?_ ((hmarked.append hothers).trans (filter_append_perm ..))
  refine .trans ?_ perm_middle.symm
  refine .cons g ?_
  rw [append_assoc]
  refine .append_left _ ?_
  exact perm_middle.symm

/-- A pinned tip with the most work stays the tip when the tips are compared in the end. -/
theorem Stored.tip_of_pinned (h : Stored rows utxo) {c : IndexPtr} (hc : Candidate rows utxo c)
    (hbest : ∀ x, Candidate rows utxo x →
      chainWork (readRows rows utxo) x ≤ chainWork (readRows rows utxo) c)
    (hpin : Pinned (Candidate rows utxo) c (BlocksDB.appendAll rows utxo order)) :
    (CacheAllBlockInfos rows utxo order).headersChain = some c := by
  obtain ⟨⟨l, htips, hQ⟩, hcn⟩ := hpin
  obtain ⟨k, hk⟩ := h.chainWork_eq
  show ((BlocksDB.appendAll rows utxo order).headerChainTips.foldl tipWork _).headersChain = some c
  rw [htips, foldl_cons]
  obtain ⟨hpart', -, hwork, hcn'⟩ := tipWork_spec h.tree (partly_appendAll rows utxo order) hcn c
  rw [hwork, if_neg (lt_irrefl _)] at hcn'
  refine foldl_tipWork_stays h.tree hpart' hcn' hwork fun t ht => ?_
  have := hbest t (hQ t ht)
  rw [hk t (hQ t ht).1, hk c hc.1] at this
  omega

/-- The genesis block, the failed blocks on the branch of an unmarked one, that block and then the
others: it ends up as the tip. -/
theorem Stored.exists_order (h : Stored rows utxo) {c : IndexPtr} (hc : Candidate rows utxo c)
    (hcs : ¬ (readRows rows utxo).Sound c)
    (hlast : ∀ x, Candidate rows utxo x → (readRows rows utxo).Above c x → x = c)
    (hbest : ∀ x, Candidate rows utxo x →
      chainWork (readRows rows utxo) x ≤ chainWork (readRows rows utxo) c) :
    ∃ order : List IndexPtr, order.Perm (range rows.length) ∧
      (∀ p ∈ order.head?, (readRows rows utxo p).failed = false) ∧
      (CacheAllBlockInfos rows utxo order).headersChain = some c := by
  classical
  let base := readRows rows utxo
  obtain ⟨g, hgc, hroot, hgf⟩ := h.exists_root hc.1
  have hne : c ≠ g := fun heq => hcs (heq ▸ .root hroot hgf)
  let failed := (range rows.length).filter fun p => (base p).failed
  let near := failed.filter fun p => base.Above p c ∨ base.Above c p
  let far := failed.filter fun p => !decide (base.Above p c ∨ base.Above c p)
  let valid := (range rows.length).filter fun p => !(base p).failed
  have hval : valid.Nodup := nodup_range.filter _
  have hgv : g ∈ valid := mem_filter.mpr ⟨mem_range.mpr (readRows_above_lt hc.1 hgc),
    by simp [base, hgf]⟩
  have hcv : c ∈ valid.erase g :=
    (mem_erase_of_ne hne).mpr (mem_filter.mpr ⟨mem_range.mpr hc.1, by simp [base, hc.2]⟩)
  have hperm : (g :: near ++ c :: (far ++ (valid.erase g).erase c)).Perm (range rows.length) :=
    perm_marked_first hgv hcv
  refine ⟨_, hperm, by simpa using hgf, ?_⟩
  generalize hord : g :: near ++ c :: (far ++ (valid.erase g).erase c) = order at hperm ⊢
  have hsame := (partly_BuildSkip rows utxo order).same
  have htree := h.tree.foldl_BuildSkip order
  have hmem : ∀ {p}, p ∈ failed → p < rows.length ∧ (base p).failed = true := fun hp => by
    simpa [failed] using hp
  have hzero : ∀ p, (order.foldl IndexHeap.BuildSkip base p).nChainWork = 0 := fun p => by
    rw [nChainWork_BuildSkip]
    unfold base readRows
    split <;> rfl
  have hpinned : ∀ db : BlocksDB, db.index = order.foldl IndexHeap.BuildSkip base →
      db.headersChain = none →
      db.headerChainTips = [] →
        Pinned (Candidate rows utxo) c (order.foldl (fun db p => (db.appendHeader p).2) db) := by
    intro db hix hnone hemp
    rw [← hix] at hzero htree hsame
    have habv : ∀ {p q}, db.index.Above p q ↔ base.Above p q := hsame.above
    -- the genesis block and the failed blocks of the branch leave one tip, which is before `c`
    obtain ⟨m, heq, hmc⟩ :=
      @single_foldl { db with headerChainTips := [g], headersChain := some g } c g near
      htree rfl rfl (habv.mpr hgc)
      (fun p hp => by
        obtain ⟨hpf, hpc⟩ := mem_filter.mp hp
        obtain ⟨hlt, hpf⟩ := hmem hpf
        obtain ⟨r, hr, hrn, hrf⟩ := h.exists_root hlt
        refine ⟨(hsame.failed p).trans hpf, ?_, r, habv.mpr hr, hsame.parent ▸ hrn,
          (hsame.failed r).trans hrf⟩
        exact (of_decide_eq_true hpc).imp habv.mpr habv.mpr)
      (fun p hp v hv hvf hcv => hlast v
        ⟨readRows_above_lt (hmem (mem_filter.mp hp).1).1 (habv.mp hv), (hsame.failed v).symm.trans hvf⟩
        (habv.mp hcv))
    have honto := @appendHeader_onto { db with headerChainTips := [m], headersChain := some m } c m htree
      ((hsame.failed c).trans hc.2) rfl rfl hmc
    rw [← hord, cons_append, foldl_cons, foldl_append, foldl_cons, foldl_append,
      appendHeader_first ((hsame.failed g).trans hgf) hnone hemp, heq]
    dsimp only at honto ⊢
    rw [honto, @single_foldl_others { db with headerChainTips := [c], headersChain := some c } c _
      htree rfl rfl]
    · refine Pinned.foldl ⟨⟨[], rfl, by simp⟩, rfl⟩ htree hzero fun x hx => ?_
      obtain ⟨hxc, hx⟩ := ((hval.erase g).mem_erase_iff).mp hx
      obtain ⟨hxr, hxf⟩ := mem_filter.mp (mem_of_mem_erase hx)
      have hxQ : Candidate rows utxo x := ⟨mem_range.mp hxr, by simpa using hxf⟩
      exact ⟨(hsame.failed x).trans hxQ.2, fun hcx => hxc (hlast x hxQ (habv.mp hcx)), hxQ⟩
    · intro p hp
      obtain ⟨hpf, hpc⟩ := mem_filter.mp hp
      have hpc : ¬ (base.Above p c ∨ base.Above c p) := by simpa using hpc
      exact ⟨(hsame.failed p).trans (hmem hpf).2, fun hn => hpc (.inr (habv.mp hn)), fun hn =>
        hpc (.inl (habv.mp hn))⟩
  exact h.tip_of_pinned hc hbest (hpinned _ rfl rfl rfl)

/-! ### Every order of the map -/

theorem assertsPass_iff :
    AssertsPass rows utxo order ↔ ∀ p ∈ order.head?, (readRows rows utxo p).failed = false := by
  have hsame := (partly_BuildSkip rows utxo order).same
  have hstart : ∀ db : BlocksDB, db.index = order.foldl IndexHeap.BuildSkip (readRows rows utxo) →
      db.headersChain = none → db.headerChainTips = [] →
      (Runs.Along (fun db p => (db.appendHeader p).2) (fun db p => db.appendHeaderAsserts p) db order ↔
        ∀ p ∈ order.head?, (readRows rows utxo p).failed = false) := by
    intro db hix hnone hemp
    rw [← hix] at hsame
    cases order with
    | nil => simp [Runs.Along]
    | cons p order =>
      have hfirst : db.appendHeaderAsserts p ↔ (readRows rows utxo p).failed = false := by
        rw [appendHeaderAsserts_first hnone hemp, hsame.failed]
      refine ⟨fun hal q hq => ?_, fun hgood => ?_⟩
      · cases hq
        exact hfirst.mp hal.1
      · have hp := hgood p rfl
        refine ⟨hfirst.mpr hp, ?_⟩
        dsimp only
        rw [appendHeader_first ((hsame.failed p).trans hp) hnone hemp]
        exact along_asserts_of_isSome rfl order
  exact hstart _ rfl rfl rfl

/-- No assert fails, the tip has the most work of the blocks on no failed one, and the sums are
right. -/
structure Rebuilt (rows : List DiskBlockIndex) (utxo : UnspentOutputDatabase)
    (order : List IndexPtr) : Prop where
  asserts : AssertsPass rows utxo order
  tip : ∃ tip < rows.length, (CacheAllBlockInfos rows utxo order).headersChain = some tip ∧
    (readRows rows utxo).Sound tip ∧ ∀ p < rows.length, (readRows rows utxo).Sound p →
      chainWork (readRows rows utxo) p ≤ chainWork (readRows rows utxo) tip
  work : ∀ p < rows.length, ((CacheAllBlockInfos rows utxo order).index p).nChainWork =
    chainWork (readRows rows utxo) p

/-- The asserts hold exactly if the first block of the order has not failed. Every such order will do
exactly if each unmarked block on a failed one has less work than a good one. -/
theorem rebuilt_iff (h : Stored rows utxo) :
    (∀ order, order.Perm (range rows.length) →
      (AssertsPass rows utxo order ↔ ∀ p ∈ order.head?, (readRows rows utxo p).failed = false)) ∧
    ((∀ order, order.Perm (range rows.length) →
      (∀ p ∈ order.head?, (readRows rows utxo p).failed = false) → Rebuilt rows utxo order) ↔
      ∀ p < rows.length, (readRows rows utxo p).failed = false → ¬ (readRows rows utxo).Sound p →
        ∃ g < rows.length, (readRows rows utxo).Sound g ∧
          chainWork (readRows rows utxo) p < chainWork (readRows rows utxo) g) := by
  refine ⟨fun _ _ => assertsPass_iff, ?_⟩
  constructor
  · intro hall p0 hp0 hf0 hbad0
    by_contra hnone
    push Not at hnone
    classical
    let base := readRows rows utxo
    -- among the unmarked blocks behind failed ones, one of most work, and the highest behind it
    let bad := (Finset.range rows.length).filter fun p =>
      (base p).failed = false ∧ ¬ base.Sound p
    have hbad : ∀ p, p ∈ bad ↔ Candidate rows utxo p ∧ ¬ base.Sound p := fun p => by
      simp only [bad, base, Finset.mem_filter, Finset.mem_range, Candidate, and_assoc]
    obtain ⟨d, hd, hdmax⟩ :=
      bad.exists_max_image (chainWork base) ⟨p0, (hbad p0).mpr ⟨⟨hp0, hf0⟩, hbad0⟩⟩
    obtain ⟨c, hc, hcmax⟩ := (bad.filter fun p => base.Above d p).exists_max_image
      (fun p => (base p).nHeight) ⟨d, Finset.mem_filter.mpr ⟨hd, .refl d⟩⟩
    obtain ⟨hcbad, hdc⟩ := Finset.mem_filter.mp hc
    obtain ⟨hcQ, hcs⟩ := (hbad c).mp hcbad
    have hdc_work : chainWork base d ≤ chainWork base c :=
      weight_le h.tree.heights h.tree.lowest hdc
    have hlast : ∀ x, Candidate rows utxo x → base.Above c x → x = c := by
      intro x hx hcx
      have hxbad : x ∈ bad := (hbad x).mpr ⟨hx, fun hs => hcs fun a ha => hs a (ha.trans hcx)⟩
      exact (h.tree.heights.grows.eq hcx (hcmax x (Finset.mem_filter.mpr ⟨hxbad, hdc.trans hcx⟩))).symm
    have hbest : ∀ x, Candidate rows utxo x → chainWork base x ≤ chainWork base c := by
      intro x hx
      refine le_trans ?_ hdc_work
      by_cases hs : base.Sound x
      · exact (hnone x hx.1 hs).trans (hdmax p0 ((hbad p0).mpr ⟨⟨hp0, hf0⟩, hbad0⟩))
      · exact hdmax x ((hbad x).mpr ⟨hx, hs⟩)
    obtain ⟨order, hperm, hfirst, hcn⟩ := h.exists_order hcQ hcs hlast hbest
    obtain ⟨tip, -, htip, hsnd, -⟩ := (hall order hperm hfirst).tip
    exact hcs (some_inj.mp (htip.symm.trans hcn) ▸ hsnd)
  · intro hcond order hperm hfirst
    refine ⟨assertsPass_iff.mpr hfirst, ?_, fun p hp => h.works hperm hp⟩
    obtain ⟨x, hx, hxQ, hmax⟩ := h.tip hperm
    refine ⟨x, hxQ.1, hx, ?_, hmax⟩
    by_contra hbad
    obtain ⟨g, hg, hs, hlt⟩ := hcond x hxQ.1 hxQ.2 hbad
    exact absurd (hmax g hg hs) hlt.not_ge

/-- A block `2` on top of the genesis block that has failed, and its child. -/
def sampleRows : List DiskBlockIndex :=
  [⟨1, 0, 0, 0, 0x1d00ffff, 1, true, true⟩, ⟨2, 1, 1, 0, 0x1d00ffff, 1, true, false⟩,
    ⟨3, 2, 2, 0, 0x1d00ffff, 1, true, false⟩]

def sampleFailed : UnspentOutputDatabase where
  committed := []
  working := []
  blockheight := 0
  blockId := 1
  rejectedBlocks := [2]
  pending := []
  settled := []

/-- In the order of the chain the child of the failed block becomes the tip, and an order that begins
with the failed block ends at the assert. -/
theorem rebuilt_depends_on_order :
    Stored sampleRows sampleFailed ∧ AssertsPass sampleRows sampleFailed [0, 1, 2] ∧
      ¬ AssertsPass sampleRows sampleFailed [1, 0, 2] ∧
      (readRows sampleRows sampleFailed 1).failed = true ∧
      (readRows sampleRows sampleFailed).parent 2 = some 1 ∧
      (CacheAllBlockInfos sampleRows sampleFailed [0, 1, 2]).headersChain = some 2 ∧
      (CacheAllBlockInfos sampleRows sampleFailed [2, 0, 1]).headersChain = some 0 ∧
      ¬ Rebuilt sampleRows sampleFailed [0, 1, 2] := by
  refine ⟨⟨by decide, by decide, by decide⟩, assertsPass_iff.mpr (by decide),
    mt assertsPass_iff.mp (by decide), by decide, by decide, by decide, by decide, fun h => ?_⟩
  obtain ⟨tip, -, htip, hsnd, -⟩ := h.tip
  obtain rfl : 2 = tip := some_inj.mp ((by decide : _ = some 2).symm.trans htip)
  exact absurd (hsnd 1 (.of_parent (by decide))) (by decide)

/-- The same with two more blocks in a row on top of the genesis block, and a third. -/
theorem rebuilt_sample :
    let rows := sampleRows ++ [⟨4, 1, 1, 0, 0x1d00ffff, 1, true, true⟩,
      ⟨5, 4, 2, 0, 0x1d00ffff, 1, true, true⟩, ⟨6, 5, 3, 0, 0x1d00ffff, 1, true, true⟩]
    ∀ order, order.Perm (range 6) → (∀ p ∈ order.head?, (readRows rows sampleFailed p).failed = false) →
      Rebuilt rows sampleFailed order := by
  intro rows
  have hsnd : (readRows rows sampleFailed).Sound 5 := by
    have h0 : (readRows rows sampleFailed).Sound 0 := .root (by decide) (by decide)
    have h3 : (readRows rows sampleFailed).Sound 3 := .child (by decide) (by decide) h0
    exact .child (q := 4) (by decide) (by decide) (.child (by decide) (by decide) h3)
  refine (rebuilt_iff ⟨by decide, by decide, by decide⟩).2.mpr fun p hp _ hbad =>
    ⟨5, by decide, hsnd, ?_⟩
  have hp' : p < 6 := hp
  interval_cases p
  · decide
  · decide
  · decide
  · decide
  · decide
  · exact absurd hsnd hbad

end FloweeHub.BlocksDB
