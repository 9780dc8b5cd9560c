import FloweeHub.Chain.HeaderChain
import FloweeHub.Lib.Runs
import FloweeHub.Chain.Pow
import FloweeHub.Utxo.UnspentOutputDatabase

/-! The block index as it is rebuilt from disk. The headers are appended in the order of the index
map, while no work is known, so every block without a mark of its own can become a tip, also one
behind a failed block. The best tip is chosen when the tips have their work. -/

namespace FloweeHub

open Lib Lib.ParentTree List Nat Option

/-- A row of the index on disk, as far as it is read. -/
structure DiskBlockIndex where
  hash : Uint256
  hashPrev : Uint256
  nHeight : ℕ
  nTime : ℕ := 0
  nBits : ℕ
  nTx : ℕ := 0
  haveData : Bool := false
  haveUndo : Bool := false
deriving DecidableEq, Repr

namespace BlocksDB

variable (rows : List DiskBlockIndex) (utxo : UnspentOutputDatabase)

/-- The objects made from the rows. An object is named by the place of its row. -/
def readRows : IndexHeap := fun p =>
  match rows[p]? with
  | none => { phashBlock := 0, pprev := none, nHeight := 0 }
  | some row =>
    let hasFailed := utxo.blockIdHasFailed row.hash
    { phashBlock := row.hash
      pprev := if row.hashPrev = 0 then none else rows.findIdx? fun r => r.hash = row.hashPrev
      nHeight := row.nHeight
      nTime := row.nTime
      nBits := row.nBits
      nTx := row.nTx
      -- needed to actually download blocks
      validity := if !hasFailed && 0 < row.nHeight then BLOCK_VALID_TREE else 0
      haveData := row.haveData
      haveUndo := row.haveUndo
      failedValid := hasFailed }

def parentWork (index : IndexHeap) (p : IndexPtr) : ℕ := (index p).pprev.elim 0 fun q =>
    (index q).nChainWork

/-- The oldest block on the way from a tip whose work is not known yet, or the one before it. -/
def workStart (index : IndexHeap) : ℕ → IndexPtr → IndexPtr
  | 0, p => p
  | n + 1, p =>
    if 0 < (index p).nHeight ∧ (index p).nChainWork % 2 ^ 64 = 0 then
      match (index p).pprev with
      | some q => workStart index n q
      | none => p
    else p

/-- Calculate the work from a block to the tip. -/
def fillWork (tip : IndexPtr) : ℕ → IndexHeap → IndexPtr → IndexHeap
  | 0, index, _ => index
  | n + 1, index, block =>
    if block = tip then index
    else
      match index.GetAncestor tip ((index block).nHeight + 1) with
      | none => index
      | some b =>
        let index' := index.modify b fun x =>
          { x with nChainWork := parentWork index b + GetBlockProof x.nBits }
        fillWork tip n index' b

def tipWork (db : BlocksDB) (tip : IndexPtr) : BlocksDB :=
  let n := (db tip).nHeight.toNat
  let index := fillWork tip n db.index (workStart db.index n tip)
  let better := db.headersChain.any fun best => (index best).nChainWork < (index tip).nChainWork
  { db with index := index, headersChain := if better then some tip else db.headersChain }

def sumWork (index : IndexHeap) (p : IndexPtr) : IndexHeap :=
  index.modify p fun b => { b with
    nChainWork := parentWork index p + GetBlockProof b.nBits
    nChainTx := b.nTx + b.pprev.elim 0 fun q => (index q).nChainTx }

/-- The objects with their skip pointers, before the first header is appended. -/
def beforeHeaders (order : List IndexPtr) : BlocksDB :=
  ⟨order.foldl IndexHeap.BuildSkip (readRows rows utxo), fun hash => rows.findIdx? fun r =>
    r.hash = hash, none, []⟩

/-- The headers, appended in the order in which the index map is iterated. -/
def appendAll (order : List IndexPtr) : BlocksDB :=
  order.foldl (fun db p => (db.appendHeader p).2) (beforeHeaders rows utxo order)

/-- Each call of `appendHeader` passes its assert. -/
def AssertsPass (order : List IndexPtr) : Prop :=
  Runs.Along (fun db p => (db.appendHeader p).2) (fun db p => db.appendHeaderAsserts p)
    (beforeHeaders rows utxo order) order

def CacheAllBlockInfos (order : List IndexPtr) : BlocksDB :=
  let db := appendAll rows utxo order
  let db := db.headerChainTips.foldl tipWork db
  let byHeight := order.insertionSort fun p q => (db p).nHeight ≤ (db q).nHeight
  { db with index := byHeight.foldl sumWork db.index }

end BlocksDB

namespace IndexHeap

variable {ix ix' ix'' : IndexHeap} {p q : IndexPtr}

def stored (b : BlockIndex) : BlockIndex := { b with pskip := none, nChainWork := 0, nChainTx := 0 }

/-- Two heaps that differ in the skip pointers and the sums only. -/
def SameBlocks (index index' : IndexHeap) : Prop := ∀ p, stored (index' p) = stored (index p)

namespace SameBlocks

theorem refl (ix : IndexHeap) : SameBlocks ix ix := fun _ => rfl

theorem trans (h : SameBlocks ix ix') (h' : SameBlocks ix' ix'') : SameBlocks ix ix'' := fun p =>
  (h' p).trans (h p)

theorem modify {f : BlockIndex → BlockIndex} (hf : stored (f (ix p)) = stored (ix p)) :
    SameBlocks ix (ix.modify p f) := fun q => by
  by_cases hq : q = p
  · rw [hq, modify_self]
    exact hf
  · rw [modify_of_ne _ _ hq]

theorem foldl {f : IndexHeap → IndexPtr → IndexHeap} (hf : ∀ ix p, SameBlocks ix (f ix p))
    (l : List IndexPtr) (ix : IndexHeap) : SameBlocks ix (l.foldl f ix) := by
  induction l generalizing ix with
  | nil => exact refl ix
  | cons p l ih => exact (hf ix p).trans (ih (f ix p))

theorem read {α : Type*} {g : BlockIndex → α} (hg : ∀ b, g (stored b) = g b) (h : SameBlocks ix ix')
    (p : IndexPtr) : g (ix' p) = g (ix p) := by
  rw [← hg (ix' p), h p, hg]

variable (h : SameBlocks ix ix')

include h

theorem parent : ix'.parent = ix.parent := funext (h.read fun _ => rfl)

theorem nHeight (p : IndexPtr) : (ix' p).nHeight = (ix p).nHeight := h.read (fun _ => rfl) p

theorem nBits (p : IndexPtr) : (ix' p).nBits = (ix p).nBits := h.read (fun _ => rfl) p

theorem failed (p : IndexPtr) : (ix' p).failed = (ix p).failed := h.read (fun _ => rfl) p

theorem above : ix'.Above p q ↔ ix.Above p q := by
  rw [Above, h.parent]

theorem sound : ix'.Sound p ↔ ix.Sound p := by
  simp only [Sound, h.above, h.failed]

theorem GetAncestor (p : IndexPtr) (k : ℤ) : ix'.GetAncestor p k = ix.GetAncestor p k := by
  simp only [IndexHeap.GetAncestor, walk_eq_up, h.parent, h.nHeight]

omit h

end SameBlocks

theorem sameBlocks_BuildSkip (ix : IndexHeap) (p : IndexPtr) : SameBlocks ix (ix.BuildSkip p) := by
  unfold BuildSkip
  split
  · exact .refl ix
  · exact .modify rfl

/-- Skip pointers lead to blocks on the way to the genesis block. -/
theorem Tree.BuildSkip (h : ix.Tree) (p : IndexPtr) : (ix.BuildSkip p).Tree := by
  have hsame := sameBlocks_BuildSkip ix p
  refine ⟨fun a b hp => ?_, fun a b hp => ?_, fun a => ?_⟩
  · have := h.heights (hsame.parent ▸ hp)
    simpa only [hsame.nHeight] using this
  · rw [hsame.above]
    cases hq : (ix p).pprev with
    | none =>
      rw [IndexHeap.BuildSkip, hq] at hp
      exact h.skips a b hp
    | some q =>
      rw [IndexHeap.BuildSkip, hq] at hp
      dsimp only at hp
      by_cases hap : a = p
      · rw [hap, modify_self] at hp
        obtain ⟨hbq, -⟩ := (GetAncestor_eq_some h).mp hp
        have hbp : ix.Above b p := hbq.trans (.of_parent hq)
        refine ⟨hap ▸ hbp, fun hba => ?_⟩
        have hle := h.heights.grows.le hbq
        have hlt := h.heights.grows hq
        rw [hba, hap] at hle
        exact absurd hlt hle.not_gt
      · rw [modify_of_ne _ _ hap] at hp
        exact h.skips a b hp
  · rw [hsame.nHeight]
    exact h.lowest a

theorem Tree.foldl_BuildSkip (h : ix.Tree) (l : List IndexPtr) :
    (l.foldl IndexHeap.BuildSkip ix).Tree := by
  induction l generalizing ix with
  | nil => exact h
  | cons p l ih => exact ih (h.BuildSkip p)

end IndexHeap

/-! ### Appending the headers -/

namespace BlocksDB

open IndexHeap

variable {Q : IndexPtr → Prop} {db : BlocksDB} {b m : IndexPtr} {tips : List IndexPtr}

/-- A block is on the way from some tip to the genesis block. -/
def Covered (db : BlocksDB) (x : IndexPtr) : Prop := ∃ t ∈ db.headerChainTips, db.index.Above x t

/-- `Q` holds of the tips and the header chain, and the tips cover what is sound on that chain. -/
structure Unmarked (Q : IndexPtr → Prop) (db : BlocksDB) : Prop where
  tree : db.index.Tree
  tips : ∀ t ∈ db.headerChainTips, Q t
  chain : db.headersChain = none ∧ db.headerChainTips = [] ∨ ∃ m, db.headersChain = some m ∧
    Q m ∧ ∀ x, db.index.Sound x → db.index.Above x m → db.Covered x

/-- Sound blocks that were covered still are, and so is the block itself. -/
structure Extends (Q : IndexPtr → Prop) (db db' : BlocksDB) (b : IndexPtr) : Prop where
  index : db'.index = db.index
  unmarked : Unmarked Q db'
  covered : ∀ x, db.index.Sound x → db.Covered x → db'.Covered x
  block : db.index.Sound b → db'.Covered b

theorem Unmarked.bestTip (htree : db.index.Tree) (htips : ∀ t ∈ tips, Q t) (hm : Q m)
    (hcov : ∀ x, db.index.Sound x → db.index.Above x m → ∃ t ∈ tips, db.index.Above x t) :
    Unmarked Q { db with headerChainTips := tips, headersChain := (bestTip db.index (some m) tips).1 } := by
  obtain ⟨x, hx, hmem, -, -⟩ := bestTip_spec db.index m tips
  refine ⟨htree, htips, .inr ⟨x, hx, ?_⟩⟩
  rcases hmem with rfl | hmem
  · exact ⟨hm, hcov⟩
  · exact ⟨htips x hmem, fun y _ hy => ⟨x, hmem, hy⟩⟩

/-- A tip before the block is replaced by an unmarked one that has everything sound above it. -/
theorem Unmarked.found (h : Unmarked Q db) {t v : IndexPtr} (ht : t ∈ db.headerChainTips)
    (hv : Q v) (habv : ∀ x, db.index.Sound x → db.index.Above x t → db.index.Above x v)
    (hblk : db.index.Sound b → db.index.Above b v) :
    Extends Q db { db with
      headerChainTips := db.headerChainTips.erase t ++ [v]
      headersChain := if db.headersChain = some t then some v
        else (BlocksDB.bestTip db.index db.headersChain (db.headerChainTips.erase t ++ [v])).1 } b := by
  have htips : ∀ u ∈ db.headerChainTips.erase t ++ [v], Q u :=
    forall_mem_append.mpr ⟨fun u hu => h.tips u (mem_of_mem_erase hu), forall_mem_singleton.mpr hv⟩
  have hnew : v ∈ db.headerChainTips.erase t ++ [v] := by simp
  have hcov : ∀ x, db.index.Sound x → db.Covered x →
      ∃ u ∈ db.headerChainTips.erase t ++ [v], db.index.Above x u := by
    rintro x hx ⟨u, hu, hxu⟩
    by_cases hut : u = t
    · exact ⟨v, hnew, habv x hx (hut ▸ hxu)⟩
    · exact ⟨u, mem_append_left _ ((mem_erase_of_ne hut).mpr hu), hxu⟩
  refine ⟨rfl, ?_, hcov, fun hb => ⟨v, hnew, hblk hb⟩⟩
  split_ifs
  · exact ⟨h.tree, htips, .inr ⟨v, rfl, hv, fun x _ hx => ⟨v, hnew, hx⟩⟩⟩
  · rcases h.chain with ⟨-, hemp⟩ | ⟨m, hm, hmf, hmcov⟩
    · rw [hemp] at ht
      cases ht
    · rw [hm]
      exact Unmarked.bestTip h.tree htips hmf fun x hx hxm => hcov x hx (hmcov x hx hxm)

theorem Unmarked.valid (h : Unmarked Q db) (hb : (db b).failed = false) (hQ : Q b) :
    Extends Q db (db.appendHeader b).2 b := by
  rcases appendHeader_valid h.tree hb with ⟨heq, hkn⟩ | ⟨-, ⟨t, ht, habv, heq⟩ | ⟨-, heq⟩⟩ <;> rw [heq]
  · refine ⟨rfl, h, fun _ _ hx => hx, fun hs => hkn.elim (fun hc => ?_) id⟩
    obtain ⟨m, hm, habv⟩ := (Contains_iff h.tree).mp hc
    rcases h.chain with ⟨hnone, -⟩ | ⟨m', hm', -, hcov⟩
    · cases hm.symm.trans hnone
    · exact hcov b hs (some_inj.mp (hm.symm.trans hm') ▸ habv)
  · exact h.found ht hQ (fun x _ hx => hx.trans habv) fun _ => .refl b
  · have htips : ∀ t ∈ db.headerChainTips ++ [b], Q t :=
      forall_mem_append.mpr ⟨h.tips, forall_mem_singleton.mpr hQ⟩
    have hcov : ∀ x, db.index.Sound x → db.Covered x →
        ∃ t ∈ db.headerChainTips ++ [b], db.index.Above x t := by
      rintro x - ⟨t, ht, hxt⟩
      exact ⟨t, mem_append_left _ ht, hxt⟩
    have hself : b ∈ db.headerChainTips ++ [b] := by simp
    refine ⟨rfl, ?_, hcov, fun _ => ⟨b, hself, .refl b⟩⟩
    rcases h.chain with ⟨hnone, -⟩ | ⟨m, hm, hmf, hmcov⟩
    · rw [hnone]
      exact ⟨h.tree, htips, .inr ⟨b, rfl, hQ, fun x _ hx => ⟨b, hself, hx⟩⟩⟩
    · rw [hm]
      exact Unmarked.bestTip h.tree htips hmf fun x hx hxm => hcov x hx (hmcov x hx hxm)

/-- A failed block that comes before any other changes nothing. -/
theorem appendHeader_nothing (hb : (db b).failed) (hnone : db.headersChain = none)
    (hemp : db.headerChainTips = []) : (db.appendHeader b).2 = db := by
  obtain ⟨ix, byHash, chain, tips⟩ := db
  obtain rfl : tips = [] := hemp
  simp [appendHeader, hb, bestTip]

/-! ### The assert of a header chain -/

theorem scanTip_isSome {valid : Bool} {s s' : Scan} {t : IndexPtr}
    (h : scanTip db.index b valid s t = some s') (hs : s.headersChain.isSome) :
    s'.headersChain.isSome := by
  unfold scanTip at h
  split at h
  · split at h
    · cases h
    · cases h
      dsimp only
      split
      · rfl
      · exact hs
  · split at h
    · cases h
      exact hs
    · cases h
      exact hs

theorem foldlM_scanTip_isSome {valid : Bool} {s s' : Scan}
    (h : tips.foldlM (scanTip db.index b valid) s = some s') (hs : s.headersChain.isSome) :
    s'.headersChain.isSome := by
  induction tips generalizing s with
  | nil => exact some_inj.mp h ▸ hs
  | cons t tips ih =>
    rw [foldlM_cons] at h
    obtain ⟨s1, h1, h⟩ := bind_eq_some_iff.mp h
    exact ih h (scanTip_isSome h1 hs)

theorem bestTip_isSome {c : Chain} (h : c.isSome) : (BlocksDB.bestTip db.index c tips).1.isSome := by
  obtain ⟨m, rfl⟩ := isSome_iff_exists.mp h
  obtain ⟨x, hx, -⟩ := bestTip_spec db.index m tips
  rw [hx]
  rfl

/-- Where there is a header chain the assert is passed. -/
theorem appendHeaderAsserts_of_isSome (h : db.headersChain.isSome) : db.appendHeaderAsserts b := by
  unfold appendHeaderAsserts
  dsimp only
  split
  · rfl
  · split
    · simp [h]
    · split
      · rfl
      · next hscan => simp [foldlM_scanTip_isSome hscan h]

theorem appendHeader_isSome (h : db.headersChain.isSome) :
    (db.appendHeader b).2.headersChain.isSome := by
  unfold appendHeader
  dsimp only
  split
  · exact h
  · split
    · split
      · rfl
      · exact bestTip_isSome h
    · split
      · exact h
      · next hscan =>
        split
        · rfl
        · exact bestTip_isSome (foldlM_scanTip_isSome hscan h)

/-- The first header must not have failed. -/
theorem appendHeaderAsserts_first (hnone : db.headersChain = none) (hemp : db.headerChainTips = []) :
    db.appendHeaderAsserts b ↔ (db b).failed = false := by
  obtain ⟨ix, byHash, chain, tips⟩ := db
  obtain rfl : chain = none := hnone
  obtain rfl : tips = [] := hemp
  cases hb : (ix b).failed <;> simp [appendHeaderAsserts, hb, Chain.Height, Chain.Contains, Chain.at']

theorem along_asserts_of_isSome (h : db.headersChain.isSome) (order : List IndexPtr) :
    Runs.Along (fun db p => (db.appendHeader p).2) (fun db p => db.appendHeaderAsserts p) db order := by
  induction order generalizing db with
  | nil => trivial
  | cons p order ih => exact ⟨appendHeaderAsserts_of_isSome h, ih (appendHeader_isSome h)⟩

theorem validPrevOf_failed (hl : db.index.Tree) (hb : (db b).failed)
    (hroot : ∃ g, db.index.Above g b ∧ db.index.parent g = none ∧ (db g).failed = false) :
    db.index.Above (validPrevOf db.index b) b ∧ (db (validPrevOf db.index b)).failed = false ∧
      ∀ x, db.index.Sound x → db.index.Above x b → db.index.Above x (validPrevOf db.index b) := by
  obtain ⟨q, hq, hrootq⟩ : ∃ q, db.index.parent b = some q ∧
      ∃ g, db.index.Above g q ∧ db.index.parent g = none ∧ (db g).failed = false := by
    obtain ⟨g, hg, hnone, hgf⟩ := hroot
    rcases hg.cases_parent with rfl | ⟨q, hq, hgq⟩
    · rw [hb] at hgf
      cases hgf
    · exact ⟨q, hq, g, hgq, hnone, hgf⟩
  obtain ⟨hvq, hvf, hlast⟩ := validFrom_spec hl (lt_succ_self _) hrootq
  rw [← validPrevOf_invalid hb hq] at hvq hvf hlast
  refine ⟨hvq.trans (.of_parent hq), hvf, fun x hx hxb => ?_⟩
  rcases hxb.cases_parent with rfl | ⟨c, hc, hxc⟩
  · rw [hx x (.refl x)] at hb
    cases hb
  · exact hlast x hx (some_inj.mp (hc.symm.trans hq) ▸ hxc)

theorem Unmarked.invalid (h : Unmarked Q db) (hb : (db b).failed)
    (hQ : ∀ v, db.index.Above v b → (db v).failed = false → Q v)
    (hroot : ∃ g, db.index.Above g b ∧ db.index.parent g = none ∧ (db g).failed = false) :
    Extends Q db (db.appendHeader b).2 b := by
  obtain ⟨hvb, hvf, habv⟩ := validPrevOf_failed h.tree hb hroot
  have hv : Q (validPrevOf db.index b) := hQ _ hvb hvf
  have hnotb : ¬ db.index.Sound b := fun hs => by
    rw [hs b (.refl b)] at hb
    cases hb
  cases hfind : db.headerChainTips.find? (db.tipBefore b) with
  | some t =>
    obtain ⟨htip, htb⟩ := find_tipBefore_some h.tree hfind
    rw [appendHeader_found (.inl hb) hfind]
    exact h.found htip hv (fun x hx hxt => habv x hx (hxt.trans htb)) fun hs => absurd hs hnotb
  | none =>
    rcases h.chain with ⟨hnone, hemp⟩ | ⟨m, hm, hmf, hmcov⟩
    · rw [appendHeader_nothing hb hnone hemp]
      exact ⟨rfl, h, fun _ _ hx => hx, fun hs => absurd hs hnotb⟩
    · obtain ⟨s, hscan, hinv⟩ := scan_invalid h.tree b (validPrevOf db.index b) m db.headerChainTips
      rw [appendHeader_scanned (.inl hb) hfind (by rw [hb, hm]; exact hscan)]
      simp only [hb, Bool.not_true, Bool.false_and, Bool.false_eq_true, if_false]
      have hkept : ∀ t ∈ s.tips, Q t := fun t ht => h.tips t ((hinv.mem_tips t).mp ht).1
      -- whatever was dropped, the last valid block before the failed one is covered again
      have htips : ∃ tips', (if (s.modified && !s.alreadyContains) = true then
          s.tips ++ [s.validPrev] else s.tips) = tips' ∧
          (∀ t ∈ tips', Q t) ∧ (∀ t ∈ s.tips, t ∈ tips') ∧
          (s.modified → ∃ t ∈ tips', db.index.Above (validPrevOf db.index b) t) := by
        by_cases hc : s.alreadyContains
        · exact ⟨s.tips, by simp [hc], hkept, fun _ ht => ht, fun _ => hinv.contains.mp hc⟩
        · have hprev : s.validPrev = validPrevOf db.index b :=
            hinv.validPrev.resolve_right fun hp => hc hp.1
          by_cases hmod : s.modified
          · exact ⟨_, if_pos (by simp [hc, hmod]),
              forall_mem_append.mpr ⟨hkept, forall_mem_singleton.mpr (hprev ▸ hv)⟩,
              fun t ht => mem_append_left _ ht, fun _ => ⟨s.validPrev, by simp, hprev ▸ .refl _⟩⟩
          · exact ⟨s.tips, by simp [hmod], hkept, fun _ ht => ht, fun hm => absurd hm hmod⟩
      obtain ⟨tips', htips', hunm, hsub, hprev⟩ := htips
      rw [htips']
      have hprevcov : s.modified → ∀ x, db.index.Above x (validPrevOf db.index b) →
          ∃ t ∈ tips', db.index.Above x t := by
        intro hmod x hx
        obtain ⟨t, ht, hvt⟩ := hprev hmod
        exact ⟨t, ht, hx.trans hvt⟩
      have hcov : ∀ x, db.index.Sound x → db.Covered x → ∃ t ∈ tips', db.index.Above x t := by
        rintro x hx ⟨t, ht, hxt⟩
        by_cases hbt : db.index.Above b t
        · refine hprevcov (hinv.modified.mpr ⟨t, ht, hbt⟩) x (habv x hx ?_)
          rcases hxt.total hbt with hxb | hbx
          · exact hxb
          · rw [hx b hbx] at hb
            cases hb
        · exact ⟨t, hsub t ((hinv.mem_tips t).mpr ⟨ht, hbt⟩), hxt⟩
      have hcn : ∃ w, s.headersChain = some w ∧ Q w ∧
          ∀ x, db.index.Sound x → db.index.Above x w → ∃ t ∈ tips', db.index.Above x t := by
        rcases hinv.chain with ⟨hm', -⟩ | ⟨hmod, w, hw, rfl | hmem⟩
        · exact ⟨m, hm', hmf, fun x hx hxm => hcov x hx (hmcov x hx hxm)⟩
        · exact ⟨_, hw, hv, fun x _ hxw => hprevcov hmod x hxw⟩
        · exact ⟨w, hw, hkept w hmem, fun x _ hxw => ⟨w, hsub w hmem, hxw⟩⟩
      obtain ⟨w, hw, hwf, hwcov⟩ := hcn
      rw [hw]
      exact ⟨rfl, Unmarked.bestTip h.tree hunm hwf hwcov, hcov, fun hs => absurd hs hnotb⟩

theorem foldl_appendHeader_index (l : List IndexPtr) (db : BlocksDB) :
    (l.foldl (fun db p => (db.appendHeader p).2) db).index = db.index := by
  induction l generalizing db with
  | nil => rfl
  | cons p l ih => rw [foldl_cons, ih, appendHeader_index]

theorem Unmarked.foldl (h : Unmarked Q db) (order : List IndexPtr)
    (hQ : ∀ p ∈ order, ∀ v, db.index.Above v p → (db v).failed = false → Q v)
    (hroot : ∀ p ∈ order, ∃ g, db.index.Above g p ∧ db.index.parent g = none ∧ (db g).failed = false) :
    let db' := order.foldl (fun db p => (db.appendHeader p).2) db
    Unmarked Q db' ∧ ∀ x, db.index.Sound x → db.Covered x ∨ x ∈ order → db'.Covered x := by
  induction order generalizing db with
  | nil => exact ⟨h, fun x _ hx => hx.resolve_right (not_mem_nil)⟩
  | cons p order ih =>
    obtain ⟨hQp, hQ⟩ := forall_mem_cons.mp hQ
    obtain ⟨hrootp, hroot⟩ := forall_mem_cons.mp hroot
    have hext : Extends Q db (db.appendHeader p).2 p := by
      cases hf : (db p).failed with
      | false => exact h.valid hf (hQp p (.refl p) hf)
      | true => exact h.invalid hf hQp hrootp
    obtain ⟨hun, hcov⟩ := ih hext.unmarked (by rwa [hext.index]) (by rwa [hext.index])
    refine ⟨hun, fun x hx hor => hcov x (by rwa [hext.index]) ?_⟩
    rcases hor with hx' | hmem
    · exact .inl (hext.covered x hx hx')
    · rcases mem_cons.mp hmem with rfl | hmem
      · exact .inl (hext.block hx)
      · exact .inr hmem

/-! ### The work of the tips -/

section Work

variable {base ix : IndexHeap} {p q block tip : IndexPtr}

/-- The sum that the second pass makes; it leaves the genesis block out. -/
def tipSum (base : IndexHeap) : IndexPtr → ℕ :=
  weight base.parent (fun p => (base p).nHeight) fun p =>
    if base.parent p = none then 0 else GetBlockProof (base p).nBits

theorem tipSum_root (hl : base.Tree) (hp : base.parent p = none) : tipSum base p = 0 := by
  rw [tipSum, weight_eq hl.heights hl.lowest, hp]
  simp

theorem tipSum_child (hl : base.Tree) (hp : base.parent p = some q) :
    tipSum base p = tipSum base q + GetBlockProof (base p).nBits := by
  rw [tipSum, weight_eq hl.heights hl.lowest, hp, if_neg (by simp), add_comm]
  rfl

/-- The work of a block is known or still zero. -/
structure Partly (base index : IndexHeap) : Prop where
  same : SameBlocks base index
  works : ∀ p, (index p).nChainWork = 0 ∨ (index p).nChainWork = tipSum base p

theorem Partly.le (h : Partly base ix) (p : IndexPtr) : (ix p).nChainWork ≤ tipSum base p := by
  rcases h.works p with hp | hp
  · exact hp ▸ zero_le _
  · exact hp.le

variable (hl : base.Tree) {n : ℕ}

include hl

theorem Partly.start (h : Partly base ix) (hn : (base p).nHeight ≤ n) :
    base.Above (workStart ix n p) p ∧
      (ix (workStart ix n p)).nChainWork = tipSum base (workStart ix n p) := by
  have hroot : ∀ p, base.parent p = none → (ix p).nChainWork = tipSum base p := by
    intro p hp
    have := h.le p
    rw [tipSum_root hl hp] at this ⊢
    exact le_zero.mp this
  induction n generalizing p with
  | zero =>
    refine ⟨.refl p, hroot p ?_⟩
    cases hp : base.parent p with
    | none => rfl
    | some q =>
      have := hl.nHeight_eq hp
      have := hl.lowest q
      omega
  | succ n ih =>
    rw [workStart]
    split_ifs with hopen
    · cases hp : (ix p).pprev with
      | none => exact ⟨.refl p, hroot p (h.same.parent ▸ hp)⟩
      | some q =>
        have hq : base.parent p = some q := h.same.parent ▸ hp
        have := hl.nHeight_eq hq
        obtain ⟨habv, hwork⟩ := @ih q (by omega)
        exact ⟨habv.trans (.of_parent hq), hwork⟩
    · refine ⟨.refl p, ?_⟩
      rcases h.works p with hzero | hwork
      · refine hroot p ?_
        rw [not_and, h.same.nHeight, hzero] at hopen
        cases hp : base.parent p with
        | none => rfl
        | some q =>
          have := hl.nHeight_eq hp
          have := hl.lowest q
          exact absurd (zero_mod _) (hopen (by omega))
      · exact hwork

theorem Partly.fill (h : Partly base ix) (habv : base.Above block tip)
    (hblk : (ix block).nChainWork = tipSum base block)
    (hn : (base tip).nHeight ≤ (base block).nHeight + n) :
    Partly base (fillWork tip n ix block) ∧
      (∀ p, (ix p).nChainWork ≤ (fillWork tip n ix block p).nChainWork) ∧
      (fillWork tip n ix block tip).nChainWork = tipSum base tip := by
  induction n generalizing ix block with
  | zero =>
    obtain rfl : block = tip := hl.heights.grows.eq habv (by simpa using hn)
    exact ⟨h, fun _ => le_rfl, hblk⟩
  | succ n ih =>
    rw [fillWork]
    split_ifs with heq
    · exact ⟨h, fun _ => le_rfl, heq ▸ hblk⟩
    · rcases habv.cases_child with rfl | ⟨c, hc, hct⟩
      · exact absurd rfl heq
      have hht := hl.nHeight_eq hc
      have hfind : ix.GetAncestor tip ((ix block).nHeight + 1) = some c := by
        rw [h.same.GetAncestor, h.same.nHeight, GetAncestor_eq_some hl]
        exact ⟨hct, hht⟩
      rw [hfind]
      dsimp only
      have hwork : parentWork ix c + GetBlockProof (ix c).nBits = tipSum base c := by
        have hp : (ix c).pprev = some block := (congrFun h.same.parent c).trans hc
        rw [parentWork, hp, elim_some, hblk, h.same.nBits, tipSum_child hl hc]
      generalize hix : ix.modify c (fun x => { x with
        nChainWork := parentWork ix c + GetBlockProof x.nBits }) = ix'
      have hself : (ix' c).nChainWork = tipSum base c := by
        rw [← hix, modify_self]
        exact hwork
      have hoth : ∀ p, p ≠ c → ix' p = ix p := fun p hp => by rw [← hix, modify_of_ne _ _ hp]
      have hpart : Partly base ix' := by
        refine ⟨h.same.trans (hix ▸ .modify rfl), fun p => ?_⟩
        by_cases hp : p = c
        · exact .inr (hp ▸ hself)
        · rw [hoth p hp]
          exact h.works p
      obtain ⟨hfin, hle, htip⟩ := ih hpart hct hself (by push_cast at hn; omega)
      refine ⟨hfin, fun p => le_trans ?_ (hle p), htip⟩
      by_cases hp : p = c
      · rw [hp, hself]
        exact h.le c
      · rw [hoth p hp]

section

variable (h : Partly base db.index) (hm : db.headersChain = some m)
include h hm

/-- One tip of the second pass. -/
theorem tipWork_spec (tip : IndexPtr) :
    Partly base (db.tipWork tip).index ∧
      (∀ p, (db p).nChainWork ≤ ((db.tipWork tip).index p).nChainWork) ∧
      ((db.tipWork tip).index tip).nChainWork = tipSum base tip ∧ (db.tipWork tip).headersChain =
        if ((db.tipWork tip).index m).nChainWork < tipSum base tip then some tip else some m := by
  obtain ⟨habv, hwork⟩ :=
    h.start (p := tip) (n := (db tip).nHeight.toNat) hl (by rw [h.same.nHeight]; omega)
  have hlow := hl.lowest (workStart db.index (db tip).nHeight.toNat tip)
  obtain ⟨hpart, hle, htip⟩ := h.fill (n := (db tip).nHeight.toNat) hl habv hwork (by
    rw [h.same.nHeight] at hlow ⊢
    omega)
  refine ⟨hpart, hle, htip, ?_⟩
  simp only [tipWork, hm, any_some, decide_eq_true_eq, htip]

theorem foldl_tipWork_best (tips : List IndexPtr) :
    ∃ x, (tips.foldl tipWork db).headersChain = some x ∧ (x = m ∨ x ∈ tips) ∧
      (db m).nChainWork ≤ ((tips.foldl tipWork db).index x).nChainWork ∧
      (∀ t ∈ tips, tipSum base t ≤ ((tips.foldl tipWork db).index x).nChainWork) ∧
      Partly base (tips.foldl tipWork db).index := by
  induction tips generalizing db m with
  | nil => exact ⟨m, hm, .inl rfl, le_rfl, by simp, h⟩
  | cons t tips ih =>
    obtain ⟨hpart, hle, htip, hcn⟩ := tipWork_spec hl h hm t
    split_ifs at hcn with hlt
    · obtain ⟨x, hx, hmem, hmx, hall, hfin⟩ := ih hpart hcn
      rw [htip] at hmx
      exact ⟨x, hx, .inr (mem_cons.mpr hmem), (hle m).trans (hlt.le.trans hmx),
        forall_mem_cons.mpr ⟨hmx, hall⟩, hfin⟩
    · obtain ⟨x, hx, hmem, hmx, hall, hfin⟩ := ih hpart hcn
      exact ⟨x, hx, hmem.imp_right (mem_cons_of_mem _), (hle m).trans hmx,
        forall_mem_cons.mpr ⟨(not_lt.mp hlt).trans hmx, hall⟩, hfin⟩

theorem foldl_tipWork_stays (hwork : (db m).nChainWork = tipSum base m)
    (htips : ∀ t ∈ tips, tipSum base t ≤ tipSum base m) :
    (tips.foldl tipWork db).headersChain = some m := by
  induction tips generalizing db with
  | nil => exact hm
  | cons t tips ih =>
    obtain ⟨ht, htips⟩ := forall_mem_cons.mp htips
    obtain ⟨hpart, hle, htip, hcn⟩ := tipWork_spec hl h hm t
    have hwork' : ((db.tipWork t).index m).nChainWork = tipSum base m :=
      (hpart.le m).antisymm (hwork ▸ hle m)
    rw [hwork', if_neg ht.not_gt] at hcn
    exact ih hpart hcn hwork' htips

end

omit hl

def chainWork (base : IndexHeap) : IndexPtr → ℕ :=
  weight base.parent (fun p => (base p).nHeight) fun p => GetBlockProof (base p).nBits

theorem foldl_sumWork (hl : base.Tree) (hsame : SameBlocks base ix) {l : List IndexPtr}
    (hsrt : l.Pairwise fun p q => (base p).nHeight ≤ (base q).nHeight)
    (hpar : ∀ p ∈ l, ∀ q, base.parent p = some q → q ∈ l ∨ (ix q).nChainWork = chainWork base q) :
    ∀ p, p ∈ l ∨ (ix p).nChainWork = chainWork base p →
      (l.foldl sumWork ix p).nChainWork = chainWork base p := by
  induction l generalizing ix with
  | nil => exact fun p hp => hp.resolve_left not_mem_nil
  | cons c l ih =>
    obtain ⟨hfst, hsrt⟩ := pairwise_cons.mp hsrt
    obtain ⟨hc, hrest⟩ := forall_mem_cons.mp hpar
    have hself : (sumWork ix c c).nChainWork = chainWork base c := by
      rw [sumWork, modify_self, chainWork, weight_eq hl.heights hl.lowest]
      rw [hsame.nBits, add_comm, parentWork,
        show (ix c).pprev = base.parent c from congrFun hsame.parent c]
      cases hp : base.parent c with
      | none => rfl
      | some q =>
        rcases hc q hp with hq | hq
        · -- a parent is lower than its child, so it is not among the rest
          have hht := hl.nHeight_eq hp
          rcases mem_cons.mp hq with rfl | hq
          · omega
          · have := hfst q hq
            omega
        · exact congrArg _ hq
    have hkeep : ∀ p, (ix p).nChainWork = chainWork base p →
        (sumWork ix c p).nChainWork = chainWork base p := by
      intro p hp
      by_cases hpc : p = c
      · rw [hpc, hself]
      · rwa [sumWork, modify_of_ne _ _ hpc]
    have hmove : ∀ p, p ∈ c :: l ∨ (ix p).nChainWork = chainWork base p →
        p ∈ l ∨ (sumWork ix c p).nChainWork = chainWork base p := by
      rintro p (hp | hp)
      · rcases mem_cons.mp hp with rfl | hp
        · exact .inr hself
        · exact .inl hp
      · exact .inr (hkeep p hp)
    intro p hp
    exact ih (hsame.trans (.modify rfl)) hsrt (fun p' hp' q hq => hmove q (hrest p' hp' q hq)) p
      (hmove p hp)

end Work

end BlocksDB

end FloweeHub
