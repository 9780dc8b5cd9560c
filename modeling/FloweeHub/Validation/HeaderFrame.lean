import FloweeHub.Validation.Blame

/-! What placing a block among the headers leaves alone: links change only for a new object or an
adopted orphan, and the validated chain does not change. -/

namespace FloweeHub.Validation.Engine

open IndexHeap

variable {e e' e'' : Engine} {p q : IndexPtr} {s t : StateId} {off : IndexPtr → Prop}
  {chain : ChainParams}

def objectOf (e : Engine) (s : StateId) : Option IndexPtr :=
  (e.states s).bind BlockValidationState.blockIndex

/-- Links and heights differ in the objects `off` only. -/
structure SameLinks (off : IndexPtr → Prop) (e e' : Engine) : Prop where
  links : ∀ q, ¬ off q → (e' q).pprev = (e q).pprev ∧ (e' q).nHeight = (e q).nHeight
  blockchain : e'.blockchain = e.blockchain

/-- The header chain stays, and so do the objects of all states but `s`. -/
structure Frame (off : IndexPtr → Prop) (s : StateId) (e e' : Engine) :
    Prop extends SameLinks off e e' where
  objects : ∀ t ≠ s, e'.objectOf t = e.objectOf t
  orphans : ∀ o ∈ e'.orphanBlocks, o ∈ e.orphanBlocks
  headers : e'.headerChain = e.headerChain

namespace SameLinks

theorem refl (e : Engine) : SameLinks off e e := ⟨fun _ _ => ⟨rfl, rfl⟩, rfl⟩

theorem trans (h : SameLinks off e e') (h' : SameLinks off e' e'') : SameLinks off e e'' where
  links q hq := ⟨(h'.links q hq).1.trans (h.links q hq).1, (h'.links q hq).2.trans (h.links q hq).2⟩
  blockchain := h'.blockchain.trans h.blockchain

theorem modifyIndex (e : Engine) (p : IndexPtr) (f : BlockIndex → BlockIndex)
    (hf : off p ∨ ∀ b, (f b).pprev = b.pprev ∧ (f b).nHeight = b.nHeight) :
    SameLinks off e (e.modifyIndex p f) where
  links q hq := by
    by_cases hqp : q = p
    · subst hqp
      simpa only [index, Engine.modifyIndex, modify_self] using hf.resolve_left hq (e.db q)
    · simp only [index, Engine.modifyIndex, modify_of_ne _ _ hqp, and_self]
  blockchain := rfl

theorem sameWay (h : SameLinks off e e') (hclr : ∀ n q, e.db.index.walk n p = some q → ¬ off q) :
    SameWay e.db.index e'.db.index p := fun n q hq => h.links q (hclr n q hq)

end SameLinks

namespace Frame

theorem refl (e : Engine) : Frame off s e e := ⟨.refl e, fun _ _ => rfl, fun _ h => h, rfl⟩

theorem trans (h : Frame off s e e') (h' : Frame off s e' e'') : Frame off s e e'' where
  toSameLinks := h.toSameLinks.trans h'.toSameLinks
  objects t ht := (h'.objects t ht).trans (h.objects t ht)
  orphans o ho := h.orphans o (h'.orphans o ho)
  headers := h'.headers.trans h.headers

theorem modifyState (e : Engine) (t : StateId) (f : BlockValidationState → BlockValidationState)
    (hf : t = s ∨ ∀ st, (f st).blockIndex = st.blockIndex) : Frame off s e (e.modifyState t f) where
  links _ _ := ⟨rfl, rfl⟩
  blockchain := rfl
  objects u hu := by
    unfold objectOf Engine.modifyState
    dsimp only
    by_cases hut : u = t
    · subst hut
      rw [Function.update_self]
      cases e.states u with
      | none => rfl
      | some st => exact hf.resolve_left hu st
    · rw [Function.update_of_ne hut]
  orphans _ h := h
  headers := rfl

theorem modifyIndex (e : Engine) (p : IndexPtr) (f : BlockIndex → BlockIndex)
    (hf : off p ∨ ∀ b, (f b).pprev = b.pprev ∧ (f b).nHeight = b.nHeight) :
    Frame off s e (e.modifyIndex p f) :=
  ⟨.modifyIndex e p f hf, fun _ _ => rfl, fun _ h => h, rfl⟩

theorem connect (hp : off p) (e : Engine) (parent : IndexPtr) : Frame off s e (e.connect p parent) where
  links q hq := by
    have hne : q ≠ p := fun heq => hq (heq ▸ hp)
    unfold Engine.connect index
    dsimp only
    rw [IndexHeap.BuildSkip]
    cases ((e.modifyIndex p _).db.index p).pprev <;>
      simp only [Engine.modifyIndex, modify_of_ne _ _ hne, and_self]
  blockchain := rfl
  objects _ _ := rfl
  orphans _ h := h
  headers := rfl

end Frame

theorem RaiseValidity_links (b : BlockIndex) (n : ℕ) :
    (b.RaiseValidity n).pprev = b.pprev ∧ (b.RaiseValidity n).nHeight = b.nHeight := by
  unfold BlockIndex.RaiseValidity
  split_ifs <;> exact ⟨rfl, rfl⟩

theorem RaiseValidity_failed (b : BlockIndex) (n : ℕ) : (b.RaiseValidity n).failed = b.failed := by
  unfold BlockIndex.RaiseValidity
  split_ifs <;> rfl

variable (e)

theorem modifyState_objectOf (s t : StateId) {f : BlockValidationState → BlockValidationState}
    (hf : ∀ st, (f st).blockIndex = st.blockIndex) : (e.modifyState s f).objectOf t = e.objectOf t := by
  unfold objectOf
  by_cases ht : t = s
  · subst ht
    rw [modifyState_self]
    cases e.states t with
    | none => rfl
    | some st => exact hf st
  · rw [modifyState_of_ne _ ht]

theorem addChild_frame (parent child : StateId) : Frame off s e (e.addChild parent child) :=
  .modifyState e parent _ (.inr (by intro; rfl))

theorem inheritStatus_frame (s : StateId) (p q : IndexPtr) : Frame off s e (e.inheritStatus s p q) := by
  unfold inheritStatus
  split_ifs
  · exact (Frame.modifyIndex e p _ (.inr (by intro; exact ⟨rfl, rfl⟩))).trans
      (.modifyState _ s _ (.inl rfl))
  · exact (Frame.modifyIndex e p _ (.inr fun b => RaiseValidity_links b _)).trans
      (.modifyState _ s _ (.inl rfl))
  · exact .refl e

theorem joinParent_frame (s : StateId) (prevId : Uint256) : Frame off s e (e.joinParent s prevId) := by
  unfold joinParent
  split
  · exact addChild_frame ..
  · exact .refl e

theorem newIndex_frame (hp : off p) (e : Engine) (s : StateId) (st : BlockValidationState) :
    Frame off s e (e.newIndex s p st) :=
  (joinParent_frame e s _).trans
    ((Frame.modifyIndex _ p _ (.inl hp)).trans (.modifyState _ s _ (.inl rfl)))

/-- The object for a new header. -/
theorem createBlockIndexFor_frame (hp : off p) (e : Engine) (s : StateId) (st : BlockValidationState) :
    Frame off s e (e.createBlockIndexFor chain s p st) := by
  have hnew : Frame off s e (e.newIndex s p st) := newIndex_frame hp e s st
  unfold createBlockIndexFor
  dsimp only
  split
  · split_ifs
    · exact hnew
    · exact hnew.trans ((Frame.connect hp _ _).trans (inheritStatus_frame ..))
  · split_ifs
    · exact hnew.trans ((Frame.modifyIndex _ p _ (.inl hp)).trans (.modifyState _ s _ (.inl rfl)))
    · exact hnew

theorem recognise_frame (s : StateId) (st : BlockValidationState) (p : IndexPtr) :
    Frame off s e (e.recognise s st p) := by
  have hvalid (e : Engine) (c : Prop) [Decidable c] :
      Frame off s e (if c then e.modifyState s BlockValidationState.setValidParent else e) := by
    split_ifs
    · exact .modifyState _ s _ (.inl rfl)
    · exact .refl e
  refine .trans ?_ (hvalid _ _)
  split
  · exact .refl e
  · split
    · exact addChild_frame ..
    · exact hvalid e _

variable {e}

/-- States get children, orphans are put on top of others and are taken off their list. -/
structure AdoptionRule (Orphan : StateId → Prop) (P : Engine → Prop) : Prop where
  addChild : ∀ e parent child, P e → P (e.addChild parent child)
  connect : ∀ e o p q, Orphan o → e.objectOf o = some p → P e → P (e.connect p q)
  taken : ∀ e l, (∀ o ∈ l, o ∈ e.orphanBlocks) → P e → P { e with orphanBlocks := l }

namespace AdoptionRule

variable {Orphan : StateId → Prop} {P : Engine → Prop}

theorem addChild_objectOf (e : Engine) (parent child t : StateId) :
    (e.addChild parent child).objectOf t = e.objectOf t :=
  modifyState_objectOf e parent t fun _ => rfl

theorem adopt (h : AdoptionRule Orphan P) (parent : StateId) {orphan : StateId} (ho : Orphan orphan)
    (he : P e) :
    P (e.adopt parent orphan) := by
  unfold Engine.adopt
  split
  next par o _ hs =>
    dsimp only
    have hobj : e.objectOf orphan = o.blockIndex := by rw [objectOf, hs]; rfl
    split
    next p q hp _ =>
      split_ifs
      · exact h.connect e orphan p q ho (hobj.trans hp) he
      · exact h.connect _ orphan p q ho ((addChild_objectOf ..).trans (hobj.trans hp))
          (h.addChild e _ _ he)
    · split_ifs
      · exact he
      · exact h.addChild e _ _ he
  · exact he

theorem foldl_tryAdopt (h : AdoptionRule Orphan P) (parents l : List StateId) (r : Engine × List StateId)
    (hl : ∀ o ∈ l, Orphan o) (hr : P r.1) : P (l.foldl (tryAdopt parents) r).1 := by
  induction l generalizing r with
  | nil => exact hr
  | cons o l ih =>
    obtain ⟨ho, hl⟩ := List.forall_mem_cons.mp hl
    refine ih _ hl ?_
    unfold tryAdopt
    split
    · exact h.taken _ _ (fun _ => List.mem_of_mem_erase) (h.adopt _ ho hr)
    · exact hr

theorem orphanBlocks (l : List StateId) : AdoptionRule (fun _ => True) fun e =>
      ∀ o ∈ e.orphanBlocks, o ∈ l where
  addChild _ _ _ he := he
  connect _ _ _ _ _ _ he := he
  taken _ _ hsub he o ho := he o (hsub o ho)

theorem startOrphanWithParent (h : AdoptionRule Orphan P) (n : ℕ) (parents : List StateId) (e : Engine)
    (ho : ∀ o ∈ e.orphanBlocks, Orphan o) (he : P e) : P (startOrphanWithParent n parents e).1 := by
  induction n generalizing parents e with
  | zero => exact he
  | succ n ih =>
    have hone := h.foldl_tryAdopt parents e.orphanBlocks (e, []) ho he
    have hleft := (orphanBlocks e.orphanBlocks).foldl_tryAdopt parents e.orphanBlocks (e, [])
      (fun _ _ => trivial)
      fun _ h => h
    rw [Engine.startOrphanWithParent]
    split_ifs
    · exact hone
    · exact ih _ _ (fun o h => ho o (hleft o h)) hone

theorem adoptees (h : AdoptionRule Orphan P) (s : StateId) (st : BlockValidationState)
    (ho : ∀ o ∈ e.orphanBlocks, Orphan o) (he : P e) : P (e.adoptees s st).1 := by
  unfold Engine.adoptees
  split_ifs
  · exact he
  · exact h.startOrphanWithParent _ _ e ho he

end AdoptionRule

/-- Adoption keeps the frame when the objects of orphans may change. -/
theorem Frame.adoption (e : Engine) :
    AdoptionRule (fun o => o ≠ s ∧ ∀ p, e.objectOf o = some p → off p) (Frame off s e) where
  addChild _ _ _ h := h.trans (addChild_frame ..)
  connect _ o p q ho hp h := h.trans (.connect (ho.2 p (by rw [← h.objects o ho.1, hp])) _ q)
  taken _ _ hsub h := ⟨⟨h.links, h.blockchain⟩, h.objects, fun o ho => h.orphans o (hsub o ho),
    h.headers⟩

theorem storeBlock_links (e : Engine) (s : StateId) (st : BlockValidationState) (p : IndexPtr) :
    SameLinks off e (e.storeBlock s st p) := by
  have h : SameLinks off e _ := .modifyIndex e p (fun b => { b with
    nTx := st.block.transactions.length
    haveData := b.haveData || (st.blockPos || !(e p).haveData && st.saveGoodToDisk) })
    (.inr (by intro; exact ⟨rfl, rfl⟩))
  unfold storeBlock
  dsimp only
  split_ifs <;> exact ⟨h.links, h.blockchain⟩

theorem ownIndex_links (e : Engine) (s : StateId) (id : Uint256) (p : IndexPtr) :
    SameLinks off e (e.ownIndex s id p) := by
  have h : SameLinks off e _ := .modifyIndex e p (fun b => b.RaiseValidity BLOCK_VALID_TREE)
    (.inr fun b => RaiseValidity_links b _)
  exact ⟨h.links, h.blockchain⟩

/-- Registering a header: its object becomes part of the index, is marked if it is at odds with a
checkpoint and is appended, and a whole block is stored. -/
structure RegisterRule (chain : ChainParams) (P : Engine → Prop) : Prop where
  own : ∀ e s id p, P e → P (e.ownIndex s id p)
  mark : ∀ e p, checkpointMismatch chain (e p) → P e →
    P (e.modifyIndex p fun b => { b with failedValid := true })
  append : ∀ e p, P e → P { e with db := (e.db.appendHeader p).2 }
  store : ∀ e s st p, P e → P (e.storeBlock s st p)

namespace RegisterRule

variable {P : Engine → Prop}

/-- All that is done once the object is part of the index. -/
theorem placed (h : RegisterRule chain P) (s : StateId) (st : BlockValidationState) (p : IndexPtr)
    (he : P e) :
    P (let e1 := if checkpointMismatch chain (e p) then
        e.modifyIndex p fun b => { b with failedValid := true } else e
      let e2 := { e1 with db := (e1.db.appendHeader p).2 }
      if st.block.isFullBlock then e2.storeBlock s st p else e2) := by
  have hmark : P (if checkpointMismatch chain (e p) then
      e.modifyIndex p fun b => { b with failedValid := true } else e) := by
    split_ifs with hpt
    · exact h.mark e p hpt he
    · exact he
  dsimp only
  by_cases hfull : st.block.isFullBlock
  · rw [if_pos hfull]
    exact h.store _ s st p (h.append _ p hmark)
  · rw [if_neg hfull]
    exact h.append _ p hmark

theorem registerHeader (h : RegisterRule chain P) (r : Engine × String) (s : StateId) (hr : P r.1) :
    P (registerHeader chain r s).1 := by
  unfold Engine.registerHeader
  split
  · exact hr
  next st _ =>
    split
    · exact hr
    next p _ =>
      by_cases honly : st.checkValidityOnly
      · rwa [if_pos honly]
      · rw [if_neg honly]
        have hown : P (if st.ownsIndex then r.1.ownIndex s st.blockId p else r.1) := by
          split_ifs
          · exact h.own _ s _ p hr
          · exact hr
        exact h.placed s st p hown

theorem foldl (h : RegisterRule chain P) (items : List StateId) (r : Engine × String) (hr : P r.1) :
    P (items.foldl (Engine.registerHeader chain) r).1 := by
  induction items generalizing r with
  | nil => exact hr
  | cons s items ih => exact ih _ (h.registerHeader r s hr)

end RegisterRule

theorem SameLinks.register (e : Engine) : RegisterRule chain (SameLinks off e) where
  own _ _ _ _ h := h.trans (ownIndex_links ..)
  mark e p _ h := h.trans (.modifyIndex e p _ (.inr (by intro; exact ⟨rfl, rfl⟩)))
  append _ _ h := h.trans ⟨fun q _ => by simp only [index, BlocksDB.appendHeader_index, and_self], rfl⟩
  store _ _ _ _ h := h.trans (storeBlock_links ..)

theorem forwardBlock_keeps (r : Engine × Bool × Bool) (s : StateId) :
    (forwardBlock r s).1.db = r.1.db ∧ (forwardBlock r s).1.blockchain = r.1.blockchain ∧
      (forwardBlock r s).1.utxo = r.1.utxo := by
  unfold forwardBlock
  dsimp only
  split
  · exact ⟨rfl, rfl, rfl⟩
  · split
    · exact ⟨rfl, rfl, rfl⟩
    · split_ifs <;> exact ⟨rfl, rfl, rfl⟩

theorem foldl_forwardBlock_keeps (items : List StateId) (r : Engine × Bool × Bool) :
    (items.foldl forwardBlock r).1.db = r.1.db ∧
      (items.foldl forwardBlock r).1.blockchain = r.1.blockchain ∧
      (items.foldl forwardBlock r).1.utxo = r.1.utxo := by
  induction items generalizing r with
  | nil => exact ⟨rfl, rfl, rfl⟩
  | cons s items ih =>
    obtain ⟨hdb, hcn, hutxo⟩ := forwardBlock_keeps r s
    exact ⟨(ih _).1.trans hdb, (ih _).2.1.trans hcn, (ih _).2.2.trans hutxo⟩

/-- The validated chain goes back, or nothing happens. -/
theorem reorganise_cases {params : Params} {old : Chain} (h : e.reorganise params old = .ok e') :
    e' = e ∨ ∃ e1, e.prepareChain = .ok e1 ∧ e' = { e1 with lastFullBlockScheduled := -1 } := by
  unfold reorganise at h
  split at h
  · exact .inl (Except.ok.inj h).symm
  · split_ifs at h
    · exact .inl (Except.ok.inj h).symm
    · exact .inl (Except.ok.inj h).symm
    · obtain ⟨e1, hprep, rfl⟩ := Lib.Guards.map_eq_ok_iff.mp h
      exact .inr ⟨e1, hprep, rfl⟩
    · exact .inl (Except.ok.inj h).symm

end FloweeHub.Validation.Engine
