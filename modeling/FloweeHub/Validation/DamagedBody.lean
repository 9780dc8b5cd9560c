import FloweeHub.Validation.ClockReject
import FloweeHub.Validation.ReorgLimit

/-! A block that arrives with the header of a valid block and another body. A failure at the merkle
root is not blamed on the header, but the bytes are parsed before that, and the size is compared
after it. What is behind the transactions is not looked at until a later stage, which reads on. -/

namespace FloweeHub.Validation

open Lib Lib.Guards Serialize BlockValidationState List Option

variable {env : Checks1Env} {data : Bytes} {α : Type} {x : Except Thrown α}

def Thrown.corruptionPossible : Thrown → Bool
  | .exception e => e.corruptionPossible
  | .runtimeError _ => false

/-! ### Which failures are blamed -/

/-- Whatever goes wrong is blamed on the block. -/
def Fatal {α : Type} (x : Except Thrown α) : Prop := ∀ t, x = .error t → t.corruptionPossible = false

theorem fatal_ok (a : α) : Fatal (.ok a) := fun _ h => nomatch h

theorem fatal_throwInvalid (error : String) : Fatal (throwInvalid error : Except Thrown α) := by
  rintro t ⟨⟩
  rfl

theorem fatal_invalid (error : String) (punishment : ℕ) :
    Fatal (.error (.exception (.invalid error punishment)) : Except Thrown α) := by
  rintro t ⟨⟩
  rfl

theorem Fatal.bind {β : Type} {f : α → Except Thrown β} (hx : Fatal x) (hf : ∀ a, Fatal (f a)) :
    Fatal (x.bind f) := by
  intro t h
  rcases bind_eq_error_iff.mp h with hx' | ⟨a, -, hfa⟩
  · exact hx t hx'
  · exact hf a t hfa

theorem Fatal.ite {c : Prop} [Decidable c] {y : Except Thrown α} (hx : Fatal x) (hy : Fatal y) :
    Fatal (if c then x else y) := by
  split_ifs
  · exact hx
  · exact hy

theorem checkOutputs_fatal (nValueOut : ℤ) (vout : List TxOut) :
    Fatal (checkOutputs nValueOut vout) := by
  induction vout generalizing nValueOut with
  | nil => exact fatal_ok ()
  | cons txout rest ih =>
    exact (fatal_throwInvalid _).ite ((fatal_throwInvalid _).ite ((fatal_throwInvalid _).ite (ih _)))

theorem checkTransaction_fatal (tx : Transaction) : Fatal (checkTransaction tx) := by
  refine (fatal_invalid _ _).ite ((fatal_invalid _ _).ite ((fatal_throwInvalid _).ite ?_))
  refine (checkOutputs_fatal 0 tx.vout).bind fun _ => (fatal_throwInvalid _).ite (.ite ?_ ?_)
  · exact (fatal_throwInvalid _).ite (fatal_ok ())
  · exact (fatal_invalid _ _).ite (fatal_ok ())

theorem checkTransactions_fatal (txs : List Transaction) : Fatal (checkTransactions txs) := by
  induction txs with
  | nil => exact fatal_ok ()
  | cons tx txs ih => exact (checkTransaction_fatal tx).bind fun _ => ih

theorem checkVtx_fatal (limit size : ℤ) (vtx : List Transaction) : Fatal (checkVtx limit size vtx) := by
  cases vtx with
  | nil => exact fatal_throwInvalid _
  | cons coinbase txs =>
    refine .ite ?_ ((fatal_throwInvalid _).ite ((fatal_throwInvalid _).ite (checkTransactions_fatal _)))
    rintro t ⟨⟩
    rfl

theorem checkMerkle_corruption {hash256 : Bytes → Uint256} {block : RawBlock} {t : Thrown}
    (h : checkMerkle hash256 block = .error t) : t.corruptionPossible := by
  unfold checkMerkle at h
  dsimp only at h
  split_ifs at h
  · cases h
    rfl
  · cases h
    rfl

/-- What the later stages read are the transactions that were checked. -/
def ReadOn (hash256 : Bytes → Uint256) (data : Bytes) : Prop :=
  ∃ txs, BlockBytes.findTransactions data = .ok txs ∧ WalkMatches hash256 data txs

/-- The bytes can be read, and the transactions are not those of the header, or they pass all checks
and are all there is but for one byte. -/
def BodySpared (env : Checks1Env) (data : Bytes) : Prop :=
  ∃ txs block rest, BlockBytes.findTransactions data = .ok txs ∧
    RawBlock.createOldBlock data = .ok (block, rest) ∧ (checkMerkle env.hash256 block ≠ .ok () ∨
      checkVtx env.blockSizeAcceptLimit data.length (block.vtx.items.map
        (RawTx.toTransaction env.hash256)) = .ok () ∧
        rest.length ≤ 1 ∧ ∀ tx ∈ block.vtx.items, tx.Short)

theorem bodySpared_accepted (hsize : data.length < 2 ^ 31) (h : checkBody env true data = .ok ()) :
    BodySpared env data ↔ ReadOn env.hash256 data := by
  obtain ⟨txs, block, rest, hfind, hblk, hmk, hvtx⟩ := checkBody_eq_ok.mp h
  have hwalk := walkMatches_of_checkVtx hsize hfind hblk hvtx
  constructor
  · rintro ⟨_, block', rest', -, hblk', hspared⟩
    obtain ⟨rfl, rfl⟩ : block = block' ∧ rest = rest' := by simpa [hblk] using hblk'
    rcases hspared with hno | ⟨-, hend⟩
    · exact absurd (hmk rfl) hno
    · exact ⟨txs, hfind, hwalk.mpr hend⟩
  · rintro ⟨txs', hfind', hmatch⟩
    cases hfind.symm.trans hfind'
    exact ⟨txs, block, rest, hfind, hblk, .inr ⟨hvtx, hwalk.mp hmatch⟩⟩

/-- What is refused is spared exactly if the failure is one that is not blamed. -/
theorem bodySpared_refused {t : Thrown} (h : checkBody env true data = .error t) :
    BodySpared env data ↔ t.corruptionPossible := by
  unfold BodySpared
  rw [checkBody] at h
  cases hfind : BlockBytes.findTransactions data with
  | error what =>
    rw [hfind] at h
    cases h
    exact iff_of_false (by rintro ⟨_, _, _, h, -⟩; cases h) Bool.false_ne_true
  | ok txs =>
    cases hblk : RawBlock.createOldBlock data with
    | error what =>
      rw [hfind, hblk] at h
      cases h
      exact iff_of_false (by rintro ⟨_, _, _, -, h, -⟩; cases h) Bool.false_ne_true
    | ok r =>
      obtain ⟨block, rest⟩ := r
      rw [hfind, hblk] at h
      replace h : (checkMerkle env.hash256 block).bind (fun _ =>
          checkVtx env.blockSizeAcceptLimit data.length
        (block.vtx.items.map (RawTx.toTransaction env.hash256))) = .error t := h
      rcases bind_eq_error_iff.mp h with hmk | ⟨u, hmk, hvtx⟩
      · have hne : checkMerkle env.hash256 block ≠ .ok () := by simp [hmk]
        exact iff_of_true ⟨txs, block, rest, rfl, rfl, .inl hne⟩ (checkMerkle_corruption hmk)
      · refine iff_of_false ?_ (by rw [checkVtx_fatal _ _ _ t hvtx]; exact Bool.false_ne_true)
        rintro ⟨_, _, _, -, ⟨⟩, hno | ⟨hok, -⟩⟩
        · exact hno hmk
        · cases hok.symm.trans hvtx

theorem checkHeader_append {checkPow : Bool} {h b : Bytes} (hlen : h.length = 80)
    (hok : checkHeader env checkPow (h ++ b) = .ok ()) (c : Bytes) :
    checkHeader env checkPow (h ++ c) = .ok () := by
  unfold checkHeader at hok ⊢
  obtain ⟨⟨header, rest⟩, hread, hchecks⟩ := bind_eq_ok_iff.mp hok
  obtain ⟨hval, hdata⟩ := (BlockHeader.inverts_read _ _ _).mp (runtime_eq_ok.mp hread)
  obtain ⟨rfl, rfl⟩ := append_inj hdata (hlen.trans header.length_write.symm)
  have htake (body : Bytes) : (header.write ++ body).take 80 = header.write := take_left' hlen
  rw [htake] at hchecks
  rw [BlockHeader.inverts_read.read hval, runtime, ok_bind, htake]
  exact hchecks

/-- The header is that of a valid block, so all that can fail is the body. -/
theorem checks1_append {st : BlockValidationState} {h b : Bytes} (hlen : h.length = 80)
    (hok : st.checks1 env (h ++ b) = .ok ()) (c : Bytes) : st.checks1 env (h ++ c) =
      if c ≠ [] ∧ st.checkTransactionValidity = true then checkBody env st.checkMerkleRoot (h ++ c)
        else .ok () := by
  have hfull : (decide (80 < (h ++ c).length) && st.checkTransactionValidity) = true ↔
      c ≠ [] ∧ st.checkTransactionValidity := by
    rw [Bool.and_eq_true, decide_eq_true_eq, length_append, hlen, ← length_pos_iff]
    exact and_congr_left fun _ => by omega
  rw [checks1, checkHeader_append hlen (checks1_eq_ok.mp hok).1, ok_bind]
  exact if_congr hfull rfl rfl

namespace Engine

open IndexHeap

variable {e e' : Engine} {s : StateId} {new p q : IndexPtr} {st : BlockValidationState}
  {chain : ChainParams} {ps : Params} {id : Uint256}

/-! ### The entry of the header stays unmarked -/

/-- The header has an entry that is not marked and is not at odds with a checkpoint. -/
structure Kept (chain : ChainParams) (id : Uint256) (q : IndexPtr) (e : Engine) : Prop where
  entry : e.db.byHash id = some q
  unmarked : (e q).failedValid = false
  checkpoint : checkpointMismatch chain (e q) = false

/-- The header has no entry so far, and its object belongs to the state. -/
structure Held (chain : ChainParams) (id : Uint256) (q : IndexPtr) (s : StateId) (e : Engine) :
    Prop where
  entry : e.db.byHash id = none
  unmarked : (e q).failedValid = false
  checkpoint : checkpointMismatch chain (e q) = false
  state : ∃ st, e.states s = some st ∧ st.blockIndex = some q ∧ st.blockId = id ∧ st.ownsIndex = true ∧
    st.checkValidityOnly = false

/-- The mark, the height and the id are the same. -/
def SameMark (b b' : BlockIndex) : Prop :=
  b'.failedValid = b.failedValid ∧ b'.nHeight = b.nHeight ∧ b'.phashBlock = b.phashBlock

theorem SameMark.checkpoint {b b' : BlockIndex} (h : SameMark b b') :
    checkpointMismatch chain b' = checkpointMismatch chain b := by
  unfold checkpointMismatch
  rw [h.2.1, h.2.2]

theorem RaiseValidity_sameMark (b : BlockIndex) (n : ℕ) : SameMark b (b.RaiseValidity n) := by
  unfold BlockIndex.RaiseValidity
  split_ifs <;> exact ⟨rfl, rfl, rfl⟩

theorem modifyIndex_sameMark (e : Engine) (p q : IndexPtr) {f : BlockIndex → BlockIndex}
    (hf : ∀ b, SameMark b (f b)) :
    SameMark (e q) ((e.modifyIndex p f).index q) := by
  by_cases hqp : q = p
  · subst hqp
    rw [modifyIndex_self]
    exact hf _
  · rw [modifyIndex_of_ne _ hqp]
    exact ⟨rfl, rfl, rfl⟩

theorem Kept.of_sameMark (h : Kept chain id q e) (hent : e'.db.byHash id = e.db.byHash id)
    (hmark : SameMark (e q) (e' q)) : Kept chain id q e' :=
  ⟨hent.trans h.entry, hmark.1.trans h.unmarked, hmark.checkpoint.trans h.checkpoint⟩

theorem storeBlock_kept (h : Kept chain id q e) (s : StateId) (st : BlockValidationState)
    (p : IndexPtr) :
    Kept chain id q (e.storeBlock s st p) := by
  have hmark := modifyIndex_sameMark e p q (f := fun b => { b with
    nTx := st.block.transactions.length
    haveData := b.haveData || (st.blockPos || !(e p).haveData && st.saveGoodToDisk) }) fun _ =>
      ⟨rfl, rfl, rfl⟩
  unfold storeBlock
  dsimp only
  split_ifs
  · exact h.of_sameMark rfl hmark
  · exact h.of_sameMark rfl hmark

theorem ownIndex_kept (h : Kept chain id q e) (s : StateId) (id' : Uint256) (p : IndexPtr) :
    Kept chain id q (e.ownIndex s id' p) := by
  refine h.of_sameMark ?_ (modifyIndex_sameMark e p q fun b => RaiseValidity_sameMark b _)
  refine if_neg ?_
  rintro ⟨rfl, hnone⟩
  exact absurd (hnone.symm.trans h.entry) nofun

theorem ownIndex_held (h : Held chain id q s e) : Kept chain id q (e.ownIndex s id q) := by
  have hmark : SameMark (e q) ((e.ownIndex s id q).index q) :=
    modifyIndex_sameMark e q q fun b => RaiseValidity_sameMark b _
  exact ⟨if_pos ⟨rfl, h.entry⟩, hmark.1.trans h.unmarked, hmark.checkpoint.trans h.checkpoint⟩

theorem Kept.register : RegisterRule chain (Kept chain id q) where
  own _ s id' p h := ownIndex_kept h s id' p
  mark e p hpt h := by
    have hne : q ≠ p := fun heq => by
      rw [← heq, h.checkpoint] at hpt
      cases hpt
    exact h.of_sameMark rfl (by rw [modifyIndex_of_ne _ hne]; exact ⟨rfl, rfl, rfl⟩)
  append e p h := by
    refine h.of_sameMark (by rw [BlocksDB.appendHeader_byHash]) ?_
    simp only [index, BlocksDB.appendHeader_index]
    exact ⟨rfl, rfl, rfl⟩
  store _ s st p h := storeBlock_kept h s st p

theorem registerHeader_kept {r : Engine × String} (h : Kept chain id q r.1 ∨ Held chain id q s r.1) :
    Kept chain id q (registerHeader chain r s).1 := by
  rcases h with hkept | hheld
  · exact Kept.register.registerHeader r s hkept
  · obtain ⟨st, hs, hp, rfl, howns, honly⟩ := hheld.state
    unfold registerHeader
    rw [hs]
    dsimp only
    rw [hp]
    dsimp only
    rw [if_neg (by simp [honly]), howns, if_pos rfl]
    exact Kept.register.placed s st q (ownIndex_held hheld)

/-- Adoption leaves alone the object `q`, the index of hashes, and the state `s` but its children.
-/
structure Beside (Orphan : StateId → Prop) (q : IndexPtr) (s : StateId) (e₀ e : Engine) : Prop where
  object : e.index q = e₀.index q
  entries : e.db.byHash = e₀.db.byHash
  state : ∀ st, e₀.states s = some st →
    ∃ children, e.states s = some { st with chainChildren := children }
  orphans : ∀ o, Orphan o → e.objectOf o ≠ some q

theorem Beside.adoption {Orphan : StateId → Prop} (e0 : Engine) :
    AdoptionRule Orphan (Beside Orphan q s e0) where
  addChild e parent child h := by
    refine ⟨h.object, h.entries, fun st hs => ?_, fun o ho => by
      rw [AdoptionRule.addChild_objectOf]
      exact h.orphans o ho⟩
    obtain ⟨children, hs'⟩ := h.state st hs
    unfold addChild
    by_cases hsp : s = parent
    · subst hsp
      exact ⟨children ++ [child], by rw [modifyState_self, hs']; rfl⟩
    · exact ⟨children, by rw [modifyState_of_ne _ hsp, hs']⟩
  connect e o p parent ho hp h := by
    have hne : q ≠ p := fun heq => h.orphans o ho (heq ▸ hp)
    obtain ⟨skip, hconn⟩ := connect_eq e p parent
    rw [hconn]
    exact ⟨(modifyIndex_of_ne _ hne).trans h.object, h.entries, h.state, h.orphans⟩
  taken _ _ _ h := ⟨h.object, h.entries, h.state, h.orphans⟩

theorem registered_kept (h : Kept chain id q e ∨ Held chain id q s e)
    (horps : ∀ o ∈ e.orphanBlocks, e.objectOf o ≠ some q) (st : BlockValidationState) :
    Kept chain id q (e.registered chain s st).1 := by
  have hbes : Beside (fun o => e.objectOf o ≠ some q) q s e (e.adoptees s st).1 :=
    (Beside.adoption e).adoptees s st horps ⟨rfl, rfl, fun st hs => ⟨st.chainChildren, hs⟩,
      fun o ho => ho⟩
  have hfst : Kept chain id q (e.adoptees s st).1 ∨ Held chain id q s (e.adoptees s st).1 := by
    rcases h with hkept | hheld
    · exact .inl (hkept.of_sameMark (by rw [hbes.entries]) (by rw [hbes.object]; exact ⟨rfl, rfl, rfl⟩))
    · obtain ⟨st1, hs, hp, hid, howns, honly⟩ := hheld.state
      obtain ⟨children, hs'⟩ := hbes.state st1 hs
      exact .inr ⟨by rw [hbes.entries]; exact hheld.entry, by rw [hbes.object]; exact hheld.unmarked,
        by rw [hbes.object]; exact hheld.checkpoint, _, hs', hp, hid, howns, honly⟩
  exact Kept.register.foldl (e.adoptees s st).2 _ (registerHeader_kept hfst)

/-! ### A block that is accepted -/

theorem reorganise_db {old : Chain} (h : e.reorganise ps old = .ok e') : e'.db = e.db := by
  rcases reorganise_cases h with rfl | ⟨e1, hprep, rfl⟩
  · rfl
  · have hdb := prepareChain_db hprep
    exact hdb

theorem acceptHeader_db {r : Engine × String} (h : e.acceptHeader ps chain s st p = .ok r) :
    r.1.db = (e.registered chain s st).1.db := by
  obtain ⟨e1, hre, rfl⟩ := Guards.map_eq_ok_iff.mp h
  rw [← reorganise_db hre]
  split_ifs
  · exact (foldl_forwardBlock_keeps _ _).1
  · rfl

/-- The entry of the header, if there is one, is not marked. -/
def Unmarked (id : Uint256) (e : Engine) : Prop := ∀ q, e.db.byHash id = some q →
    (e q).failedValid = false

theorem Kept.unmarked_entry (h : Kept chain id q e) : Unmarked id e := fun q' hq' => by
  rw [some_inj.mp (hq'.symm.trans h.entry)]
  exact h.unmarked

theorem unmarked_of_none (h : e.db.byHash id = none) : Unmarked id e :=
  fun _ hq => nomatch h.symm.trans hq

theorem registered_validityOnly {st1 : BlockValidationState} (honly : st.checkValidityOnly)
    (hs : e.states s = some st1) (honly1 : st1.checkValidityOnly) : (e.registered chain s st).1 = e := by
  unfold registered adoptees
  rw [if_pos honly]
  dsimp only [foldl]
  unfold registerHeader
  rw [hs]
  dsimp only
  cases st1.blockIndex with
  | none => rfl
  | some p =>
    dsimp only
    rw [if_pos honly1]

/-- The header has an unmarked entry, is about to get one, or gets none. -/
def Ready (chain : ChainParams) (id : Uint256) (q : IndexPtr) (s : StateId)
    (st : BlockValidationState) (e : Engine) :
    Prop :=
  Kept chain id q e ∨ Held chain id q s e ∨ e.db.byHash id = none ∧ st.checkValidityOnly = true ∧
    ∃ st₁, e.states s = some st₁ ∧ st₁.checkValidityOnly = true

theorem Ready.unmarked (h : Ready chain id q s st e) : Unmarked id e := by
  rcases h with hkept | hheld | ⟨hnone, -⟩
  · exact hkept.unmarked_entry
  · exact unmarked_of_none hheld.entry
  · exact unmarked_of_none hnone

theorem acceptHeader_unmarked {r : Engine × String} (h : Ready chain id q s st e)
    (horps : ∀ o ∈ e.orphanBlocks, e.objectOf o ≠ some q)
    (hrun : e.acceptHeader ps chain s st p = .ok r) :
    Unmarked id r.1 := by
  have hdb := acceptHeader_db hrun
  have hunm : Unmarked id (e.registered chain s st).1 := by
    rcases h with hkept | hheld | ⟨hnone, honly, st1, hs, honly1⟩
    · exact (registered_kept (.inl hkept) horps st).unmarked_entry
    · exact (registered_kept (.inr hheld) horps st).unmarked_entry
    · rw [registered_validityOnly honly hs honly1]
      exact unmarked_of_none hnone
  intro q' hq'
  rw [index, hdb]
  exact hunm q' (by rw [← hdb]; exact hq')

/-- A block that is not refused leaves the entry of its header unmarked. -/
theorem placeBlock_unmarked {hasFailed : Bool} {r : Engine × String}
    (hok : (hasFailed || (e p).failed) = false) (h : Ready chain id q s st e)
    (horps : ∀ o ∈ e.orphanBlocks, e.objectOf o ≠ some q)
    (hrun : e.placeBlock ps chain s hasFailed st p = .ok r) : Unmarked id r.1 := by
  unfold placeBlock at hrun
  rw [hok, if_neg (by decide)] at hrun
  dsimp only at hrun
  split_ifs at hrun with hpl honly
  · cases hrun
    exact h.unmarked
  · cases hrun
    exact h.unmarked
  · have hstate {st1 : BlockValidationState} (hs : e.states s = some st1) : (e.modifyState s
        fun st => { st with
        flags := e.tipFlags, fetchFees := e.tipFlags.enableValidation ||
          e.fetchFeeForMetaBlocks }).states s =
        some { st1 with
          flags := e.tipFlags, fetchFees := e.tipFlags.enableValidation ||
            e.fetchFeeForMetaBlocks } := by
      rw [modifyState_self, hs]
      rfl
    refine acceptHeader_unmarked (q := q) ?_ (fun o ho => ?_) hrun
    · rcases h with hkept | hheld | ⟨hnone, honly, st1, hs, honly1⟩
      · exact .inl ⟨hkept.entry, hkept.unmarked, hkept.checkpoint⟩
      · obtain ⟨st1, hs, hfs⟩ := hheld.state
        exact .inr (.inl ⟨hheld.entry, hheld.unmarked, hheld.checkpoint, _, hstate hs, hfs⟩)
      · exact .inr (.inr ⟨hnone, honly, _, hstate hs, honly1⟩)
    · rw [modifyState_objectOf _ _ _ (by intro; rfl)]
      exact horps o ho

/-- The height that a new header gets, `-1` without a way to the genesis block. -/
def placeHeight (chain : ChainParams) (e : Engine) (st : BlockValidationState) : ℤ :=
  match e.findPrev st.block.previousBlockId with
  | some q => if (e q).nHeight = -1 then -1 else (e q).nHeight + 1
  | none => if st.blockId = chain.hashGenesisBlock then 0 else -1

theorem inheritStatus_sameMark (e : Engine) (s : StateId) (p q r : IndexPtr) :
    SameMark (e r) ((e.inheritStatus s p q).index r) := by
  unfold inheritStatus
  split_ifs
  · exact modifyIndex_sameMark e p r (by intro; exact ⟨rfl, rfl, rfl⟩)
  · exact modifyIndex_sameMark e p r fun b => RaiseValidity_sameMark b _
  · exact ⟨rfl, rfl, rfl⟩

/-- The object of a new header, as far as checkpoints and marks go. -/
theorem createBlockIndexFor_place (hprev : e.findPrev st.block.previousBlockId ≠ some new) :
    SameMark { freeMemory with phashBlock := st.blockId, nHeight := e.placeHeight chain st }
      ((e.createBlockIndexFor chain s new st).index new) := by
  have hfr : SameMark { freeMemory with phashBlock := st.blockId, nHeight := -1 }
      ((e.newIndex s new st).index new) := by
    unfold newIndex
    rw [modifyState_index, modifyIndex_self]
    exact ⟨rfl, rfl, rfl⟩
  unfold createBlockIndexFor placeHeight
  cases hq : e.findPrev st.block.previousBlockId with
  | none =>
    split_ifs
    · rw [modifyState_index, modifyIndex_self]
      exact ⟨hfr.1, rfl, hfr.2.2⟩
    · exact hfr
  | some q =>
    have hne : q ≠ new := fun heq => hprev (by rw [hq, heq])
    dsimp only
    rw [newIndex_of_ne hne]
    split_ifs
    · exact hfr
    · obtain ⟨skip, hconn⟩ := connect_eq (e.newIndex s new st) new q
      have hinh := inheritStatus_sameMark ((e.newIndex s new st).connect new q) s new q new
      rw [newIndex_of_ne hne] at hconn
      rw [hconn] at hinh ⊢
      rw [modifyIndex_self] at hinh
      exact ⟨hinh.1.trans hfr.1, hinh.2.1, hinh.2.2.trans hfr.2.2⟩

/-- Nothing is held against the header, nor would be against the one it gets an entry with. -/
structure GoodHeader (chain : ChainParams) (st : BlockValidationState) (fresh : IndexPtr)
    (e : Engine) : Prop where
  id : e.utxo.blockIdHasFailed st.blockId = false
  known : ∀ p, e.db.byHash st.blockId = some p →
    (e p).failed = false ∧ checkpointMismatch chain (e p) = false
  parent : e.parentFailed st.block.previousBlockId = false
  checkpoint : e.db.byHash st.blockId = none →
    checkpointMismatch chain
      { freeMemory with phashBlock := st.blockId, nHeight := e.placeHeight chain st } = false
  orphans : ∀ o ∈ e.orphanBlocks, ∀ p, e.objectOf o = some p → p ≠ fresh ∧
    e.db.byHash st.blockId ≠ some p

theorem GoodHeader.unmarked (h : GoodHeader chain st new e) : Unmarked st.blockId e := fun q hq => by
  have hfl := (h.known q hq).1
  rw [BlockIndex.failed, Bool.or_eq_false_iff] at hfl
  exact hfl.1

theorem release_unmarked (h : Unmarked id e) (s : StateId) (new : IndexPtr) :
    Unmarked id (e.release s new) := by
  unfold release
  split_ifs
  · exact h
  · intro q hq
    by_cases hqf : q = new
    · subst hqf
      simp only [index, modify_self]
      rfl
    · simp only [index, modify_of_ne _ _ hqf]
      exact h q hq
  · exact h

theorem objectOf_of_forget {t : StateId} (h : e'.forget s new = e.forget s new) (ht : t ≠ s) :
    e'.objectOf t = e.objectOf t := by
  have hsts : (e'.states t).map (dropChild s) = (e.states t).map (dropChild s) := by
    have hat := congrArg (fun e => e.states t) h
    simpa only [forget, if_neg ht] using hat
  have hobj (x : Option BlockValidationState) : (x.map (dropChild s)).bind blockIndex =
      x.bind blockIndex := by
    cases x <;> rfl
  rw [objectOf, objectOf, ← hobj, hsts, hobj]

/-- The object that the entry has, or will have, is not an orphan's. -/
theorem GoodHeader.orphans_ne (h : GoodHeader chain st new e) (hv : e.Vacant s new)
    (hfg : e'.forget s new = e.forget s new) (hq : e.db.byHash st.blockId = some q ∨ q = new) :
    ∀ o ∈ e'.orphanBlocks, e'.objectOf o ≠ some q := by
  intro o ho hobj
  have horp : o ∈ e.orphanBlocks := by
    have horps : e'.orphanBlocks = e.orphanBlocks := congrArg (fun e => e.orphanBlocks) hfg
    rwa [← horps]
  have hne : o ≠ s := by
    rintro rfl
    have hdead := hv.dead
    simp [alive, horp] at hdead
  rw [objectOf_of_forget hfg hne] at hobj
  obtain ⟨hfr, hent⟩ := h.orphans o horp q hobj
  exact hq.elim hent hfr

theorem Vacant.entry_ne (h : e.Vacant s new) (hbg : e.beingValidated id = none) :
    e.db.byHash id ≠ some new := by
  intro hent
  refine h.found id ?_
  rw [findPrev, hbg, hent]

/-- A block that is not refused is not held against its header. -/
theorem receive_accepted {st' : BlockValidationState} {r : Engine × Verdict}
    (hck : st.checks1NoContext env data = st') (hst : Incoming st') (hv : e.Vacant s new)
    (hgood : GoodHeader chain st' new e) (hrun : e.receive ps chain env data st s new = .ok r) :
    r.1.utxo.rejectedBlocks = e.utxo.rejectedBlocks ∧ Unmarked st'.blockId r.1 := by
  rw [receive_of_checks1 hck, blockHeaderValidated_newState e s new hst.size] at hrun
  obtain ⟨r', hpl, rfl⟩ := Guards.map_eq_ok_iff.mp hrun
  rw [release_utxo]
  suffices h : r'.1.utxo.rejectedBlocks = e.utxo.rejectedBlocks ∧ Unmarked st'.blockId r'.1 from
    ⟨h.1, release_unmarked h.2 s new⟩
  by_cases hdown : e.shuttingDown
  · rw [if_pos hdown] at hpl
    cases hpl
    exact ⟨rfl, hgood.unmarked⟩
  rw [if_neg hdown, hst.invalid, if_neg (by decide)] at hpl
  cases hbg : e.beingValidated st'.blockId with
  | some t =>
    rw [hbg] at hpl
    cases hpl
    exact ⟨rfl, hgood.unmarked⟩
  | none =>
    rw [hbg] at hpl
    have hent := hv.entry_ne hbg
    have hkept {e1 : Engine} {q : IndexPtr} (hfg : e1.forget s new = e.forget s new)
        (hq : e.db.byHash st'.blockId = some q) : Kept chain st'.blockId q e1 := by
      have hne : q ≠ new := fun heq => hent (heq ▸ hq)
      have hsame := (eq_of_forget_eq hfg).1 q hne
      have hhash : e1.db.byHash = e.db.byHash := congrArg (fun e => e.db.byHash) hfg
      exact ⟨by rw [hhash, hq], by rw [hsame]; exact hgood.unmarked q hq, by rw [hsame]; exact (hgood.known q hq).2⟩
    cases hkn : (if st'.checkMerkleRoot then e.db.byHash st'.blockId else none) with
    | some p =>
      have hp : e.db.byHash st'.blockId = some p := by
        split_ifs at hkn
        exact hkn
      rw [hkn] at hpl
      dsimp only at hpl
      rw [(hgood.known p hp).1, if_neg (by decide)] at hpl
      by_cases hon : e.onBlockchain p
      · rw [if_pos hon] at hpl
        cases hpl
        exact ⟨rfl, hgood.unmarked⟩
      rw [if_neg hon] at hpl
      obtain ⟨hfg, hdb, hutxo, -⟩ := recognised_spec hv st' p
      have hfg' := hfg.trans hv.forget.symm
      have hok : (false || ((e.recognised s st' p).index p).failed) = false := by
        rw [Bool.false_or, index, hdb]
        exact (hgood.known p hp).1
      exact ⟨by rw [(placeBlock_accepted hok hpl).1, hutxo],
        placeBlock_unmarked hok (.inl (hkept hfg' hp)) (hgood.orphans_ne hv hfg' (.inl hp)) hpl⟩
    | none =>
      rw [hkn] at hpl
      have hprev : (e.newState s st').findPrev st'.block.previousBlockId ≠ some new :=
        hv.newState_findPrev st' st'.block.previousBlockId ▸ hv.found _
      obtain ⟨hfl, st1, hs1, hmade⟩ := createBlockIndexFor_spec (newState_self e s st')
        (fun t ht => hv.ne_beingValidated ht) hprev
      have hpld : SameMark _ (((e.newState s st').createBlockIndexFor chain s new st').index new) :=
        createBlockIndexFor_place hprev
      have hfg : ((e.newState s st').createBlockIndexFor chain s new st').forget s new =
          e.forget s new := by simp
      rw [hv.newState_parentFailed, hgood.parent] at hfl
      have hht : (e.newState s st').placeHeight chain st' = e.placeHeight chain st' := by
        unfold placeHeight
        rw [hv.newState_findPrev]
        rfl
      rw [hht] at hpld
      have hok : (false ||
          (((e.newState s st').createBlockIndexFor chain s new st').index new).failed) = false := by
        rw [hfl, Bool.false_or]
      refine ⟨by rw [(placeBlock_accepted hok hpl).1, (eq_of_forget_eq hfg).2.2.1], ?_⟩
      cases hq : e.db.byHash st'.blockId with
      | some q => exact placeBlock_unmarked hok (.inl (hkept hfg hq)) (hgood.orphans_ne hv hfg (.inl hq)) hpl
      | none =>
        have hnone : ((e.newState s st').createBlockIndexFor chain s new st').db.byHash
            st'.blockId = none :=
          (congrArg (fun e => e.db.byHash st'.blockId) hfg).trans hq
        refine placeBlock_unmarked hok (.inr ?_) (hgood.orphans_ne hv hfg (.inr rfl)) hpl
        cases honly : st'.checkValidityOnly with
        | true => exact .inr ⟨hnone, rfl, st1, hs1, hmade.validityOnly.trans honly⟩
        | false => exact .inl ⟨hnone, hpld.1, hpld.checkpoint.trans (hgood.checkpoint hq), st1, hs1,
            hmade.blockIndex, hmade.blockId, hmade.ownsIndex, hmade.validityOnly.trans honly⟩

/-! ### The same header with another body -/

/-- The id is not among the failed ones and its entry is not marked. -/
structure NotCondemned (id : Uint256) (e : Engine) : Prop where
  notFailed : e.utxo.blockIdHasFailed id = false
  unmarked : Unmarked id e

/-- What was refused has left nothing behind. -/
def LeavesNothing (env : Checks1Env) (data : Bytes) (st : BlockValidationState) (e e' : Engine) : Prop :=
  st.checks1 env data ≠ .ok () → e' = e

/-- The body is taken up, and what the later stages make of it is held against the header. -/
structure GoesOn (env : Checks1Env) (e : Engine) (st : BlockValidationState) (h c : Bytes) : Prop where
  accepted : st.checks1 env (h ++ c) = .ok ()
  running : e.shuttingDown = false
  kept : st.checkValidityOnly = false
  root : st.checkMerkleRoot = true
  pending : ∀ p, e.db.byHash st.blockId = some p → e.onBlockchain p = false
  body : c ≠ []

/-- The header is not held to account, a body that was refused has left nothing behind, and one that
goes on is read as it was checked. -/
structure Harmless (env : Checks1Env) (e : Engine) (st : BlockValidationState) (h c : Bytes)
    (e' : Engine) : Prop where
  notCondemned : NotCondemned st.blockId e'
  leavesNothing : LeavesNothing env (h ++ c) st e e'
  readOn : GoesOn env e st h c → ReadOn env.hash256 (h ++ c)

/-- The body is not held against the header. -/
def Spared (env : Checks1Env) (e : Engine) (st : BlockValidationState) (h c : Bytes) : Prop :=
  e.shuttingDown = true ∨ st.checkValidityOnly = true ∨ st.checkMerkleRoot = false ∨
    (∃ p, e.db.byHash st.blockId = some p ∧ e.onBlockchain p = true) ∨ c = [] ∨ BodySpared env (h ++ c)

/-- A failure of the body is blamed on the header. -/
def Blaming (e : Engine) (st : BlockValidationState) (t : Thrown) : Prop :=
  e.shuttingDown = false ∧ st.checkValidityOnly = false ∧ st.checkMerkleRoot = true ∧
    t.corruptionPossible = false

theorem setFailedBlockId_failed (db : UnspentOutputDatabase) (id : Uint256) :
    (db.setFailedBlockId id).blockIdHasFailed id = true := blockIdHasFailed_iff.mpr mem_insert_self

section Refused

variable {t : Thrown} {punishment : ℕ} {error : String} {code : RejectCode}
  (hgood : GoodHeader chain st new e)

include hgood

/-- A refused block with a good header leaves at most the id of a header without an entry. -/
theorem afterRefusal_new (hblm : Blaming e st t) (hnew : e.db.byHash st.blockId = none) :
    e.afterRefusal (st.blockFailed punishment error code t.corruptionPossible) =
      { e with utxo := e.utxo.setFailedBlockId st.blockId } := by
  obtain ⟨hdown, honly, hmk, hcor⟩ := hblm
  have hpar := hgood.parent
  simp [afterRefusal, refused, blockFailed, hdown, hmk, hnew, honly, hcor, hpar]

theorem afterRefusal_same (h : Blaming e st t → (e.db.byHash st.blockId).isSome) :
    e.afterRefusal (st.blockFailed punishment error code t.corruptionPossible) = e := by
  have hpar := hgood.parent
  by_cases hdown : e.shuttingDown
  · simp [afterRefusal, hdown]
  by_cases hmk : st.checkMerkleRoot
  · cases hkn : e.db.byHash st.blockId with
    | some p => simp [afterRefusal, blockFailed, hdown, hmk, hkn]
    | none =>
      have hno : ¬ Blaming e st t := fun hblm => by simpa [hkn] using h hblm
      have href : e.refused (st.blockFailed punishment error code t.corruptionPossible) = e := by
        refine if_neg ?_
        simp only [blockFailed, hpar, Bool.not_false, Bool.true_and, Bool.and_eq_true, Bool.not_eq_true']
        exact fun hall => hno ⟨Bool.eq_false_of_not_eq_true hdown, hall.1.1, hmk, hall.2⟩
      unfold afterRefusal
      rw [if_neg hdown, href]
      split <;> rfl
  · simp [afterRefusal, refused, blockFailed, hdown, hmk]

end Refused

section Body

variable {h b c : Bytes} {r : Engine × Verdict} (hlen : h.length = 80)
  (hok : st.checks1 env (h ++ b) = .ok ()) (hchecked : st.checkTransactionValidity = true)

include hlen hok hchecked

/-- If the body fails, what it is not blamed for is what the condition says. -/
theorem spared_iff {t : Thrown} (hfls : st.checks1 env (h ++ c) = .error t) :
    Spared env e st h c ↔ ¬ Blaming e st t ∨ ∃ p, e.db.byHash st.blockId = some p ∧
      e.onBlockchain p := by
  rw [checks1_append hlen hok] at hfls
  have hne : c ≠ [] := by
    rintro rfl
    rw [if_neg fun hfull => hfull.1 rfl] at hfls
    cases hfls
  rw [if_pos ⟨hne, hchecked⟩] at hfls
  unfold Spared Blaming
  cases hmk : st.checkMerkleRoot with
  | false => simp
  | true =>
    rw [hmk] at hfls
    rw [bodySpared_refused hfls]
    cases e.shuttingDown <;> cases st.checkValidityOnly <;> cases t.corruptionPossible <;> simp [hne]

/-- A body that is accepted is spared if it does not go on, or is read as it was checked. -/
theorem spared_accepted (hsize : (h ++ c).length < 2 ^ 31) (hck : st.checks1 env (h ++ c) = .ok ()) :
    Spared env e st h c ↔ (GoesOn env e st h c → ReadOn env.hash256 (h ++ c)) := by
  by_cases hgo : GoesOn env e st h c
  · have hbody : checkBody env true (h ++ c) = .ok () := by
      rwa [checks1_append hlen hok, if_pos ⟨hgo.body, hchecked⟩, hgo.root] at hck
    have hon : ¬ ∃ p, e.db.byHash st.blockId = some p ∧ e.onBlockchain p = true := by
      rintro ⟨p, hp, hon⟩
      cases hon.symm.trans (hgo.pending p hp)
    rw [Spared, bodySpared_accepted hsize hbody]
    simp [hgo, hgo.running, hgo.kept, hgo.root, hgo.body, hon]
  · refine iff_of_true ?_ fun h => absurd h hgo
    by_contra hspared
    simp only [Spared, not_or, not_exists, not_and] at hspared
    obtain ⟨hdown, honly, hmk, hon, hc, -⟩ := hspared
    exact hgo ⟨hck, Bool.eq_false_of_not_eq_true hdown, Bool.eq_false_of_not_eq_true honly,
      Bool.eq_true_of_not_eq_false hmk, fun p hp => Bool.eq_false_of_not_eq_true (hon p hp), hc⟩

variable (hst : Incoming st) (hv : e.Vacant s new) (hgood : GoodHeader chain st new e)
  (hrun : e.receive ps chain env (h ++ c) st s new = .ok r)

include hst hv hgood hrun

theorem damagedBody_accepted (hsize : (h ++ c).length < 2 ^ 31)
    (hck : st.checks1 env (h ++ c) = .ok ()) :
    Harmless env e st h c r.1 ↔ Spared env e st h c := by
  have hck' : st.checks1NoContext env (h ++ c) =
      { st with status := { st.status with validHeader := true } } := by
    rw [checks1NoContext, hck]
  have hgood' : GoodHeader chain { st with status := { st.status with validHeader := true } } new e :=
    ⟨hgood.id, hgood.known, hgood.parent, hgood.checkpoint, hgood.orphans⟩
  obtain ⟨hrej, hunm⟩ := receive_accepted hck' ⟨hst.size, hst.children, hst.invalid, hst.ownsIndex⟩
    hv hgood' hrun
  have hid : r.1.utxo.blockIdHasFailed st.blockId = false := by
    rw [UnspentOutputDatabase.blockIdHasFailed, hrej]
    exact hgood.id
  rw [spared_accepted hlen hok hchecked hsize hck]
  exact ⟨Harmless.readOn, fun hread => ⟨⟨hid, hunm⟩, fun hno => absurd hck hno, hread⟩⟩

theorem damagedBody_refused {t : Thrown} (hck : st.checks1 env (h ++ c) = .error t) :
    Harmless env e st h c r.1 ↔ Spared env e st h c := by
  rw [spared_iff hlen hok hchecked hck]
  obtain ⟨punishment, error, code, hfl⟩ : ∃ punishment error code,
      st.failedBy .rejectInternal t = st.blockFailed punishment error code t.corruptionPossible := by
    cases t <;> exact ⟨_, _, _, rfl⟩
  have hck' : st.checks1NoContext env (h ++ c) = st.blockFailed punishment error code
      t.corruptionPossible := by
    rw [checks1NoContext, hck, ← hfl]
  have hsty (hbl : ¬ e.Blamed (st.blockFailed punishment error code t.corruptionPossible)) :
      r.1 = e.afterRefusal (st.blockFailed punishment error code t.corruptionPossible) := by
    obtain ⟨v, hv'⟩ := receive_refused hck' hst.size hst.children rfl hv ps chain hbl
    rw [hv'] at hrun
    cases hrun
    rfl
  have hbld (hbl : e.Blamed (st.blockFailed punishment error code t.corruptionPossible)) : Blaming e
      st t := by
    obtain ⟨hdown, hflg, -⟩ := hbl
    simp only [blockFailed, Bool.and_eq_true, Bool.not_eq_true'] at hflg
    exact ⟨hdown, hflg.1.1, hflg.1.2, hflg.2⟩
  have hharmless (hsame : r.1 = e) : Harmless env e st h c r.1 :=
    ⟨by rw [hsame]; exact ⟨hgood.id, hgood.unmarked⟩, fun _ => hsame,
      fun hgo => by cases hck.symm.trans hgo.accepted⟩
  by_cases hblm : Blaming e st t
  · rw [or_iff_right (not_not.mpr hblm)]
    cases hkn : e.db.byHash st.blockId with
    | none =>
      have hadd : r.1 = { e with utxo := e.utxo.setFailedBlockId st.blockId } := by
        rw [hsty, afterRefusal_new hgood hblm hkn]
        rintro ⟨-, -, p, hp, -⟩
        cases hkn.symm.trans hp
      refine iff_of_false (fun hall => ?_) (by rintro ⟨p, hp, -⟩; cases hp)
      have hid := hall.notCondemned.notFailed
      rw [hadd, setFailedBlockId_failed] at hid
      cases hid
    | some p =>
      cases hon : e.onBlockchain p with
      | true =>
        refine iff_of_true (hharmless ?_) ⟨p, rfl, hon⟩
        rw [hsty, afterRefusal_same hgood fun _ => by rw [hkn]; rfl]
        rintro ⟨-, -, q, hq, -, hoff⟩
        cases hkn.symm.trans hq
        cases hon.symm.trans hoff
      | false =>
        have hbl : e.Blamed (st.blockFailed punishment error code t.corruptionPossible) := by
          obtain ⟨hdown, honly, hmk, hcor⟩ := hblm
          exact ⟨hdown, by simp [blockFailed, honly, hmk, hcor], p, hkn, (hgood.known p hkn).1, hon⟩
        obtain ⟨-, hid, -⟩ := receive_blamed hck' hst.size hst.children rfl hv hbl hkn hrun
        refine iff_of_false (fun hall => ?_) ?_
        · have hid' := hall.notCondemned.notFailed
          cases hid.symm.trans hid'
        · rintro ⟨q, hq, hon'⟩
          obtain rfl : p = q := some_inj.mp hq
          cases hon.symm.trans hon'
  · refine iff_of_true (hharmless ?_) (.inl hblm)
    rw [hsty fun hbl => hblm (hbld hbl), afterRefusal_same hgood fun h => absurd h hblm]

end Body

/-! A block with one transaction, on top of the genesis block. -/

def sampleDamagedHeader : Bytes := (⟨1, 1, 100, 0, 0, 0⟩ : BlockHeader).write

def sampleBody (n : ℕ) : Bytes := writeVector RawTx.write (.ofList (replicate n sampleRawCoinbase))

def sampleDamagedEnv : Checks1Env := ⟨fun _ => 100, fun _ _ => true, 0, 144⟩

variable (size : ℕ)

def sampleDamagedState : BlockValidationState where
  block := { blockId := 100, previousBlockId := 1, size := size, transactions := [], walk := [] }
  blockId := 100

theorem sampleBody_accepted :
    (sampleDamagedState size).checks1 sampleDamagedEnv (sampleDamagedHeader ++ sampleBody 1) = .ok () :=
  (by decide +kernel : (sampleDamagedState 0).checks1 sampleDamagedEnv (sampleDamagedHeader ++ sampleBody 1) = .ok ())

theorem sampleBody_tooLarge : (sampleDamagedState 145).checks1 sampleDamagedEnv
      (sampleDamagedHeader ++ (sampleBody 1 ++ [0])) =
    .error (.exception (.rejected "bad-blk-length" .rejectExceedsLimit 0)) := by decide +kernel

/-- The block with two bytes behind it, as the stage that adds the outputs leaves it. -/
def sampleReadOn : Except String BlockValidationState :=
  (fastBlock sampleDamagedEnv.hash256 (sampleDamagedHeader ++ (sampleBody 1 ++ [0, 0]))).map fun block =>
    ({ sampleDamagedState 146 with block := block }.updateUtxoAndStartValidation 1 false ⟨1, 1⟩
      (sampleGenesis []).utxo).2.1

theorem sampleBody_twice :
    (sampleDamagedState size).checks1 sampleDamagedEnv (sampleDamagedHeader ++ sampleBody 2) =
      .error (.exception (.invalidNotFatal "bad-txns-duplicate")) :=
  (by decide +kernel : (sampleDamagedState 0).checks1 sampleDamagedEnv (sampleDamagedHeader ++ sampleBody 2) =
    .error (.exception (.invalidNotFatal "bad-txns-duplicate")))

theorem sampleGenesis_good :
    GoodHeader sampleClockChain (sampleDamagedState size) 1 (sampleGenesis []) where
  id := rfl
  known p hp := by
    change (if (100 : Uint256) = 1 then some 0 else none) = some p at hp
    cases hp
  parent := rfl
  checkpoint _ := rfl
  orphans _ ho := nomatch ho

end Engine

end FloweeHub.Validation
