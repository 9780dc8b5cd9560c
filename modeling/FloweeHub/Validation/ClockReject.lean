import FloweeHub.Chain.CacheAllBlockInfos
import FloweeHub.Validation.Atomicity
import FloweeHub.Validation.Receive

/-! A block more than two hours ahead of the clock is refused with `time-too-new`, and the refusal
is recorded like any other: the id is remembered, and a header that is known is marked. Proved is
when the same block is accepted later. -/

namespace FloweeHub.Validation

open Lib BlockValidationState List Option

/-- What can be seen of an arrival: the verdict, the failed ids and the headers that are marked. -/
structure Outcome where
  verdict : Verdict
  failedIds : Uint256 → Bool
  failedHeaders : Uint256 → Bool

namespace Engine

open IndexHeap

variable {e e' : Engine} {s : StateId} {new : IndexPtr} {st : BlockValidationState} {ps : Params}
  {chain : ChainParams} {env : Checks1Env} {data : Bytes} {rows : List DiskBlockIndex}
  {order : List IndexPtr} {r : Engine × Verdict} {failed : List Uint256}

def failedHeader (e : Engine) (id : Uint256) : Bool := (e.db.byHash id).any fun p => (e p).failed

def outcome (r : Engine × Verdict) : Outcome := ⟨r.2, r.1.utxo.blockIdHasFailed, r.1.failedHeader⟩

/-- The index is made from the rows on disk and the failed ids; what was not settled is lost. -/
def restart (rows : List DiskBlockIndex) (order : List IndexPtr) (e : Engine) : Engine where
  db := BlocksDB.CacheAllBlockInfos rows e.utxo order
  blocks p := (rows[p]?.bind fun row => e.db.byHash row.hash).bind e.blocks
  undoBlocks p := (rows[p]?.bind fun row => e.db.byHash row.hash).bind e.undoBlocks
  utxo := { e.utxo with working := e.utxo.committed, pending := [] }
  blockchain := rows.findIdx? fun row => row.hash = e.utxo.blockId
  tip := rows.findIdx? fun row => row.hash = e.utxo.blockId
  tipFlags := e.tipFlags
  states _ := none
  nextState := 0
  blocksBeingValidated := []
  orphanBlocks := []
  chainTipChildren := []
  lastFullBlockScheduled := -1
  fetchFeeForMetaBlocks := e.fetchFeeForMetaBlocks
  jobs := []
  shuttingDown := false

/-- The block arrives while the clock shows `time`. -/
def receiveAt (params : Params) (chain : ChainParams) (env : Checks1Env) (data : Bytes)
    (st : BlockValidationState) (s : StateId) (fresh : IndexPtr) (time : ℤ) (e : Engine) :
    Except String (Engine × Verdict) :=
  e.receive params chain { env with adjustedTime := time } data st s fresh

/-- Two arrivals with `between` between them have the outcome of the second one alone. -/
def Forgiven (params : Params) (chain : ChainParams) (env : Checks1Env) (data : Bytes)
    (st : BlockValidationState) (s : StateId) (fresh : IndexPtr) (t₁ t₂ : ℤ)
    (between : Engine → Engine) (e : Engine) : Prop :=
  ((e.receiveAt params chain env data st s fresh t₁).bind fun r =>
      (between r.1).receiveAt params chain env data st s fresh t₂).map outcome =
    ((between e).receiveAt params chain env data st s fresh t₂).map outcome

/-- The first refusal leaves nothing behind that the second arrival would not leave as well. -/
def ClockHarmless (e restarted : Engine) (st : BlockValidationState) : Prop :=
  e.shuttingDown = true ∨ st.checkValidityOnly = true ∨ st.checkMerkleRoot = false ∨
    match e.db.byHash st.blockId with
    | some p => (e p).failed = true ∨ e.onBlockchain p = true
    | none => e.utxo.blockIdHasFailed st.blockId = true ∨
        e.parentFailed st.block.previousBlockId = true ∧
          restarted.parentFailed st.block.previousBlockId = true

def addFailed (e : Engine) (id : Uint256) : Engine := { e with utxo := e.utxo.setFailedBlockId id }

theorem addFailed_of_failed {id : Uint256} (h : e.utxo.blockIdHasFailed id) : e.addFailed id = e := by
  have hins : e.utxo.rejectedBlocks.insert id = e.utxo.rejectedBlocks :=
    insert_of_mem (blockIdHasFailed_iff.mp h)
  unfold addFailed UnspentOutputDatabase.setFailedBlockId
  rw [hins]

theorem addFailed_failed (e : Engine) (id : Uint256) : (e.addFailed id).utxo.blockIdHasFailed id :=
  blockIdHasFailed_iff.mpr mem_insert_self

theorem Vacant.addFailed (h : e.Vacant s new) (id : Uint256) : (e.addFailed id).Vacant s new :=
  ⟨h.state, h.dead, h.child, h.memory, h.parent, h.tip, h.found⟩

theorem restart_addFailed {id : Uint256} (hrows : ∀ row ∈ rows, row.hash ≠ id) :
    (e.addFailed id).restart rows order = (e.restart rows order).addFailed id := by
  have hread : BlocksDB.readRows rows (e.addFailed id).utxo = BlocksDB.readRows rows e.utxo := by
    funext p
    unfold BlocksDB.readRows
    cases hrow : rows[p]? with
    | none => rfl
    | some row =>
      have hne := hrows row (mem_of_getElem? hrow)
      have hsame : (e.addFailed id).utxo.blockIdHasFailed row.hash =
          e.utxo.blockIdHasFailed row.hash := by
        rw [Bool.eq_iff_iff, blockIdHasFailed_iff, blockIdHasFailed_iff]
        exact (mem_insert_iff.trans (or_iff_right hne))
      dsimp only
      rw [hsame]
  have hdb : BlocksDB.CacheAllBlockInfos rows (e.addFailed id).utxo order =
      BlocksDB.CacheAllBlockInfos rows e.utxo order := by
    unfold BlocksDB.CacheAllBlockInfos BlocksDB.appendAll BlocksDB.beforeHeaders
    rw [hread]
  unfold restart
  rw [hdb]
  rfl

theorem restart_byHash (e : Engine) (id : Uint256) :
    (e.restart rows order).db.byHash id = rows.findIdx? fun r => r.hash = id := by
  have happ (l : List IndexPtr) (db : BlocksDB) :
      (l.foldl (fun db p => (db.appendHeader p).2) db).byHash = db.byHash := by
    induction l generalizing db with
    | nil => rfl
    | cons p l ih => exact (ih _).trans (BlocksDB.appendHeader_byHash ..)
  have hwork (l : List IndexPtr) (db : BlocksDB) : (l.foldl BlocksDB.tipWork db).byHash = db.byHash := by
    induction l generalizing db with
    | nil => rfl
    | cons p l ih => exact ih _
  unfold restart BlocksDB.CacheAllBlockInfos BlocksDB.appendAll BlocksDB.beforeHeaders
  rw [hwork, happ]

def tooNew (st : BlockValidationState) : BlockValidationState :=
  st.blockFailed 100 "time-too-new" .rejectInvalid false

def timely (st : BlockValidationState) : BlockValidationState :=
  { st with status := { st.status with validHeader := true } }

section Second

variable (hcheck : st.checks1NoContext env data = timely st) (hsize : ¬ st.block.size < 80)
  (hinvalid : st.status.invalid = false) (hdown : e.shuttingDown = false)

include hcheck hsize hinvalid hdown

theorem receive_timely (hbg : e.beingValidated st.blockId = none) :
    e.receive ps chain env data st s new =
      Except.map (fun r : Engine × String => (r.1.release s new, r.1.verdict s r.2))
        (match if st.checkMerkleRoot then e.db.byHash st.blockId else none with
        | some p =>
          if (e p).failed then
            .ok ((e.newState s (timely st)).modifyState s fun st =>
              { st with blockIndex := some p, ownsIndex := false },
              "Block failed previously, not rechecking")
          else if e.onBlockchain p then
            .ok ((e.newState s (timely st)).modifyState s fun st =>
              { st with blockIndex := some p, ownsIndex := false }, "")
          else (e.recognised s (timely st) p).placeBlock ps chain s false (timely st) p
        | none => ((e.newState s (timely st)).createBlockIndexFor chain s new (timely st)).placeBlock ps chain s false
            (timely st) new) := by
  have hsize' : ¬ (timely st).block.size < 80 := hsize
  have hval : (timely st).status.invalid = false := hinvalid
  have hbg' : e.beingValidated (timely st).blockId = none := hbg
  rw [receive_of_checks1 hcheck, blockHeaderValidated_newState e s new hsize', hdown, hval, hbg']
  rfl

theorem receive_badParent (hv : e.Vacant s new) (hch : st.chainChildren = [])
    (hbg : e.beingValidated st.blockId = none) (hnew : e.db.byHash st.blockId = none)
    (honly : st.checkValidityOnly = false) (hmk : st.checkMerkleRoot)
    (hpar : e.parentFailed st.block.previousBlockId) :
    e.receive ps chain env data st s new = .ok (e.addFailed st.blockId, ⟨"", "bad-parent", true⟩) := by
  have hch' : (timely st).chainChildren = [] := hch
  have hpar' : e.parentFailed (timely st).block.previousBlockId := hpar
  have hval : (timely st).status.invalid = false := hinvalid
  obtain ⟨r, hrun, hrel, hvd⟩ := placeBlock_refused ps chain hv hch' (by rw [hpar', Bool.or_true])
  have href : e.refused (timely st) = e.addFailed st.blockId := by
    unfold refused
    rw [hpar']
    simp only [timely, honly, hmk, Bool.not_false, Bool.not_true, Bool.and_self, Bool.false_and, if_true]
    rfl
  rw [hval] at hrun
  rw [receive_timely hcheck hsize hinvalid hdown hbg, hmk, if_pos rfl, hnew]
  rw [hrun]
  simp only [Except.map, hrel, hvd, hpar', if_true, href]

/-- A header that is new, with a parent that has not failed: no id is added. -/
theorem receive_goodParent (hv : e.Vacant s new)
    (hbg : e.beingValidated st.blockId = none) (hnew : e.db.byHash st.blockId = none)
    (hpar : e.parentFailed st.block.previousBlockId = false)
    (hrun : e.receive ps chain env data st s new = .ok r) :
    r.1.utxo.rejectedBlocks = e.utxo.rejectedBlocks := by
  rw [receive_timely hcheck hsize hinvalid hdown hbg, hnew, ite_self] at hrun
  obtain ⟨r', hpl, rfl⟩ := Guards.map_eq_ok_iff.mp hrun
  have hfl : (((e.newState s (timely st)).createBlockIndexFor chain s new (timely st)).index
      new).failed = false := by
    rw [(createBlockIndexFor_spec (newState_self e s (timely st)) (fun t ht => hv.ne_beingValidated ht)
      (hv.newState_findPrev (timely st) (timely st).block.previousBlockId ▸ hv.found _)).1,
        hv.newState_parentFailed]
    exact hpar
  have hfg : ((e.newState s (timely st)).createBlockIndexFor chain s new (timely st)).forget s new =
      e.forget s new := by simp
  have hok := placeBlock_accepted (by rw [hfl, Bool.false_or]) hpl
  rw [release_utxo, hok.1, (eq_of_forget_eq hfg).2.2.1]

end Second

theorem afterRefusal_tooNew (e : Engine) (st : BlockValidationState) : e.afterRefusal (tooNew st) =
      if e.shuttingDown = false ∧ st.checkValidityOnly = false ∧ st.checkMerkleRoot ∧
        e.db.byHash st.blockId = none then
        e.addFailed st.blockId else e := by
  have href : e.refused (tooNew st) =
      if !st.checkValidityOnly && st.checkMerkleRoot then e.addFailed st.blockId else e := by
    simp only [refused, tooNew, blockFailed, Bool.and_false, Bool.not_false, Bool.and_true]
    rfl
  have hmk : (tooNew st).checkMerkleRoot = st.checkMerkleRoot := rfl
  have hid : (tooNew st).blockId = st.blockId := rfl
  unfold afterRefusal
  rw [href, hmk, hid]
  by_cases hdown : e.shuttingDown
  · simp [hdown]
  · cases st.checkMerkleRoot with
    | false => simp
    | true => cases e.db.byHash st.blockId <;> simp [hdown]

/-! ### Both arrivals -/

/-- A block that is validated already: the second arrival changes nothing. -/
theorem receive_duplicate {t : StateId} (hcheck : st.checks1NoContext env data = timely st)
    (hst : Incoming st) (hdown : e.shuttingDown = false) (hbg : e.beingValidated st.blockId = some t)
    (hrun : e.receive ps chain env data st s new = .ok r) : r.1.failedHeader = e.failedHeader := by
  have hsize : ¬ (timely st).block.size < 80 := hst.size
  have hval : (timely st).status.invalid = false := hst.invalid
  have hbg' : e.beingValidated (timely st).blockId = some t := hbg
  rw [receive_of_checks1 hcheck, blockHeaderValidated_newState e s new hsize, hdown, hval, hbg'] at hrun
  cases hrun
  unfold failedHeader index
  rw [(release_db new ?_).1]
  · rfl
  · rw [modifyState_self, newState_self]
    exact hst.ownsIndex

theorem outcome_eq {x y : Except String (Engine × Verdict)} (h : x.map outcome = y.map outcome)
    (hy : y = .ok r) : ∃ r', x = .ok r' ∧ outcome r' = outcome r := by
  rw [hy] at h
  exact Guards.map_eq_ok_iff.mp h

/-- A known header that was marked is not looked at again. -/
theorem not_forgiven_blamed {p : IndexPtr} {t₁ t₂ : ℤ} {r₁ r₂ : Engine × Verdict}
    (hfirst : st.checks1NoContext { env with adjustedTime := t₁ } data = tooNew st)
    (hsecond : st.checks1NoContext { env with adjustedTime := t₂ } data = timely st)
    (hst : Incoming st) (hv : e.Vacant s new) (hbl : e.Blamed (tooNew st))
    (hp : e.db.byHash st.blockId = some p) (hrun₁ : e.receiveAt ps chain env data st s new t₁ = .ok r₁)
    (hrun₂ : e.receiveAt ps chain env data st s new t₂ = .ok r₂) :
    ¬ Forgiven ps chain env data st s new t₁ t₂ id e := by
  intro hfgv
  unfold Forgiven at hfgv
  rw [hrun₁] at hfgv
  obtain ⟨r, hrun, hout⟩ := outcome_eq hfgv hrun₂
  have hsize : ¬ (tooNew st).block.size < 80 := hst.size
  have hch : (tooNew st).chainChildren = [] := hst.children
  obtain ⟨hmark, -, hhash, hbg, hdown₁⟩ := receive_blamed hfirst hsize hch rfl hv hbl hp hrun₁
  obtain ⟨hdown, hflg, q, hq, hfl, hon⟩ := hbl
  obtain rfl : q = p := some_inj.mp (hq.symm.trans hp)
  have hmk : st.checkMerkleRoot := by
    rw [Bool.and_eq_true_iff, Bool.and_eq_true_iff] at hflg
    exact hflg.1.2
  have hmark₁ : (r₁.1.index q).failed := by rw [BlockIndex.failed, hmark, Bool.true_or]
  cases hb : e.beingValidated st.blockId with
  | some t =>
    have hb₁ : r₁.1.beingValidated st.blockId = some t := by rw [beingValidated, hbg]; exact hb
    have hsame := receive_duplicate hsecond hst hdown₁ hb₁ hrun
    have hsame₂ := receive_duplicate hsecond hst hdown hb hrun₂
    have hmks : r.1.failedHeader st.blockId = r₂.1.failedHeader st.blockId :=
      congrArg (fun o => o.failedHeaders st.blockId) hout
    rw [hsame, hsame₂, failedHeader, failedHeader, hhash, hp, any_some, any_some, hmark₁, hfl] at hmks
    cases hmks
  | none =>
    have hb₁ : r₁.1.beingValidated st.blockId = none := by rw [beingValidated, hbg]; exact hb
    have htold : r.2.told = r₂.2.told := congrArg (fun o => o.verdict.told) hout
    have hrun' := (receive_timely hsecond hst.size hst.invalid hdown₁ hb₁).symm.trans hrun
    rw [hmk, if_pos rfl, hhash, hp] at hrun'
    dsimp only at hrun'
    rw [if_pos hmark₁] at hrun'
    have hrun₂' := (receive_timely hsecond hst.size hst.invalid hdown hb).symm.trans hrun₂
    rw [hmk, if_pos rfl, hp] at hrun₂'
    dsimp only at hrun₂'
    rw [if_neg (by simp [hfl]), if_neg (by simp [hon])] at hrun₂'
    obtain ⟨r', hpl, rfl⟩ := Guards.map_eq_ok_iff.mp hrun₂'
    cases hrun'
    have hok : (false || ((e.recognised s (timely st) q).index q).failed) = false := by
      rw [Bool.false_or, index, (recognised_spec hv (timely st) q).2.1]
      exact hfl
    dsimp only at htold
    rw [verdict_told, verdict_told] at htold
    rcases (placeBlock_accepted hok hpl).2 with hnone | hpt
    · rw [hnone] at htold
      exact absurd htold (by decide)
    · rw [hpt] at htold
      exact absurd htold (by decide)

/-- An engine that does not know the header, and what it is after the first refusal. -/
structure Between (between : Engine → Engine) (e : Engine) (st : BlockValidationState) (s : StateId)
    (fresh : IndexPtr) :
    Prop where
  added : between (e.addFailed st.blockId) = (between e).addFailed st.blockId
  vacant : (between e).Vacant s fresh
  running : (between e).shuttingDown = false
  being : (between e).beingValidated st.blockId = none
  new : (between e).db.byHash st.blockId = none

section Between

variable {t₁ t₂ : ℤ} {v : Verdict} {between : Engine → Engine}
  (hfirst : e.receiveAt ps chain env data st s new t₁ = .ok (e.addFailed st.blockId, v))
  (hsecond : st.checks1NoContext { env with adjustedTime := t₂ } data = timely st)
  (hst : Incoming st) (hb : Between between e st s new)

include hfirst hsecond hst hb

theorem forgiven_badParent (honly : st.checkValidityOnly = false) (hmk : st.checkMerkleRoot)
    (hpar : (between e).parentFailed st.block.previousBlockId) :
    Forgiven ps chain env data st s new t₁ t₂ between e := by
  have hagain : ((between e).addFailed st.blockId).addFailed st.blockId =
      (between e).addFailed st.blockId :=
    addFailed_of_failed (addFailed_failed _ _)
  have hpar' : ((between e).addFailed st.blockId).parentFailed st.block.previousBlockId := hpar
  have hrunning' : ((between e).addFailed st.blockId).shuttingDown = false := hb.running
  have hbad : (between e).receiveAt ps chain env data st s new t₂ = .ok _ :=
    receive_badParent hsecond hst.size
    hst.invalid hb.running hb.vacant hst.children hb.being hb.new honly hmk hpar
  have hbad' : ((between e).addFailed st.blockId).receiveAt ps chain env data st s new t₂ = .ok _ :=
    receive_badParent hsecond hst.size hst.invalid hrunning' (hb.vacant.addFailed st.blockId)
      hst.children hb.being
      hb.new honly hmk hpar'
  rw [hagain] at hbad'
  rw [Forgiven, hfirst, hbad]
  show ((between (e.addFailed st.blockId)).receiveAt _ _ _ _ _ _ _ _).map outcome = _
  rw [hb.added, hbad']

/-- The id stays among the failed ones, where a single arrival would not have put it. -/
theorem not_forgiven_goodParent (hid : (between e).utxo.blockIdHasFailed st.blockId = false)
    (hpar : (between e).parentFailed st.block.previousBlockId = false)
    (hrun : (between e).receiveAt ps chain env data st s new t₂ = .ok r) :
    ¬ Forgiven ps chain env data st s new t₁ t₂ between e := by
  intro hfgv
  rw [Forgiven, hfirst] at hfgv
  obtain ⟨r', hrun', hout⟩ := outcome_eq hfgv hrun
  have hids : r'.1.utxo.blockIdHasFailed st.blockId = r.1.utxo.blockIdHasFailed st.blockId :=
    congrArg (fun o => o.failedIds st.blockId) hout
  change (between (e.addFailed st.blockId)).receiveAt _ _ _ _ _ _ _ _ = _ at hrun'
  rw [hb.added] at hrun'
  have hpar' : ((between e).addFailed st.blockId).parentFailed st.block.previousBlockId = false := hpar
  have hkept := receive_goodParent hsecond hst.size hst.invalid hb.running hb.vacant hb.being hb.new
    hpar hrun
  have hrunning' : ((between e).addFailed st.blockId).shuttingDown = false := hb.running
  have hkept' := receive_goodParent hsecond hst.size hst.invalid hrunning'
    (hb.vacant.addFailed st.blockId) hb.being
    hb.new hpar' hrun'
  rw [UnspentOutputDatabase.blockIdHasFailed, UnspentOutputDatabase.blockIdHasFailed, hkept,
    hkept'] at hids
  rw [← Bool.not_eq_true] at hid
  exact hid (hids.symm.trans (addFailed_failed (between e) st.blockId))

end Between

/-! ### The clock -/

/-- The time is the only thing that is wrong with the block, and only at first. -/
structure TooNew (env : Checks1Env) (data : Bytes) (st : BlockValidationState) (t₁ t₂ : ℤ) : Prop where
  first : st.checks1 { env with adjustedTime := t₁ } data = throwInvalid "time-too-new"
  second : st.checks1 { env with adjustedTime := t₂ } data = .ok ()

theorem TooNew.tooNew {t₁ t₂ : ℤ} (h : TooNew env data st t₁ t₂) :
    st.checks1NoContext { env with adjustedTime := t₁ } data = tooNew st := by
  rw [checks1NoContext, h.first]
  rfl

theorem TooNew.timely {t₁ t₂ : ℤ} (h : TooNew env data st t₁ t₂) :
    st.checks1NoContext { env with adjustedTime := t₂ } data = timely st := by
  rw [checks1NoContext, h.second]
  rfl

section Clock

variable {t₁ t₂ : ℤ} (htime : TooNew env data st t₁ t₂) (hst : Incoming st) (hv : e.Vacant s new)

include htime hst hv

/-- A header that is new and not among the failed ones: its id is added at the first arrival. -/
theorem clock_forgiven_new_iff (hrv : (e.restart rows order).Vacant s new)
    (hdown : e.shuttingDown = false) (honly : st.checkValidityOnly = false) (hmk : st.checkMerkleRoot)
    (hbg : e.beingValidated st.blockId = none) (hnew : e.db.byHash st.blockId = none)
    (hrows : ∀ row ∈ rows, (e.db.byHash row.hash).isSome)
    (hid : e.utxo.blockIdHasFailed st.blockId = false) {v : Verdict}
    (hrun₁ : e.receiveAt ps chain env data st s new t₁ = .ok (e.addFailed st.blockId, v))
    (hrun₂ : ∃ r, e.receiveAt ps chain env data st s new t₂ = .ok r)
    (hrun₃ : ∃ r, (e.restart rows order).receiveAt ps chain env data st s new t₂ = .ok r) :
    Forgiven ps chain env data st s new t₁ t₂ id e ∧
        Forgiven ps chain env data st s new t₁ t₂ (restart rows order) e ↔
      e.parentFailed st.block.previousBlockId = true ∧
        (e.restart rows order).parentFailed st.block.previousBlockId := by
  have hnorow : ∀ row ∈ rows, row.hash ≠ st.blockId := fun row hrow heq => by
    have := hrows row hrow
    rw [heq, hnew] at this
    cases this
  have hhere : Between id e st s new := ⟨rfl, hv, hdown, hbg, hnew⟩
  have hthere : Between (restart rows order) e st s new := by
    refine ⟨restart_addFailed hnorow, hrv, rfl, rfl, ?_⟩
    rw [restart_byHash, findIdx?_eq_none_iff]
    exact fun row hrow => decide_eq_false (hnorow row hrow)
  constructor
  · rintro ⟨hid₁, hre⟩
    constructor
    · by_contra hpar
      obtain ⟨r, hrun⟩ := hrun₂
      exact not_forgiven_goodParent hrun₁ htime.timely hst hhere hid
        (Bool.eq_false_of_not_eq_true hpar) hrun hid₁
    · by_contra hpar
      obtain ⟨r, hrun⟩ := hrun₃
      exact not_forgiven_goodParent hrun₁ htime.timely hst hthere hid
        (Bool.eq_false_of_not_eq_true hpar) hrun hre
  · rintro ⟨hpar, hpar'⟩
    exact ⟨forgiven_badParent hrun₁ htime.timely hst hhere honly hmk hpar,
      forgiven_badParent hrun₁ htime.timely hst hthere honly hmk hpar'⟩

/-- The refusal is forgotten exactly when it was harmless. -/
theorem clock_forgiven_iff (hrv : (e.restart rows order).Vacant s new)
    (hregistered : (e.beingValidated st.blockId).isSome → (e.db.byHash st.blockId).isSome)
    (hrows : ∀ row ∈ rows, (e.db.byHash row.hash).isSome)
    (hrun₁ : ∃ r, e.receiveAt ps chain env data st s new t₁ = .ok r)
    (hrun₂ : ∃ r, e.receiveAt ps chain env data st s new t₂ = .ok r)
    (hrun₃ : ∃ r, (e.restart rows order).receiveAt ps chain env data st s new t₂ = .ok r) :
    Forgiven ps chain env data st s new t₁ t₂ id e ∧
        Forgiven ps chain env data st s new t₁ t₂ (restart rows order) e ↔
      ClockHarmless e (e.restart rows order) st := by
  have hsame {v : Verdict} (hfirst : e.receiveAt ps chain env data st s new t₁ = .ok (e, v)) :
      Forgiven ps chain env data st s new t₁ t₂ id e ∧
        Forgiven ps chain env data st s new t₁ t₂ (restart rows order) e := by
    unfold Forgiven
    rw [hfirst]
    exact ⟨rfl, rfl⟩
  unfold ClockHarmless
  by_cases hbl : e.Blamed (tooNew st)
  · obtain ⟨hdown, hflg, p, hp, hfl, hon⟩ := id hbl
    obtain ⟨r₁, hr₁⟩ := hrun₁
    obtain ⟨r₂, hr₂⟩ := hrun₂
    refine iff_of_false (fun h => not_forgiven_blamed htime.tooNew htime.timely hst hv hbl hp hr₁
      hr₂ h.1) ?_
    have hflg' : st.checkValidityOnly = false ∧ st.checkMerkleRoot = true := by
      simpa [tooNew, blockFailed] using hflg
    have hp' : e.db.byHash st.blockId = some p := hp
    rw [hp']
    simp [hdown, hflg', hfl, hon]
  · obtain ⟨v, hfirst⟩ := receive_refused htime.tooNew
      (show ¬ (tooNew st).block.size < 80 from hst.size) hst.children rfl hv
      ps chain hbl
    rw [afterRefusal_tooNew] at hfirst
    split_ifs at hfirst with hleft
    · obtain ⟨hdown, honly, hmk, hnew⟩ := hleft
      have hbg : e.beingValidated st.blockId = none := by
        rw [← not_isSome_iff_eq_none]
        intro h
        simpa [hnew] using hregistered h
      simp only [hdown, honly, hmk, hnew, Bool.false_eq_true, Bool.true_eq_false, false_or]
      by_cases hid : e.utxo.blockIdHasFailed st.blockId = true
      · rw [addFailed_of_failed hid] at hfirst
        exact iff_of_true (hsame hfirst) (.inl hid)
      · rw [clock_forgiven_new_iff htime hst hv hrv hdown honly hmk hbg hnew hrows
          (Bool.eq_false_of_not_eq_true hid) hfirst hrun₂ hrun₃]
        exact (or_iff_right hid).symm
    · refine iff_of_true (hsame hfirst) ?_
      by_contra hharm
      push Not at hharm
      obtain ⟨hdown, honly, hmk, hmt⟩ := hharm
      rw [ne_eq, Bool.not_eq_true] at hdown honly
      rw [ne_eq, Bool.not_eq_false] at hmk
      cases hkn : e.db.byHash st.blockId with
      | none => exact hleft ⟨hdown, honly, hmk, hkn⟩
      | some p =>
        rw [hkn] at hmt
        obtain ⟨hfl, hon⟩ := not_or.mp hmt
        refine hbl ⟨hdown, ?_, p, hkn, Bool.eq_false_of_not_eq_true hfl,
          Bool.eq_false_of_not_eq_true hon⟩
        simp [tooNew, blockFailed, honly, hmk]

end Clock

/-! A header whose time is `10000` arrives on top of the genesis block. -/

def sampleNewHeader : Bytes := (⟨1, 1, 0, 10000, 0, 0⟩ : BlockHeader).write

def sampleNewState : BlockValidationState where
  block := { blockId := 100, previousBlockId := 1, nTime := 10000, size := 80, transactions := [], walk := [] }
  blockId := 100

def sampleClockEnv : Checks1Env := ⟨fun _ => 100, fun _ _ => true, 0, 1000000⟩

/-- Only the genesis block is known; `failed` are the ids of failed blocks. -/
def sampleGenesis (failed : List Uint256) : Engine :=
  { sampleEngine [] sampleNewState with
    db :=
      { index := fun q => if q = 0 then { phashBlock := 1, pprev := none, nHeight := 0, validity := BLOCK_VALID_SCRIPTS }
          else freeMemory
        byHash := fun id => if id = 1 then some 0 else none
        headersChain := some 0
        headerChainTips := [0] }
    utxo := { sampleUtxo [] with rejectedBlocks := failed }
    states := fun _ => none
    blocksBeingValidated := [] }

def sampleClockChain : ChainParams := ⟨1, []⟩

def sampleRows : List DiskBlockIndex := [{ hash := 1, hashPrev := 0, nHeight := 0, nBits := 0x207fffff }]

theorem sampleNew_tooNew : TooNew sampleClockEnv sampleNewHeader sampleNewState 0 10000 := ⟨by decide, by decide⟩

theorem findPrev_ne (hhash : ∀ id, e.db.byHash id ≠ some new) (htip : new ∉ e.db.headerChainTips)
    (hbg : e.blocksBeingValidated = []) (id : Uint256) : e.findPrev id ≠ some new := by
  unfold findPrev beingValidated
  rw [hbg]
  dsimp only [lookup]
  split
  next q hq => exact fun h => hhash id (hq.trans h)
  next => exact fun h => htip (mem_of_find?_eq_some h)

theorem sampleGenesis_vacant (failed : List Uint256) : (sampleGenesis failed).Vacant 0 1 where
  state := rfl
  dead := rfl
  child t st h := by cases h
  memory := rfl
  parent q := by
    show (if q = 0 then _ else freeMemory : BlockIndex).pprev ≠ some 1
    split_ifs <;> exact nofun
  tip := show (1 : ℕ) ∉ [0] by decide
  found := findPrev_ne (fun id h => by
    change (if id = 1 then some 0 else none) = some 1 at h
    split_ifs at h
    cases h) (show (1 : ℕ) ∉ [0] by decide) rfl

/-- After a restart there is the genesis block and free memory, again. -/
theorem sampleGenesis_restart_vacant : ((sampleGenesis [100]).restart sampleRows [0]).Vacant 0 1 := by
  have htip : (1 : ℕ) ∉ ((sampleGenesis [100]).restart sampleRows [0]).db.headerChainTips :=
    show (1 : ℕ) ∉ [0] by decide
  have hpar (q : IndexPtr) : (((sampleGenesis [100]).restart sampleRows [0]).index q).pprev ≠
      some 1 := by
    cases q with
    | zero => exact nofun
    | succ n => exact nofun
  have hhash (id : Uint256) : ((sampleGenesis [100]).restart sampleRows [0]).db.byHash id ≠ some 1 := by
    rw [restart_byHash]
    intro h
    obtain ⟨hlt, -⟩ := findIdx?_eq_some_iff_getElem.mp h
    exact absurd hlt (by decide)
  exact ⟨rfl, rfl, (fun _ _ h => nomatch h), rfl, hpar, htip, findPrev_ne hhash htip rfl⟩

theorem sampleNewState_incoming : Incoming sampleNewState := ⟨by decide, rfl, rfl, rfl⟩

/-- The header is accepted at the second arrival, but its id stays among the failed ones. -/
theorem clock_not_forgiven : TooNew sampleClockEnv sampleNewHeader sampleNewState 0 10000 ∧
      Incoming sampleNewState ∧
    (sampleGenesis []).Vacant 0 1 ∧
    (∃ r₁, (sampleGenesis []).receiveAt sampleParams sampleClockChain sampleClockEnv sampleNewHeader
      sampleNewState 0 1 0 = .ok r₁ ∧ r₁.2 = ⟨"", "time-too-new", true⟩ ∧
      ∃ r₂, r₁.1.receiveAt sampleParams sampleClockChain sampleClockEnv sampleNewHeader
        sampleNewState 0 1 10000 =
        .ok r₂ ∧ r₂.2 = ⟨"", "", false⟩ ∧ r₂.1.headerChain = some 1 ∧
          r₂.1.utxo.blockIdHasFailed 100 = true) ∧
    (∃ r, (sampleGenesis []).receiveAt sampleParams sampleClockChain sampleClockEnv sampleNewHeader sampleNewState 0 1
        10000 = .ok r ∧ r.1.utxo.blockIdHasFailed 100 = false) ∧
    ¬ Forgiven sampleParams sampleClockChain sampleClockEnv sampleNewHeader sampleNewState 0 1 0 10000 id
      (sampleGenesis []) := by
  refine ⟨sampleNew_tooNew, sampleNewState_incoming, sampleGenesis_vacant [],
    ⟨_, rfl, by decide, _, rfl, by decide, by decide, by decide⟩, ⟨_, rfl, by decide⟩, fun h => ?_⟩
  have hids := congrArg (fun o => o.failedIds 100) (Except.ok.inj h)
  revert hids
  decide

theorem clock_forgiven_sample :
    Forgiven sampleParams sampleClockChain sampleClockEnv sampleNewHeader sampleNewState 0 1 0 10000 id
        (sampleGenesis [100]) ∧
      Forgiven sampleParams sampleClockChain sampleClockEnv sampleNewHeader sampleNewState 0 1 0 10000
        (restart sampleRows [0]) (sampleGenesis [100]) := by
  have hrows : ∀ row ∈ sampleRows, ((sampleGenesis [100]).db.byHash row.hash).isSome := by decide
  refine (clock_forgiven_iff sampleNew_tooNew sampleNewState_incoming (sampleGenesis_vacant [100])
    sampleGenesis_restart_vacant (fun h => nomatch h) hrows ⟨_, rfl⟩ ⟨_, rfl⟩ ⟨_, rfl⟩).mpr ?_
  exact .inr (.inr (.inr (.inl rfl)))

end Engine

end FloweeHub.Validation
