import FloweeHub.Chain.Asert
import FloweeHub.Chain.HeaderChain
import FloweeHub.Lib.Runs

/-! The work that a block has to prove. The last of the three algorithms starts from an anchor that
is remembered for all calls: on two branches the first one to ask decides for both. A missing result
stands for an assert or an exception. -/

namespace FloweeHub

open Lib

namespace Consensus

/-- The fields of `Consensus::Params` that the required work depends on. -/
structure Params where
  powLimit : ArithUint256
  fPowAllowMinDifficultyBlocks : Bool := false
  fPowNoRetargeting : Bool := false
  nPowTargetSpacing : ℤ := 600
  nPowTargetTimespan : ℤ := 1209600
  nASERTHalfLife : ℤ := 172800
  hf201711Height : ℤ
  hf202011Height : ℤ

def Params.DifficultyAdjustmentInterval (params : Params) : ℤ :=
  params.nPowTargetTimespan.tdiv params.nPowTargetSpacing

end Consensus

open Consensus

section Algorithms

variable (index : IndexHeap) (params : Params)

def targetOf (p : IndexPtr) : ArithUint256 := (ArithUint256.SetCompact (.ofNat 32 (index p).nBits)).1

/-- The compact form of the smaller one of a target and the limit. -/
def compactTarget (target : ArithUint256) : Option (BitVec 32) :=
  ArithUint256.GetCompact (if target.CompareTo params.powLimit = .gt then params.powLimit else target)

variable (pindexPrev : IndexPtr)

variable (blockTime : ℤ)

/-- A test network takes the limit for a block that comes late. -/
def late : Bool :=
  params.fPowAllowMinDifficultyBlocks && (index pindexPrev).nTime +
    2 * params.nPowTargetSpacing < blockTime

def Calculate2016NextWorkRequired (nFirstBlockTime : ℤ) : Option (BitVec 32) :=
  if params.fPowNoRetargeting then some (.ofNat 32 (index pindexPrev).nBits)
  else
    let nActualTimespan := (index pindexPrev).nTime - nFirstBlockTime
    let nActualTimespan := max nActualTimespan (params.nPowTargetTimespan.tdiv 4)
    let nActualTimespan := min nActualTimespan (params.nPowTargetTimespan * 4)
    let bnNew := targetOf index pindexPrev * BitVec.ofInt 32 nActualTimespan
    (bnNew.div (.ofUint64 (.ofInt 64 params.nPowTargetTimespan))).toOption.bind (compactTarget params)

/-- The last block whose target was not taken from the limit, with the steps that are left. -/
def lastRegular (limit : BitVec 32) : ℕ → IndexPtr → IndexPtr
  | 0, p => p
  | n + 1, p =>
    match (index p).pprev with
    | none => p
    | some q =>
      if (index p).nHeight.tmod params.DifficultyAdjustmentInterval ≠ 0 ∧
        .ofNat 32 (index p).nBits = limit then
        lastRegular limit n q
      else p

def GetNextEDAWorkRequired : Option (BitVec 32) := do
  let nHeight := ((index pindexPrev).nHeight + 1) % 2 ^ 32
  let nBits := BitVec.ofNat 32 (index pindexPrev).nBits
  if nHeight.tmod params.DifficultyAdjustmentInterval = 0 then
    if nHeight < params.DifficultyAdjustmentInterval then none
    let pindexFirst ← index.GetAncestor pindexPrev (nHeight - params.DifficultyAdjustmentInterval)
    Calculate2016NextWorkRequired index params pindexPrev (index pindexFirst).nTime
  else
    let nProofOfWorkLimit ← ArithUint256.GetCompact params.powLimit
    if params.fPowAllowMinDifficultyBlocks then
      if late index params pindexPrev blockTime then some nProofOfWorkLimit
      else
        let p := lastRegular index params nProofOfWorkLimit (index pindexPrev).nHeight.toNat pindexPrev
        some (.ofNat 32 (index p).nBits)
    else if nBits = nProofOfWorkLimit then some nProofOfWorkLimit
    else
      let pindex6 ← index.GetAncestor pindexPrev (nHeight - 7)
      let mtp6blocks : ℤ := index.GetMedianTimePast pindexPrev - index.GetMedianTimePast pindex6
      if mtp6blocks < 12 * 3600 then some nBits
      else
        let nPow := targetOf index pindexPrev
        compactTarget params (nPow + nPow >>> 2)

def orderByTime (a b : IndexPtr) : IndexPtr × IndexPtr :=
  if (index b).nTime < (index a).nTime then (b, a) else (a, b)

def GetSuitableBlock (pindex : IndexPtr) : Option IndexPtr := do
  if (index pindex).nHeight < 3 then none
  let middle ← (index pindex).pprev
  let first ← (index middle).pprev
  let (first, last) := orderByTime index first pindex
  let (_, middle) := orderByTime index first middle
  let (middle, _) := orderByTime index middle last
  some middle

/-- The time between two blocks, at least half and at most twice what is aimed at. -/
def clampTimespan (nActualTimespan : ℤ) : ℤ :=
  if 288 * params.nPowTargetSpacing < nActualTimespan then 288 * params.nPowTargetSpacing
  else if nActualTimespan < 72 * params.nPowTargetSpacing then 72 * params.nPowTargetSpacing
  else nActualTimespan

def ComputeTarget (pindexFirst pindexLast : IndexPtr) : Option ArithUint256 :=
  if (index pindexLast).nHeight ≤ (index pindexFirst).nHeight then none
  else
    let work : ArithUint256 :=
      .ofNat (index pindexLast).nChainWork - .ofNat (index pindexFirst).nChainWork
    let work := work * BitVec.ofInt 32 params.nPowTargetSpacing
    let nActualTimespan := clampTimespan params ((index pindexLast).nTime - (index pindexFirst).nTime)
    (work.div (.ofUint64 (.ofInt 64 nActualTimespan))).toOption.bind fun work =>
      ((-work).div work).toOption

def cw144Target : Option ArithUint256 := do
  let nHeight := (index pindexPrev).nHeight
  if nHeight < params.DifficultyAdjustmentInterval then none
  let pindexLast ← GetSuitableBlock index pindexPrev
  let pindexFirst ← (index.GetAncestor pindexPrev (nHeight - 144)).bind (GetSuitableBlock index)
  let nextTarget ← ComputeTarget index params pindexFirst pindexLast
  some (if nextTarget.CompareTo params.powLimit = .gt then params.powLimit else nextTarget)

def CalculateNextCW144WorkRequired : Option (BitVec 32) :=
  if late index params pindexPrev blockTime then ArithUint256.GetCompact params.powLimit
  else (cw144Target index params pindexPrev).bind ArithUint256.GetCompact

def CalculateNextASERTWorkRequired (pindexAnchorBlock : Option IndexPtr) : Option (BitVec 32) := do
  let anchor ← pindexAnchorBlock
  if (index pindexPrev).nHeight < (index anchor).nHeight then none
  if late index params pindexPrev blockTime then ArithUint256.GetCompact params.powLimit
  else
    if (index pindexPrev).pprev.isNone then none
    let anchorTime := (index ((index anchor).pprev.getD anchor)).nTime
    let nTimeDiff : ℤ := (index pindexPrev).nTime - anchorTime
    let nHeightDiff := (index pindexPrev).nHeight - (index anchor).nHeight
    let nextTarget ← CalculateASERT (targetOf index anchor) params.nPowTargetSpacing nTimeDiff
      nHeightDiff params.powLimit
      params.nASERTHalfLife
    ArithUint256.GetCompact nextTarget

/-- The anchor, and what is remembered afterwards. -/
def GetASERTAnchorBlock (cachedAnchor : Option IndexPtr) (pindex : IndexPtr) :
    Option IndexPtr × Option IndexPtr :=
  match cachedAnchor with
  | some cached => (some cached, some cached)
  | none =>
    if params.hf202011Height ≤ 0 then (none, none)
    else
      let anchor := index.GetAncestor pindex (params.hf202011Height - 1)
      (anchor, anchor)

/-- The required work, and the anchor that is remembered afterwards. -/
def CalculateNextWorkRequired (cachedAnchor : Option IndexPtr) (pindexPrev : IndexPtr) (blockTime : ℤ) :
    Option (BitVec 32) × Option IndexPtr :=
  if params.fPowNoRetargeting then (some (.ofNat 32 (index pindexPrev).nBits), cachedAnchor)
  else if params.hf201711Height ≤ (index pindexPrev).nHeight then
    if params.hf202011Height ≤ (index pindexPrev).nHeight + 1 then
      let (anchor, cachedAnchor) := GetASERTAnchorBlock index params cachedAnchor pindexPrev
      (CalculateNextASERTWorkRequired index params pindexPrev blockTime anchor, cachedAnchor)
    else (CalculateNextCW144WorkRequired index params pindexPrev blockTime, cachedAnchor)
  else (GetNextEDAWorkRequired index params pindexPrev blockTime, cachedAnchor)

end Algorithms

/-! ### The remembered anchor -/

/-- What happens to the remembered anchor: a block asks for the work, or it is forgotten. -/
inductive AnchorEvent
  | calculateNextWorkRequired (pindexPrev : IndexPtr) (blockTime : ℤ)
  | resetASERTAnchorBlockCache
deriving DecidableEq

section Cache

variable {index : IndexHeap} {params : Params} {anchor cached : Option IndexPtr}
  {events : List AnchorEvent}

variable (index)

variable (params)

def afterEvent (cached : Option IndexPtr) : AnchorEvent → Option IndexPtr
  | .calculateNextWorkRequired p time => (CalculateNextWorkRequired index params cached p time).2
  | .resetASERTAnchorBlockCache => none

/-- The work required after a block depends on an anchor. -/
def UsesAnchor (p : IndexPtr) : Prop :=
  params.fPowNoRetargeting = false ∧ params.hf201711Height ≤ (index p).nHeight ∧
    params.hf202011Height ≤ (index p).nHeight + 1

/-- The anchor of the block, where it needs one, is the given one. -/
def HasAnchor (anchor : Option IndexPtr) (p : IndexPtr) : Prop :=
  UsesAnchor index params p → index.GetAncestor p (params.hf202011Height - 1) = anchor

/-- The event is about a block with this anchor, or resets the cache. -/
def AnchorEvent.Asks (anchor : Option IndexPtr) : AnchorEvent → Prop
  | .calculateNextWorkRequired p _ => HasAnchor index params anchor p
  | .resetASERTAnchorBlockCache => True

variable {params}

variable {index} {p : IndexPtr}

theorem CalculateNextWorkRequired_of_not_uses (h : ¬ UsesAnchor index params p) (time : ℤ) :
    CalculateNextWorkRequired index params cached p time =
      ((CalculateNextWorkRequired index params none p time).1, cached) := by
  unfold CalculateNextWorkRequired UsesAnchor at *
  split_ifs with hno hcw hasert
  · rfl
  · exact absurd ⟨by simpa using hno, hcw, hasert⟩ h
  · rfl
  · rfl

theorem CalculateNextWorkRequired_of_uses (h : UsesAnchor index params p) (time : ℤ) :
    CalculateNextWorkRequired index params cached p time =
      (CalculateNextASERTWorkRequired index params p time (GetASERTAnchorBlock index params cached p).1,
        (GetASERTAnchorBlock index params cached p).2) := by
  simp [CalculateNextWorkRequired, h.1, h.2.1, h.2.2]

/-- Nothing but the anchor that all blocks ask for is remembered. -/
theorem afterEvent_eq {event : AnchorEvent} (hask : event.Asks index params anchor)
    (hcac : cached = none ∨ cached = anchor) :
    afterEvent index params cached event = none ∨ afterEvent index params cached event = anchor := by
  cases event with
  | resetASERTAnchorBlockCache => exact .inl rfl
  | calculateNextWorkRequired p time =>
    rw [afterEvent]
    by_cases huse : UsesAnchor index params p
    · rw [CalculateNextWorkRequired_of_uses huse]
      cases cached with
      | some a => exact hcac
      | none =>
        simp only [GetASERTAnchorBlock]
        split_ifs
        · exact .inl rfl
        · exact .inr (hask huse)
    · rwa [CalculateNextWorkRequired_of_not_uses huse]

theorem cached_eq (hask : ∀ event ∈ events, event.Asks index params anchor)
    (hcac : cached = none ∨ cached = anchor) :
    events.foldl (afterEvent index params) cached = none ∨
      events.foldl (afterEvent index params) cached = anchor := by
  induction events generalizing cached with
  | nil => exact hcac
  | cons event events ih =>
    obtain ⟨hfst, hrest⟩ := List.forall_mem_cons.mp hask
    exact ih hrest (afterEvent_eq hfst hcac)

/-- As long as all blocks that asked have one anchor, the work is that of a first call. -/
theorem nextWork_of_chain {p : IndexPtr} (hask : ∀ event ∈ events, event.Asks index params anchor)
    (hp : HasAnchor index params anchor p) (time : ℤ) :
    (CalculateNextWorkRequired index params (events.foldl (afterEvent index params) none) p time).1 =
      (CalculateNextWorkRequired index params none p time).1 := by
  obtain hcac | hcac := cached_eq hask (.inl rfl)
  · rw [hcac]
  · rw [hcac]
    by_cases huse : UsesAnchor index params p
    · rw [CalculateNextWorkRequired_of_uses huse, CalculateNextWorkRequired_of_uses huse]
      cases anchor with
      | none => rfl
      | some a =>
        have hht : ¬ params.hf202011Height ≤ 0 := fun hle => by
          have hanchor := hp huse
          rw [IndexHeap.GetAncestor, if_pos (.inr (by omega))] at hanchor
          cases hanchor
        simp [GetASERTAnchorBlock, hp huse, hht]
    · rw [CalculateNextWorkRequired_of_not_uses huse]

/-- Two blocks at the height of the anchor, the second one with the harder target. -/
def forkedIndex : IndexHeap
  | 0 => { phashBlock := 0, pprev := none, nHeight := 0, nBits := 0x1d00ffff }
  | 1 => { phashBlock := 1, pprev := some 0, nHeight := 1, nTime := 600, nBits := 0x1d00ffff }
  | _ => { phashBlock := 2, pprev := some 0, nHeight := 1, nTime := 600, nBits := 0x1c00ffff }

def forkedParams : Params where
  powLimit := (ArithUint256.SetCompact 0x1d00ffff).1
  hf201711Height := 0
  hf202011Height := 2

theorem nextWork_of_chain_forked :
    (CalculateNextWorkRequired forkedIndex forkedParams
        ([.calculateNextWorkRequired 1 0].foldl (afterEvent forkedIndex forkedParams) none) 1 700).1 =
      (CalculateNextWorkRequired forkedIndex forkedParams none 1 700).1 := by
  have hask : HasAnchor forkedIndex forkedParams (some 1) 1 := fun _ => by decide
  refine nextWork_of_chain (fun event hevent => ?_) hask 700
  obtain rfl := List.mem_singleton.mp hevent
  exact hask

/-- The second block is told the target that follows from the anchor of the first. -/
theorem nextWork_depends_on_calls :
    (CalculateNextWorkRequired forkedIndex forkedParams
        ([.calculateNextWorkRequired 1 0].foldl (afterEvent forkedIndex forkedParams) none) 2 700).1 = some 0x1d00ffff ∧
      (CalculateNextWorkRequired forkedIndex forkedParams none 2 700).1 = some 0x1c00ffff := by
  decide +kernel

end Cache

end FloweeHub
