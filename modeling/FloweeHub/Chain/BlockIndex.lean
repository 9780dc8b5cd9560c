import Mathlib.Data.List.Sort
import FloweeHub.Primitives.Transaction

/-! The block index and the header chain. `CBlockIndex` objects live in a heap and are named by
pointers. A `CChain` is represented by its tip: the entry at a height is its ancestor there. -/

namespace FloweeHub

abbrev IndexPtr := ℕ

/-- The validity levels in `nStatus & BLOCK_VALID_MASK`. -/
abbrev BLOCK_VALID_HEADER : ℕ := 1

abbrev BLOCK_VALID_TREE : ℕ := 2

abbrev BLOCK_VALID_TRANSACTIONS : ℕ := 3

abbrev BLOCK_VALID_CHAIN : ℕ := 4

abbrev BLOCK_VALID_SCRIPTS : ℕ := 5

/-- `CBlockIndex`; `nStatus` is split into the validity level and its flags. -/
structure BlockIndex where
  phashBlock : Uint256
  pprev : Option IndexPtr
  pskip : Option IndexPtr := none
  nHeight : ℤ
  nChainWork : ℕ := 0
  nTime : ℕ := 0
  nBits : ℕ := 0
  nTx : ℕ := 0
  nChainTx : ℕ := 0
  validity : ℕ := 0
  haveData : Bool := false
  haveUndo : Bool := false
  failedValid : Bool := false
  failedChild : Bool := false
deriving DecidableEq, Repr

namespace BlockIndex

/-- `nStatus & BLOCK_FAILED_MASK`. -/
def failed (b : BlockIndex) : Bool := b.failedValid || b.failedChild

def IsValid (b : BlockIndex) (nUpTo : ℕ) : Bool := !b.failed && nUpTo ≤ b.validity

def RaiseValidity (b : BlockIndex) (nUpTo : ℕ) : BlockIndex :=
  if b.failed then b else if b.validity < nUpTo then { b with validity := nUpTo } else b

end BlockIndex

abbrev IndexHeap := IndexPtr → BlockIndex

namespace IndexHeap

def walk (index : IndexHeap) : ℕ → IndexPtr → Option IndexPtr
  | 0, p => some p
  | n + 1, p => (index p).pprev.bind (walk index n)

variable (index : IndexHeap)

/-- `CBlockIndex::GetAncestor`, without the short cuts along `pskip`. -/
def GetAncestor (p : IndexPtr) (height : ℤ) : Option IndexPtr :=
  if (index p).nHeight < height ∨ height < 0 then none
  else walk index ((index p).nHeight - height).toNat p

/-- `CBlockIndex::GetMedianTimePast`: the median of the last eleven block times. -/
def GetMedianTimePast (p : IndexPtr) : ℕ :=
  let times := (List.range 11).filterMap fun n => (walk index n p).map fun q => (index q).nTime
  (times.insertionSort (· ≤ ·)).getD (times.length / 2) 0

def modify (p : IndexPtr) (f : BlockIndex → BlockIndex) : IndexHeap :=
  Function.update index p (f (index p))

@[simp] theorem modify_self (index : IndexHeap) (p : IndexPtr) (f : BlockIndex → BlockIndex) :
    index.modify p f p = f (index p) := Function.update_self ..

theorem modify_of_ne (index : IndexHeap) {p q : IndexPtr} (f : BlockIndex → BlockIndex) (h : q ≠ p) :
    index.modify p f q = index q := Function.update_of_ne h ..

end IndexHeap

abbrev Chain := Option IndexPtr

namespace Chain

variable (index : IndexHeap)

def Height : Chain → ℤ
  | none => -1
  | some tip => (index tip).nHeight

def at' (c : Chain) (height : ℤ) : Option IndexPtr := c.bind fun tip => index.GetAncestor tip height

def Contains (c : Chain) (p : IndexPtr) : Bool := c.at' index (index p).nHeight = some p

end Chain

/-- `Blocks::DB` with `Blocks::Index`: the objects, the map from block ids and the headers. -/
structure BlocksDB where
  index : IndexHeap
  byHash : Uint256 → Option IndexPtr
  headersChain : Chain
  headerChainTips : List IndexPtr

namespace BlocksDB

instance : CoeFun BlocksDB fun _ => IndexHeap := ⟨index⟩

/-- The nearest entry that is not failed; `pskip` is followed over failed entries only. -/
def validFrom (index : IndexHeap) : ℕ → IndexPtr → IndexPtr
  | 0, p => p
  | n + 1, p =>
    if (index p).failed then
      match (index p).pskip.filter fun q => (index q).failed with
      | some q => validFrom index n q
      | none => match (index p).pprev with
        | some q => validFrom index n q
        | none => p
    else p

/-- The variables of `appendHeader` that its loops change. -/
structure Scan where
  tips : List IndexPtr
  validPrev : IndexPtr
  headersChain : Chain
  modified : Bool
  alreadyContains : Bool
  modifyingMainChain : Bool

/-- One turn of that loop; `none` is the early return for a header that is known. -/
def scanTip (index : IndexHeap) (block : IndexPtr) (valid : Bool) (s : Scan) (tip : IndexPtr) :
    Option Scan :=
  if index.GetAncestor tip (index block).nHeight = some block then
    if valid then none
    else
      let mainChain := s.headersChain.Contains index tip
      some { s with
        modified := true
        headersChain := if mainChain then some s.validPrev else s.headersChain
        modifyingMainChain := s.modifyingMainChain || mainChain }
  else if index.GetAncestor tip (index s.validPrev).nHeight = some s.validPrev then
    some { s with
      tips := s.tips ++ [tip]
      alreadyContains := true
      validPrev := if (index s.validPrev).nChainWork < (index tip).nChainWork then tip else s.validPrev }
  else some { s with tips := s.tips ++ [tip] }

/-- The last loop: move the header chain to the tip with most work. -/
def bestTip (index : IndexHeap) (c : Chain) (tips : List IndexPtr) : Chain × Bool :=
  tips.foldl (fun r tip =>
    match r.1 with
    | none => (some tip, true)
    | some best =>
      if (index best).nChainWork < (index tip).nChainWork then (some tip, true) else r) (c, false)

/-- `Blocks::DB::appendHeader`; the flag tells whether the header chain was changed. Its assert of a
header chain is `appendHeaderAsserts`; a build without asserts goes on as here. -/
def appendHeader (db : BlocksDB) (block : IndexPtr) : Bool × BlocksDB :=
  let index := db.index
  let valid := !(index block).failed
  if valid && db.headersChain.Contains index block then (false, db)
  else
    let start := if valid then block else (index block).pprev.getD block
    let validPrev := validFrom index ((index start).nHeight.toNat + 1) start
    match db.headerChainTips.find? fun tip => index.GetAncestor block (index tip).nHeight = some tip with
    | some tip =>
      let tips := db.headerChainTips.erase tip ++ [validPrev]
      if db.headersChain = some tip then
        (true, { db with headerChainTips := tips, headersChain := some validPrev })
      else
        let best := bestTip index db.headersChain tips
        (best.2, { db with headerChainTips := tips, headersChain := best.1 })
    | none =>
      match db.headerChainTips.foldlM (scanTip index block valid)
          ⟨[], validPrev, db.headersChain, false, false, false⟩ with
      | none => (false, db)
      | some s =>
        let tips := if s.modified && !s.alreadyContains then s.tips ++ [s.validPrev] else s.tips
        let tips := if valid then tips ++ [block] else tips
        if valid && s.headersChain.Height index = -1 then
          (true, { db with headerChainTips := tips, headersChain := some block })
        else
          let best := bestTip index s.headersChain tips
          (s.modifyingMainChain || best.2, { db with headerChainTips := tips, headersChain := best.1 })

/-- Whether `appendHeader` returns before `assert(d->headersChain.Tip())` or passes it. -/
def appendHeaderAsserts (db : BlocksDB) (block : IndexPtr) : Bool :=
  let index := db.index
  let valid := !(index block).failed
  if valid && db.headersChain.Contains index block then true
  else
    let start := if valid then block else (index block).pprev.getD block
    let validPrev := validFrom index ((index start).nHeight.toNat + 1) start
    match db.headerChainTips.find? fun tip => index.GetAncestor block (index tip).nHeight = some tip with
    | some tip => db.headersChain = some tip || db.headersChain.isSome
    | none =>
      match db.headerChainTips.foldlM (scanTip index block valid)
          ⟨[], validPrev, db.headersChain, false, false, false⟩ with
      | none => true
      | some s => valid && s.headersChain.Height index = -1 || s.headersChain.isSome

end BlocksDB

end FloweeHub
