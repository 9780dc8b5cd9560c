import FloweeHub.Chain.BlockIndex

/-! The work that a header proves, from the compact form of its target, and the heights that
the skip pointers of the block index jump to. -/

namespace FloweeHub

/-- `arith_uint256::SetCompact`: the value, and whether it is negative or does not fit. -/
def SetCompact (nCompact : ℕ) : ℕ × Bool × Bool :=
  let nSize := nCompact >>> 24
  let nWord := if nSize ≤ 3 then (nCompact &&& 0x7fffff) >>> (8 * (3 - nSize)) else nCompact &&& 0x7fffff
  let value := if nSize ≤ 3 then nWord else (nWord <<< (8 * (nSize - 3))) % 2 ^ 256
  (value, decide (nWord ≠ 0 ∧ nCompact &&& 0x800000 ≠ 0),
    decide (nWord ≠ 0 ∧ (34 < nSize ∨ 0xff < nWord ∧ 33 < nSize ∨ 0xffff < nWord ∧ 32 < nSize)))

def GetBlockProof (nBits : ℕ) : ℕ :=
  let target := SetCompact nBits
  if target.2.1 || target.2.2 || target.1 = 0 then 0 else (2 ^ 256 - 1 - target.1) / (target.1 + 1) + 1

example : GetBlockProof 0x1d00ffff = 0x100010001 := by decide

/-- Turn the lowest bit that is set into a zero. -/
def InvertLowestOne (n : ℕ) : ℕ := n &&& (n - 1)

def GetSkipHeight (height : ℕ) : ℕ :=
  if height < 2 then 0
  else if height % 2 = 1 then InvertLowestOne (InvertLowestOne (height - 1)) + 1
  else InvertLowestOne height

namespace IndexHeap

def BuildSkip (index : IndexHeap) (p : IndexPtr) : IndexHeap :=
  match (index p).pprev with
  | none => index
  | some q => index.modify p fun b => { b with pskip := index.GetAncestor q (GetSkipHeight b.nHeight.toNat) }

end IndexHeap

end FloweeHub
