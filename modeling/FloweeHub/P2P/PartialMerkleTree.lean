import Mathlib.Data.BitVec
import FloweeHub.Primitives.RawBlock

/-! The partial merkle tree of a merkleblock message: hashes, and one flag for each node in depth
first order. -/

namespace FloweeHub.P2P

/-- The tree as it is sent. -/
structure PartialMerkleTree where
  nTransactions : BitVec 32
  vHash : List Uint256
  merkleFlags : List (BitVec 8)
deriving DecidableEq

namespace PartialMerkleTree

variable (tree : PartialMerkleTree)

def vBits : List Bool := tree.merkleFlags.flatMap fun byte => (List.range 8).map byte.getLsbD

def CalcTreeWidth (height : ℕ) : ℕ := ((tree.nTransactions + (1#32 <<< height) - 1#32) >>> height).toNat

/-- The loop that looks for the height of the tree, for at most `rounds` rounds. -/
def heightFrom (tree : PartialMerkleTree) : ℕ → ℕ → ℕ
  | 0, nHeight => nHeight
  | rounds + 1, nHeight =>
    if 1 < tree.CalcTreeWidth nHeight then tree.heightFrom rounds (nHeight + 1) else nHeight

def treeHeight : ℕ := tree.heightFrom 31 0

/-- The variables of `TraverseAndExtract`. -/
structure Traversal where
  nBitsUsed : ℕ := 0
  nHashUsed : ℕ := 0
  vMatch : List Uint256 := []
  fBad : Bool := false

/-- Take the next stored hash; `matched` tells that it is a matched transaction id. -/
def useHash (matched : Bool) (t : Traversal) : Uint256 × Traversal :=
  match tree.vHash[t.nHashUsed]? with
  | none => (0, { t with fBad := true })
  | some hash => (hash, { t with
      nHashUsed := t.nHashUsed + 1
      vMatch := if matched then t.vMatch ++ [hash] else t.vMatch })

section

variable (hash256 : Bytes → Uint256)

def TraverseAndExtract (tree : PartialMerkleTree) : ℕ → ℕ → Traversal → Uint256 × Traversal
  | 0, _, t =>
    match tree.vBits[t.nBitsUsed]? with
    | none => (0, { t with fBad := true })
    | some fParentOfMatch => tree.useHash fParentOfMatch { t with nBitsUsed := t.nBitsUsed + 1 }
  | height + 1, pos, t =>
    match tree.vBits[t.nBitsUsed]? with
    | none => (0, { t with fBad := true })
    | some false => tree.useHash false { t with nBitsUsed := t.nBitsUsed + 1 }
    | some true =>
      let l := tree.TraverseAndExtract height (pos * 2) { t with nBitsUsed := t.nBitsUsed + 1 }
      let r := if pos * 2 + 1 < tree.CalcTreeWidth height then
          let r := tree.TraverseAndExtract height (pos * 2 + 1) l.2
          -- the two sides are never the same, as transaction ids are unique
          (r.1, { r.2 with fBad := r.2.fBad || r.1 = l.1 })
        else l
      (hash256 (l.1.toBytes ++ r.1.toBytes), r.2)

variable (tree : PartialMerkleTree)

/-- The root, null when the tree is bad, and the matched transaction ids. -/
def ExtractMatches : Uint256 × List Uint256 :=
  if tree.nTransactions = 0 then (0, [])
  else if (tree.nTransactions * 2).toNat < tree.vHash.length then (0, [])
  else if tree.vBits.length < tree.vHash.length then (0, [])
  else
    let e := tree.TraverseAndExtract hash256 tree.treeHeight 0 {}
    if e.2.fBad then (0, e.2.vMatch)
    else if (e.2.nBitsUsed + 7) / 8 ≠ (tree.vBits.length + 7) / 8 then (0, e.2.vMatch)
    else if e.2.nHashUsed ≠ tree.vHash.length then (0, e.2.vMatch)
    else (e.1, e.2.vMatch)

def vMatch : List Uint256 := (tree.ExtractMatches hash256).2

def root : Uint256 := (tree.ExtractMatches hash256).1

end

end PartialMerkleTree

end FloweeHub.P2P
