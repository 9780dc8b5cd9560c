import FloweeHub.Primitives.RawBlock

/-! The merkle root of a block: pairs are hashed level by level, an odd hash is paired with itself,
and a pair of equal hashes flags the list as mutated. -/

namespace FloweeHub

namespace Merkle

section Levels

variable {α : Type} [DecidableEq α] (pair : α → α → α)

def nextLevel : List α → List α
  | a :: b :: hashes => pair a b :: nextLevel hashes
  | [a] => [pair a a]
  | [] => []

def levelMutated : List α → Bool
  | a :: b :: hashes => a = b || levelMutated hashes
  | _ => false

/-- The loop of `ComputeMerkleRoot`, for at most `levels` levels. -/
def rootFrom (zero : α) : ℕ → List α → Bool → α × Bool
  | levels + 1, a :: b :: hashes, mutation =>
    rootFrom zero levels (nextLevel pair (a :: b :: hashes))
      (mutation || levelMutated (a :: b :: hashes))
  | _, hashes, mutation => (hashes.headD zero, mutation)

end Levels

/-- A level has at most half as many hashes, rounded up, so there are fewer levels than hashes. -/
def ComputeMerkleRoot (hash256 : Bytes → Uint256) (hashes : List Uint256) : Uint256 × Bool :=
  rootFrom (fun a b => hash256 (a.toBytes ++ b.toBytes)) 0 hashes.length hashes false

end Merkle

def RawBlock.BlockMerkleRoot (hash256 : Bytes → Uint256) (b : RawBlock) : Uint256 × Bool :=
  Merkle.ComputeMerkleRoot hash256 (b.vtx.items.map fun tx => (tx.toTransaction hash256).hash)

end FloweeHub
