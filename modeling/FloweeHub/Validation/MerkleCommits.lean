import FloweeHub.Validation.Checks1

/-! A merkle root that is not flagged as mutated belongs to one list of ids. Of two lists of
different lengths one is a level in the tree over the other. This takes it that no two pairs hashed
below the roots collide. -/

namespace FloweeHub.Merkle

open List

variable {α : Type} {pair : α → α → α} {P : α × α → Prop} {xs ys zs ws : List α} {a : α} {n : ℕ}

def levelPairs : List α → List (α × α)
  | a :: b :: hashes => (a, b) :: levelPairs hashes
  | [a] => [(a, a)]
  | [] => []

/-- The pairs that are hashed for a list, in at most `levels` levels. -/
def treePairs (pair : α → α → α) : ℕ → List α → List (α × α)
  | levels + 1, a :: b :: hashes =>
    levelPairs (a :: b :: hashes) ++ treePairs pair levels (nextLevel pair (a :: b :: hashes))
  | _, _ => []

/-- No two pairs that are hashed for the lists have one hash, and no hash of a pair is an id. -/
structure CollisionFree (pair : α → α → α) (xs ys : List α) : Prop where
  injective : ∀ p ∈ treePairs pair xs.length xs ++ treePairs pair ys.length ys,
    ∀ q ∈ treePairs pair xs.length xs ++ treePairs pair ys.length ys, pair p.1 p.2 = pair q.1 q.2 → p = q
  leaves : ∀ x ∈ xs ++ ys, ∀ p ∈ treePairs pair xs.length xs ++ treePairs pair ys.length ys, x ≠
    pair p.1 p.2

theorem nextLevel_eq_map (xs : List α) : nextLevel pair xs = (levelPairs xs).map fun p =>
      pair p.1 p.2 := by
  induction xs using levelPairs.induct with
  | case1 a b hashes ih => rw [nextLevel, levelPairs, ih, map_cons]
  | case2 a => rfl
  | case3 => rfl

theorem two_mul_length_nextLevel (xs : List α) : 2 * (nextLevel pair xs).length ≤ xs.length + 1 := by
  induction xs using levelPairs.induct with
  | case1 a b hashes ih =>
    simp only [nextLevel, length_cons]
    omega
  | case2 a => exact le_rfl
  | case3 => exact zero_le_one

variable [DecidableEq α]

/-- A level that is hashed to the next one. -/
structure Row (P : α × α → Prop) (xs : List α) : Prop where
  distinct : levelMutated xs = false
  pairs : ∀ p ∈ levelPairs xs, P p

theorem Row.tail {b : α} (h : Row P (a :: b :: xs)) : a ≠ b ∧ P (a, b) ∧ Row P xs := by
  obtain ⟨hdis, hprs⟩ := h
  rw [levelMutated, Bool.or_eq_false_iff, decide_eq_false_iff_not] at hdis
  rw [levelPairs, forall_mem_cons] at hprs
  exact ⟨hdis.1, hprs.1, hdis.2, hprs.2⟩

/-- Only a last hash without a partner could be taken for two equal ones. -/
theorem Row.eq_of_nextLevel (hinj : ∀ p, P p → ∀ q, P q → pair p.1 p.2 = pair q.1 q.2 → p = q)
    (hxs : Row P xs) (hys : Row P ys) (h : nextLevel pair xs = nextLevel pair ys) : xs = ys := by
  induction xs using levelPairs.induct generalizing ys with
  | case1 a b xs ih =>
    obtain ⟨hab, hpair, hxs⟩ := hxs.tail
    match ys with
    | [c] =>
      cases hinj (a, b) hpair (c, c) (hys.pairs _ (mem_singleton_self _)) (cons.inj h).1
      exact absurd rfl hab
    | c :: d :: _ =>
      obtain ⟨-, hpair', htail⟩ := hys.tail
      cases hinj (a, b) hpair (c, d) hpair' (cons.inj h).1
      rw [ih hxs htail (cons.inj h).2]
  | case2 a =>
    have hpair := hxs.pairs _ (mem_singleton_self _)
    match ys with
    | [c] =>
      cases hinj (a, a) hpair (c, c) (hys.pairs _ (mem_singleton_self _)) (cons.inj h).1
      rfl
    | c :: d :: _ =>
      obtain ⟨hcd, hpair', -⟩ := hys.tail
      cases hinj (a, a) hpair (c, d) hpair' (cons.inj h).1
      exact absurd rfl hcd
  | case3 =>
    match ys with
    | [] => rfl
    | [_] | _ :: _ :: _ => cases h

/-- The second list is a level in the tree over the first. -/
inductive Level (pair : α → α → α) (P : α × α → Prop) : List α → List α → Prop
  | self (xs : List α) : Level pair P xs xs
  | up {xs zs : List α} (hrow : Row P xs) (h : Level pair P (nextLevel pair xs) zs) : Level pair P xs zs

theorem rootFrom_level (hxs : xs ≠ []) (hn : xs.length ≤ n) (hP : ∀ p ∈ treePairs pair n xs, P p)
    {zero : α} {m : Bool} (h : (rootFrom pair zero n xs m).2 = false) :
    m = false ∧ Level pair P xs [(rootFrom pair zero n xs m).1] := by
  induction n generalizing xs m with
  | zero => exact absurd (length_eq_zero_iff.mp (Nat.le_zero.mp hn)) hxs
  | succ n ih =>
    match xs with
    | [a] => exact ⟨h, .self [a]⟩
    | a :: b :: xs =>
      have hne : nextLevel pair (a :: b :: xs) ≠ [] := cons_ne_nil _ _
      have hsh := @two_mul_length_nextLevel α pair (a :: b :: xs)
      rw [length_cons, length_cons] at hsh hn
      obtain ⟨hm, hlevel⟩ := ih hne (by omega) (fun p hp => hP p (mem_append_right _ hp)) h
      rw [Bool.or_eq_false_iff] at hm
      exact ⟨hm.1, .up ⟨hm.2, fun p hp => hP p (mem_append_left _ hp)⟩ hlevel⟩

variable (hinj : ∀ p, P p → ∀ q, P q → pair p.1 p.2 = pair q.1 q.2 → p = q)

include hinj

theorem Level.down (h : Level pair P zs ws) (hys : Row P ys) (hxs : Row P xs)
    (hzs : zs = nextLevel pair ys) (hws : ws = nextLevel pair xs) : Level pair P ys xs := by
  induction h generalizing ys with
  | self zs => rw [hys.eq_of_nextLevel hinj hxs (hzs.symm.trans hws)]; exact .self xs
  | up hrow _ ih => exact .up hys (hzs ▸ ih hrow rfl hws)

/-- Of two lists with one root, one is a level over the other. -/
theorem Level.compare (hxs : Level pair P xs [a]) (hys : Level pair P ys [a]) :
    Level pair P ys xs ∨ Level pair P xs ys := by
  generalize hroot : [a] = root at hxs hys
  induction hxs generalizing ys with
  | self => exact .inl hys
  | up hrow hxs ih =>
    cases hys with
    | self => exact .inr (.up hrow hxs)
    | up hrow' hys =>
      rcases ih hroot hys with h | h
      · exact .inl (h.down hinj hrow' hrow rfl rfl)
      · exact .inr (h.down hinj hrow hrow' rfl rfl)

omit hinj

theorem Level.hashes (h : Level pair P ys xs) : ys = xs ∨ ∀ x ∈ xs, ∃ p, P p ∧ x = pair p.1 p.2 := by
  induction h with
  | self => exact .inl rfl
  | up hrow _ ih =>
    rcases ih with rfl | ih
    · refine .inr fun x hx => ?_
      rw [nextLevel_eq_map] at hx
      obtain ⟨p, hp, rfl⟩ := mem_map.mp hx
      exact ⟨p, hrow.pairs p hp, rfl⟩
    · exact .inr ih

theorem CollisionFree.eq_of_root (h : CollisionFree pair xs ys) (hxs : xs ≠ []) (hys : ys ≠ [])
    {zero : α} (hroot : (rootFrom pair zero xs.length xs false).1 =
      (rootFrom pair zero ys.length ys false).1)
    (hx : (rootFrom pair zero xs.length xs false).2 = false)
    (hy : (rootFrom pair zero ys.length ys false).2 = false) :
    xs = ys := by
  have hlx := (rootFrom_level hxs le_rfl (fun p hp =>
    mem_append_left (treePairs pair ys.length ys) hp) hx).2
  have hly := (rootFrom_level hys le_rfl (fun p hp =>
    mem_append_right (treePairs pair xs.length xs) hp) hy).2
  have hids : ∀ {us : List α}, us ≠ [] → us ⊆ xs ++ ys →
      ¬ ∀ x ∈ us, ∃ p ∈ treePairs pair xs.length xs ++ treePairs pair ys.length ys, x =
        pair p.1 p.2 := by
    intro us hne hsub hall
    obtain ⟨x, hx⟩ := exists_mem_of_ne_nil us hne
    obtain ⟨p, hp, heq⟩ := hall x hx
    exact h.leaves x (hsub hx) p hp heq
  rw [← hroot] at hly
  rcases hlx.compare h.injective hly with hlevel | hlevel
  · exact (hlevel.hashes.resolve_right (hids hxs (subset_append_left ..))).symm
  · exact hlevel.hashes.resolve_right (hids hys (subset_append_right ..))

end FloweeHub.Merkle

namespace FloweeHub.Validation

open Merkle

/-- The hash of a pair, as `SHA256D64` computes it for two neighbours. -/
def pairHash (hash256 : Bytes → Uint256) (a b : Uint256) : Uint256 := hash256 (a.toBytes ++ b.toBytes)

/-- `checks1NoContext` accepts a full block with this merkle root and these transaction ids. -/
def Accepts (hash256 : Bytes → Uint256) (root : Uint256) (ids : List Uint256) : Prop :=
  ∃ (st : BlockValidationState) (env : Checks1Env) (data rest : Bytes) (block : RawBlock),
    env.hash256 = hash256 ∧ 80 < data.length ∧ st.checkTransactionValidity ∧ st.checkMerkleRoot ∧
      RawBlock.createOldBlock data = .ok (block, rest) ∧ block.header.hashMerkleRoot = root ∧
      ids = (block.vtx.items.map fun tx => (tx.toTransaction hash256).hash) ∧
        st.checks1 env data = .ok ()

theorem Accepts.root {hash256 : Bytes → Uint256} {root : Uint256} {ids : List Uint256}
    (h : Accepts hash256 root ids) :
    ids ≠ [] ∧ ComputeMerkleRoot hash256 ids = (root, false) := by
  obtain ⟨st, env, data, rest, block, rfl, hfull, hck, hmk, hblk, rfl, rfl, hok⟩ := h
  obtain ⟨_, block', rest', -, hblk', hroot, hvtx⟩ :=
    checkBody_eq_ok.mp ((checks1_eq_ok.mp hok).2 hfull hck)
  obtain ⟨rfl, rfl⟩ : block = block' ∧ rest = rest' := by simpa [hblk] using hblk'
  obtain ⟨coinbase, txs, heq, -⟩ := checkVtx_eq_ok.mp hvtx
  have hroot := hroot hmk
  unfold checkMerkle at hroot
  constructor
  · intro hnil
    rw [List.map_eq_nil_iff.mp hnil] at heq
    cases heq
  · dsimp only at hroot
    split_ifs at hroot with hwrong hmutated
    exact Prod.ext (not_not.mp hwrong).symm (Bool.eq_false_of_not_eq_true hmutated)

/-- A root without the flag commits to the list of ids. -/
theorem merkleRoot_commits (hash256 : Bytes → Uint256) {xs ys : List Uint256}
    (hfree : CollisionFree (pairHash hash256) xs ys) :
    (xs ≠ [] → ys ≠ [] → (ComputeMerkleRoot hash256 xs).1 = (ComputeMerkleRoot hash256 ys).1 →
      (ComputeMerkleRoot hash256 xs).2 = false → (ComputeMerkleRoot hash256 ys).2 = false → xs = ys) ∧
    ∀ root, Accepts hash256 root xs → Accepts hash256 root ys → xs = ys := by
  have hls := fun hxs hys => @CollisionFree.eq_of_root _ _ _ _ _ hfree hxs hys (0 : Uint256)
  refine ⟨hls, fun root hx hy => ?_⟩
  obtain ⟨hxs, hroot⟩ := hx.root
  obtain ⟨hys, hroot'⟩ := hy.root
  apply hls hxs hys
  · exact (congrArg Prod.fst hroot).trans (congrArg Prod.fst hroot').symm
  · exact congrArg Prod.snd hroot
  · exact congrArg Prod.snd hroot'

theorem merkleRoot_commits_sample :
    (CollisionFree (pairHash fun _ => 7) [1, 2] [1, 2] ∧
      ComputeMerkleRoot (fun _ => 7) [1, 2] = (7, false) ∧
      ([1, 2] : List Uint256) = [1, 2]) ∧ Accepts (fun _ => 0) 0 [0] ∧ ([0] : List Uint256) = [0] := by
  have hpair : CollisionFree (pairHash fun _ => 7) [1, 2] [1, 2] := by
    constructor <;> simp [treePairs, levelPairs, nextLevel, pairHash]
  have hroot : ComputeMerkleRoot (fun _ => 7) [1, 2] = (7, false) := by decide
  have hone : CollisionFree (pairHash fun _ => 0) [0] [0] := ⟨nofun, nofun⟩
  have hlen := length_sampleRawBlock fun _ => 0
  obtain ⟨-, hblk, hok⟩ :=
    sampleRawBlock_accepted (fun _ => 0) sampleChecks1State (List.append_nil _).symm (by omega)
  have haccepts : Accepts (fun _ => 0) 0 [0] :=
    ⟨_, _, _, _, _, rfl, by omega, rfl, rfl, hblk, rfl, rfl, hok⟩
  exact ⟨⟨hpair, hroot, (merkleRoot_commits _ hpair).1 nofun
    nofun rfl (congrArg Prod.snd hroot) (congrArg Prod.snd hroot)⟩,
    haccepts, (merkleRoot_commits _ hone).2 0 haccepts haccepts⟩

/-- The empty list has the root of the list of the id zero. -/
theorem merkleRoot_of_nothing :
    let hash256 : Bytes → Uint256 := fun _ => 1
    CollisionFree (pairHash hash256) [] [0] ∧ ComputeMerkleRoot hash256 [] = (0, false) ∧
      ComputeMerkleRoot hash256 [0] = (0, false) :=
  ⟨⟨nofun, nofun⟩, rfl, rfl⟩

end FloweeHub.Validation
