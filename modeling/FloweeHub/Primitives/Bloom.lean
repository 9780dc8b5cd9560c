import FloweeHub.Primitives.Transaction

/-! Bloom filters. Two of them are filled at once and cleared in turn, so that one of them always
has the last keys. The hash function is a parameter, and so are the sizes that the constructor
computes. -/

namespace FloweeHub.Bloom

open List

def setBit (data : Bytes) (nIndex : ℕ) : Bytes :=
  data.modify (nIndex >>> 3) (· ||| 1 <<< UInt8.ofNat (7 &&& nIndex))

def hasBit (data : Bytes) (nIndex : ℕ) : Bool :=
  data.getD (nIndex >>> 3) 0 &&& 1 <<< UInt8.ofNat (7 &&& nIndex) ≠ 0

/-- The bits of the filter, and how it is hashed into. -/
structure CBloomFilter where
  data : Bytes
  isFull : Bool := false
  isEmpty : Bool := true
  numHashFuncs : UInt32
  tweak : UInt32

section Filters

variable (MurmurHash3 : UInt32 → Bytes → UInt32)

namespace CBloomFilter

def hash (b : CBloomFilter) (nHashNum : ℕ) (vDataToHash : Bytes) : ℕ :=
  (MurmurHash3 (UInt32.ofNat nHashNum * 0xFBA4C795 + b.tweak) vDataToHash).toNat % (b.data.length * 8)

def insert (b : CBloomFilter) (vKey : Bytes) : CBloomFilter :=
  if b.isFull then b
  else
    { b with
      data := (range b.numHashFuncs.toNat).foldl (fun data i =>
        setBit data (b.hash MurmurHash3 i vKey)) b.data
      isEmpty := false }

def contains (b : CBloomFilter) (vKey : Bytes) : Bool :=
  if b.isFull then true
  else if b.isEmpty then false
  else (range b.numHashFuncs.toNat).all fun i => hasBit b.data (b.hash MurmurHash3 i vKey)

def clear (b : CBloomFilter) : CBloomFilter :=
  { b with data := replicate b.data.length 0, isFull := false, isEmpty := true }

def reset (b : CBloomFilter) (nNewTweak : UInt32) : CBloomFilter := { b.clear with tweak := nNewTweak }

end CBloomFilter

/-- Two filters, and the inserts in this round. -/
structure CRollingBloomFilter where
  nBloomSize : ℕ
  nInsertions : ℕ := 0
  b1 : CBloomFilter
  b2 : CBloomFilter

namespace CRollingBloomFilter

def insert (r : CRollingBloomFilter) (vKey : Bytes) : CRollingBloomFilter :=
  let b1 := if r.nInsertions = 0 then r.b1.clear else r.b1
  let b2 := if r.nInsertions ≠ 0 ∧ r.nInsertions = r.nBloomSize / 2 then r.b2.clear else r.b2
  { r with
    b1 := b1.insert MurmurHash3 vKey
    b2 := b2.insert MurmurHash3 vKey
    nInsertions := if r.nInsertions + 1 = r.nBloomSize then 0 else r.nInsertions + 1 }

def contains (r : CRollingBloomFilter) (vKey : Bytes) : Bool :=
  if r.nInsertions < r.nBloomSize / 2 then r.b2.contains MurmurHash3 vKey
  else r.b1.contains MurmurHash3 vKey

def reset (r : CRollingBloomFilter) (nNewTweak : UInt32) : CRollingBloomFilter :=
  { r with b1 := r.b1.reset nNewTweak, b2 := r.b2.reset nNewTweak, nInsertions := 0 }

/-- The constructor, given the two filters and the random number of its `reset`. -/
def create (nElements : ℕ) (b1 b2 : CBloomFilter) (nNewTweak : UInt32) : CRollingBloomFilter :=
  reset { nBloomSize := nElements * 2 % 2 ^ 32, b1 := b1, b2 := b2 } nNewTweak

/-- The calls that change the filter. -/
inductive Call where
  | insert (vKey : Bytes)
  | reset (nNewTweak : UInt32)

def step (r : CRollingBloomFilter) : Call → CRollingBloomFilter
  | .insert vKey => r.insert MurmurHash3 vKey
  | .reset nNewTweak => r.reset nNewTweak

end CRollingBloomFilter

/-- The keys since the latest reset, the last one first. -/
def inserted : List Bytes → CRollingBloomFilter.Call → List Bytes
  | keys, .insert vKey => vKey :: keys
  | _, .reset _ => []

end Filters

theorem mask_ne_zero (n : ℕ) : (1 : UInt8) <<< UInt8.ofNat (7 &&& n) ≠ 0 := by
  have hlt : 7 &&& n < 8 := Nat.lt_succ_of_le Nat.and_le_left
  generalize 7 &&& n = k at hlt
  revert k
  decide

theorem or_and_ne_zero {x y z : UInt8} (h : x &&& z ≠ 0 ∨ y &&& z ≠ 0) : (x ||| y) &&& z ≠ 0 := by
  have hor : (x ||| y) &&& z = (x &&& z) ||| (y &&& z) :=
    UInt8.toBitVec_inj.mp BitVec.and_or_distrib_right
  rw [hor, ne_eq, UInt8.or_eq_zero_iff]
  tauto

section Bits

variable {data : Bytes} {m n : ℕ}

theorem hasBit_setBit (h : hasBit data m ∨ m = n ∧ n < data.length * 8) : hasBit (setBit data n) m := by
  have hin : m >>> 3 < data.length := by
    rcases h with h | ⟨rfl, hlt⟩
    · by_contra hout
      simp [hasBit, List.getElem?_eq_none (not_lt.mp hout)] at h
    · rw [Nat.shiftRight_eq_div_pow]
      omega
  simp only [hasBit, setBit, getD_eq_getElem?_getD, getElem?_modify, getElem?_eq_getElem hin,
    Option.map_eq_map, Option.map_some, Option.getD_some, decide_eq_true_eq] at h ⊢
  split_ifs with hplace
  · apply or_and_ne_zero
    rcases h with h | ⟨rfl, -⟩
    · exact .inl h
    · right
      rw [UInt8.and_self]
      exact mask_ne_zero m
  · rcases h with h | ⟨rfl, -⟩
    · exact h
    · exact absurd rfl hplace

theorem length_setBit (data : Bytes) (n : ℕ) : (setBit data n).length = data.length := length_modify ..

theorem length_foldl_setBit (idx : ℕ → ℕ) (is : List ℕ) (data : Bytes) :
    (is.foldl (fun data i => setBit data (idx i)) data).length = data.length := by
  induction is generalizing data with
  | nil => rfl
  | cons i is ih => exact (ih _).trans (length_setBit ..)

/-- A loop over bits keeps those that are set, and sets its own. -/
theorem hasBit_foldl_setBit {idx : ℕ → ℕ} {is : List ℕ}
    (h : hasBit data m ∨ ∃ i ∈ is, idx i = m ∧ m < data.length * 8) :
    hasBit (is.foldl (fun data i => setBit data (idx i)) data) m := by
  induction is generalizing data with
  | nil => simpa using h
  | cons i is ih =>
    apply ih
    rw [length_setBit]
    rcases h with h | ⟨j, hj, rfl, hlt⟩
    · exact .inl (hasBit_setBit (.inl h))
    · rcases mem_cons.mp hj with rfl | hj
      · exact .inl (hasBit_setBit (.inr ⟨rfl, hlt⟩))
      · exact .inr ⟨j, hj, rfl, hlt⟩

end Bits

variable {H : UInt32 → Bytes → UInt32}

namespace CBloomFilter

variable {b : CBloomFilter} {keys : List Bytes} {n : ℕ}

variable (H) in
/-- The filter has at least the last `n` of the keys. -/
structure Holds (b : CBloomFilter) (keys : List Bytes) (n : ℕ) : Prop where
  size : 0 < b.data.length
  notFull : b.isFull = false
  contains : ∀ k ∈ keys.take n, b.contains H k

theorem Holds.clear (h : b.Holds H keys n) : b.clear.Holds H keys 0 := by
  refine ⟨?_, rfl, by simp⟩
  rw [CBloomFilter.clear, length_replicate]
  exact h.size

theorem Holds.insert (h : b.Holds H keys n) (key : Bytes) :
    (b.insert H key).Holds H (key :: keys) (n + 1) := by
  have hfull := h.notFull
  rw [CBloomFilter.insert, if_neg (by simp [hfull])]
  refine ⟨?_, hfull, fun k hk => ?_⟩
  · rw [length_foldl_setBit]
    exact h.size
  simp only [CBloomFilter.contains, hfull, Bool.false_eq_true, if_false, all_eq_true,
    CBloomFilter.hash, length_foldl_setBit]
  intro i hi
  apply hasBit_foldl_setBit
  rcases mem_cons.mp hk with rfl | hk
  · exact .inr ⟨i, hi, rfl, Nat.mod_lt _ (Nat.mul_pos h.size (by decide))⟩
  · have hin := h.contains k hk
    rw [CBloomFilter.contains, if_neg (by simp [hfull])] at hin
    split_ifs at hin
    exact .inl (all_eq_true.mp hin i hi)

end CBloomFilter

namespace CRollingBloomFilter

variable {r : CRollingBloomFilter} {n : ℕ} {keys : List Bytes}

variable (H) in
/-- The first filter has the keys of this round, the second one those since the middle of a round. -/
structure Keeps (n : ℕ) (keys : List Bytes) (r : CRollingBloomFilter) : Prop where
  size : r.nBloomSize = 2 * n
  lt : r.nInsertions < 2 * n
  first : ∃ i, r.b1.Holds H keys i ∧ r.nInsertions ≤ i
  second : ∃ j, r.b2.Holds H keys j ∧ (r.nInsertions < n → n + r.nInsertions ≤ j) ∧ r.nInsertions ≤ j + n

theorem Keeps.contains (h : r.Keeps H n keys) {k : Bytes} (hk : k ∈ keys.take n) : r.contains H k := by
  obtain ⟨hsize, -, ⟨i, hfirst, hi⟩, j, hsecond, hj, -⟩ := h
  unfold CRollingBloomFilter.contains
  split_ifs with hlt
  · exact hsecond.contains k (take_subset_take_left keys (by omega) hk)
  · exact hfirst.contains k (take_subset_take_left keys (by omega) hk)

theorem Keeps.insert (h : r.Keeps H n keys) (key : Bytes) :
    (r.insert H key).Keeps H n (key :: keys) := by
  obtain ⟨hsize, hlt, ⟨i, hfirst, hi⟩, j, hsecond, hj, hj'⟩ := h
  unfold CRollingBloomFilter.insert
  refine ⟨hsize, ?_, ?_, ?_⟩ <;> dsimp only
  · split_ifs <;> omega
  · by_cases hzero : r.nInsertions = 0
    · rw [if_pos hzero]
      exact ⟨1, hfirst.clear.insert key, by split_ifs <;> omega⟩
    · rw [if_neg hzero]
      exact ⟨i + 1, hfirst.insert key, by split_ifs <;> omega⟩
  · by_cases hmid : r.nInsertions ≠ 0 ∧ r.nInsertions = r.nBloomSize / 2
    · rw [if_pos hmid]
      exact ⟨1, hsecond.clear.insert key, by split_ifs <;> omega⟩
    · rw [if_neg hmid]
      exact ⟨j + 1, hsecond.insert key, by split_ifs <;> omega⟩

theorem keeps_reset (hsize : r.nBloomSize = 2 * n) (hpos : 1 ≤ n) (h1 : 0 < r.b1.data.length)
    (h2 : 0 < r.b2.data.length) (tweak : UInt32) : (r.reset tweak).Keeps H n [] := by
  have h : ∀ b : CBloomFilter, 0 < b.data.length → (b.reset tweak).Holds H [] n := fun b hb =>
    ⟨by rwa [CBloomFilter.reset, CBloomFilter.clear, length_replicate], rfl, by simp⟩
  exact ⟨hsize, Nat.mul_pos (by decide) hpos, ⟨n, h _ h1, Nat.zero_le n⟩,
    ⟨n, h _ h2, fun _ => le_rfl, Nat.zero_le _⟩⟩

/-- The last keys since a reset are found, whichever filter is asked. -/
theorem contains_last (nElements : ℕ) (hpos : 1 ≤ nElements) (hsize : 2 * nElements < 2 ^ 32)
    (b1 b2 : CBloomFilter) (h1 : b1.data ≠ []) (h2 : b2.data ≠ []) (tweak : UInt32) (calls : List Call) :
    ∀ k ∈ (calls.foldl inserted []).take nElements,
      (calls.foldl (step H) (create nElements b1 b2 tweak)).contains H k := by
  have hstart : (create nElements b1 b2 tweak).Keeps H nElements [] := by
    refine keeps_reset ?_ hpos (length_pos_of_ne_nil h1) (length_pos_of_ne_nil h2) tweak
    show nElements * 2 % 2 ^ 32 = 2 * nElements
    omega
  generalize create nElements b1 b2 tweak = r at hstart ⊢
  generalize ([] : List Bytes) = keys at hstart ⊢
  induction calls generalizing r keys with
  | nil => exact fun k hk => hstart.contains hk
  | cons call calls ih =>
    cases call with
    | insert vKey => exact ih _ _ (hstart.insert vKey)
    | reset =>
      obtain ⟨hround, -, ⟨_, hfirst, -⟩, _, hsecond, -⟩ := hstart
      exact ih _ _ (keeps_reset hround hpos hfirst.size hsecond.size _)

def keyHash (seed : UInt32) (key : Bytes) : UInt32 := seed + (key.headD 0).toUInt32

/-- A window of two over a reset and five keys: the last two are found, whichever filter has them,
and the oldest is not. -/
theorem contains_last_two :
    let calls : List Call := [.insert [9], .reset 3, .insert [1], .insert [2], .insert [3],
      .insert [4], .insert [5]]
    let r := calls.foldl (step keyHash) (create 2 ⟨replicate 8 0, false, true, 2, 0⟩ ⟨replicate 8 0,
      false, true, 2, 0⟩ 0)
    (∀ k ∈ [[5], [4]], r.contains keyHash k) ∧ r.contains keyHash [1] = false := by
  intro calls r
  have hlast := contains_last (H := keyHash) 2 (by decide) (by decide) ⟨replicate 8 0, false, true, 2, 0⟩
    ⟨replicate 8 0, false, true, 2, 0⟩ (by decide) (by decide) 0 calls
  exact ⟨fun k hk => hlast k hk, by decide +kernel⟩

end CRollingBloomFilter

end FloweeHub.Bloom
