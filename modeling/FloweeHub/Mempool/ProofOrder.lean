import FloweeHub.Mempool.ProofCreation

/-! Whether a double spend proof depends on which transaction came first. The two sides are sorted by
two of their hashes, so they can be told apart only if those differ; and the first transaction is
hashed with an index that is one too large, which the output of `SIGHASH_SINGLE` depends on. -/

namespace FloweeHub.DoubleSpendProof

open List Option

variable (Hash : Bytes → Uint256)

/-- What is hashed of the outputs. -/
def hashedOutputs (sig : Bytes) (tx : Transaction) (inputIndex : ℕ) : Option Bytes :=
  if hashTypeOf sig &&& 0x1f ≠ SIGHASH_SINGLE ∧ hashTypeOf sig &&& 0x1f ≠ SIGHASH_NONE then
    some (tx.vout.flatMap TxOut.serialize)
  else if hashTypeOf sig &&& 0x1f = SIGHASH_SINGLE then tx.vout[inputIndex]?.map TxOut.serialize
  else none

def hashedPrevOutputs (sig : Bytes) (tx : Transaction) : Option Bytes :=
  if hashTypeOf sig &&& SIGHASH_ANYONECANPAY = 0 then some (tx.vin.flatMap fun txin =>
    txin.prevout.serialize)
  else none

/-- The signatures pass the checks of `create`, and the outpoint is not null. -/
def Usable (in1 in2 : TxIn) : Prop :=
  let sig₁ := getP2PKHSignature in1.scriptSig
  let sig₂ := getP2PKHSignature in2.scriptSig
  ¬ (sig₁ = [] ∨ sig₂ = []) ∧ hashTypeOf sig₁ &&& SIGHASH_FORKID ≠ 0 ∧
    hashTypeOf sig₂ &&& SIGHASH_FORKID ≠ 0 ∧
    sig₁.length ≤ MaxPushDataSize ∧ sig₂.length ≤ MaxPushDataSize ∧ sig₁ ≠ sig₂ ∧
    ¬ (Int32.ofNat in1.prevout.n = -1 ∨ in1.prevout.hash = 0)

instance (in1 in2 : TxIn) : Decidable (Usable in1 in2) := inferInstanceAs (Decidable (_ ∧ _))

/-- A side of the proof. -/
def side (tx : Transaction) (txin : TxIn) (inputIndex : ℕ) : Spender :=
  hashTx Hash (spenderOf tx txin) tx inputIndex

def sorted (o : OutPoint) (s₁ s₂ : Spender) : DoubleSpendProof :=
  if order s₁ s₂ = .gt then ⟨o.hash, Int32.ofNat o.n, s₂, s₁⟩ else ⟨o.hash, Int32.ofNat o.n, s₁, s₂⟩

/-- Both ways throw or give proofs with the same id. -/
def Symmetric (t₁ t₂ : Transaction) : Prop :=
  (create Hash t₁ t₂).toOption.map (createHash Hash) = (create Hash t₂ t₁).toOption.map (createHash Hash)

instance (t₁ t₂ : Transaction) : Decidable (Symmetric Hash t₁ t₂) := inferInstanceAs (Decidable (_ = _))

variable {Hash} {t₁ t₂ tx : Transaction} {in1 in2 txin : TxIn} {i j : ℕ} {o : OutPoint}

theorem side_hashOutputs : (side Hash tx txin i).hashOutputs =
    (hashedOutputs (getP2PKHSignature txin.scriptSig) tx i).elim 0 Hash := by
  simp only [side, hashTx, spenderOf, headD_cons, hashedOutputs]
  by_cases hs : hashTypeOf (getP2PKHSignature txin.scriptSig) &&& 0x1f = SIGHASH_SINGLE
  · cases tx.vout[i]? <;> simp [hs]
  · by_cases hn : hashTypeOf (getP2PKHSignature txin.scriptSig) &&& 0x1f = SIGHASH_NONE
    · simp [hn, SIGHASH_NONE, SIGHASH_SINGLE]
    · simp [hs, hn]

theorem side_hashPrevOutputs : (side Hash tx txin i).hashPrevOutputs =
    (hashedPrevOutputs (getP2PKHSignature txin.scriptSig) tx).elim 0 Hash := by
  simp only [side, hashTx, spenderOf, headD_cons, hashedPrevOutputs]
  by_cases ha : hashTypeOf (getP2PKHSignature txin.scriptSig) &&& SIGHASH_ANYONECANPAY = 0 <;> simp [ha]

/-- Only the hash over the outputs depends on the index. -/
theorem side_eq_iff : side Hash tx txin i = side Hash tx txin j ↔
    (side Hash tx txin i).hashOutputs = (side Hash tx txin j).hashOutputs := by
  refine ⟨fun h => h ▸ rfl, fun h => ?_⟩
  unfold side hashTx at h ⊢
  dsimp only at h ⊢
  rw [h]

theorem checkSanityOrThrow_toOption {p : DoubleSpendProof} {a b : Bytes} (h1 : p.spender1.pushData = [a])
    (h2 : p.spender2.pushData = [b]) : (p.checkSanityOrThrow.map fun _ => p).toOption =
      if a.length ≤ MaxPushDataSize ∧ b.length ≤ MaxPushDataSize ∧ a ≠ b ∧ ¬ p.isEmpty then some p
        else none := by
  simp only [checkSanityOrThrow, h1, h2, length_singleton, headD_cons]
  split_ifs
  all_goals first | rfl | (exfalso; omega) | simp_all

theorem create_toOption (hs : sharedInput t2.vin t1.vin 0 = some (i, in1, j, in2)) :
    (create Hash t1 t2).toOption =
      if Usable in1 in2 then
        some (sorted in1.prevout (side Hash t1 in1 (i + 1)) (side Hash t2 in2 j)) else none := by
  rw [create, hs]
  dsimp only
  by_cases h1 : getP2PKHSignature in1.scriptSig = [] ∨ getP2PKHSignature in2.scriptSig = []
  · rw [if_pos h1, if_neg fun hu => hu.1 h1]
    rfl
  by_cases h2 : hashTypeOf (getP2PKHSignature in1.scriptSig) &&& SIGHASH_FORKID = 0
  · rw [if_neg h1, if_pos h2, if_neg fun hu => hu.2.1 h2]
    rfl
  by_cases h3 : hashTypeOf (getP2PKHSignature in2.scriptSig) &&& SIGHASH_FORKID = 0
  · rw [if_neg h1, if_neg h2, if_pos h3, if_neg fun hu => hu.2.2.1 h3]
    rfl
  rw [if_neg h1, if_neg h2, if_neg h3]
  generalize hp : sorted in1.prevout (side Hash t1 in1 (i + 1)) (side Hash t2 in2 j) = p
  show ((sorted in1.prevout (side Hash t1 in1 (i + 1)) (side Hash t2 in2 j)).checkSanityOrThrow.map
    fun _ =>
    sorted in1.prevout (side Hash t1 in1 (i + 1)) (side Hash t2 in2 j)).toOption = _
  rw [hp]
  unfold sorted at hp
  split_ifs at hp
  all_goals
    rw [← hp, checkSanityOrThrow_toOption rfl rfl]
    refine if_congr ?_ rfl rfl
    simp only [Usable, isEmpty, decide_eq_true_eq, ne_eq]
    tauto

theorem sharedInput_of_find {vin1 vin2 : List TxIn} {k : ℕ}
    (h1 : (vin1.zipIdx k).find? (fun e => o = e.1.prevout) = some (in1, i))
    (h2 : vin2.zipIdx.find? (fun e => o = e.1.prevout) = some (in2, j))
    (hone : ∀ x ∈ vin1, ∀ y ∈ vin2, x.prevout = y.prevout → x.prevout = o) :
    sharedInput vin2 vin1 k = some (i, in1, j, in2) := by
  induction vin1 generalizing k with
  | nil => cases h1
  | cons x vin1 ih =>
    obtain ⟨hx, hone⟩ := forall_mem_cons.mp hone
    rw [zipIdx_cons, find?_cons] at h1
    by_cases hxo : o = x.prevout
    · rw [decide_eq_true hxo] at h1
      cases h1
      rw [sharedInput, ← hxo, h2]
    · rw [decide_eq_false hxo] at h1
      have hnone : vin2.zipIdx.find? (fun e => x.prevout = e.1.prevout) = none := by
        rw [find?_eq_none]
        intro e he
        have hy := hx e.1 (fst_mem_of_mem_zipIdx he)
        simpa using fun h => hxo (hy h).symm
      rw [sharedInput, hnone]
      exact ih h1 hone

theorem order_eq_iff {s1 s2 : Spender} :
    order s1 s2 = .eq ↔ s1.hashOutputs = s2.hashOutputs ∧ s1.hashPrevOutputs = s2.hashPrevOutputs := by
  have hcmp : ∀ x y : Uint256, x.Compare y = .eq ↔ x = y := fun x y => by
    rw [Uint256.Compare_eq, compare_eq_iff_eq, BitVec.toNat_inj]
  unfold order
  rw [← hcmp, ← hcmp]
  cases s1.hashOutputs.Compare s2.hashOutputs <;> simp

theorem order_swap (s1 s2 : Spender) : order s2 s1 = (order s1 s2).swap := by
  have hcmp : ∀ x y : Uint256, y.Compare x = (x.Compare y).swap := fun x y => by
    rw [Uint256.Compare_eq, Uint256.Compare_eq, Nat.compare_swap]
  unfold order
  rw [hcmp, hcmp s1.hashPrevOutputs]
  cases s1.hashOutputs.Compare s2.hashOutputs <;> rfl

theorem sorted_eq_iff {A A' B B' : Spender} (hpush : A.pushData ≠ B.pushData)
    (hA : A'.pushData = A.pushData) (hB : B'.pushData = B.pushData) :
    sorted o A' B = sorted o B' A ↔ A' = A ∧ B' = B ∧ order A B ≠ .eq := by
  have hAB : ∀ {X Y : Spender}, X.pushData = A.pushData → Y.pushData = B.pushData → X ≠ Y := by
    rintro X _ hX hY rfl
    exact hpush (hX.symm.trans hY)
  unfold sorted
  constructor
  · intro h
    split_ifs at h with h1 h2 h2
    all_goals obtain ⟨-, -, h3, h4⟩ := DoubleSpendProof.mk.inj h
    · exact absurd h3.symm (hAB rfl rfl)
    · subst h3 h4
      refine ⟨rfl, rfl, fun he => ?_⟩
      rw [he] at h1
      cases h1
    · subst h3 h4
      refine ⟨rfl, rfl, fun he => ?_⟩
      rw [order_swap A' B, he] at h2
      cases h2
    · exact absurd h3 (hAB hA hB)
  · rintro ⟨rfl, rfl, hne⟩
    rw [order_swap A' B']
    cases ho : order A' B' <;> simp_all

/-- The transactions have one outpoint in common. -/
structure OneShared (t₁ t₂ : Transaction) (o : OutPoint) : Prop where
  left : ∃ x ∈ t₁.vin, x.prevout = o
  right : ∃ y ∈ t₂.vin, y.prevout = o
  one : ∀ x ∈ t₁.vin, ∀ y ∈ t₂.vin, x.prevout = y.prevout → x.prevout = o

/-- The outputs behind those that belong to the inputs make no difference, and the sides differ in
what they are sorted by. -/
def Told (t₁ t₂ : Transaction) : Prop :=
  match sharedInput t₂.vin t₁.vin 0 with
  | some (i, in1, j, in2) =>
    let sig₁ := getP2PKHSignature in1.scriptSig
    let sig₂ := getP2PKHSignature in2.scriptSig
    Usable in1 in2 →
      hashedOutputs sig₁ t₁ (i + 1) = hashedOutputs sig₁ t₁ i ∧
        hashedOutputs sig₂ t₂ (j + 1) = hashedOutputs sig₂ t₂ j ∧
        ¬ (hashedOutputs sig₁ t₁ i = hashedOutputs sig₂ t₂ j ∧
          hashedPrevOutputs sig₁ t₁ = hashedPrevOutputs sig₂ t₂)
  | none => True

/-- All that is hashed for the sides. -/
def parts (t₁ t₂ : Transaction) : List (Option Bytes) :=
  match sharedInput t₂.vin t₁.vin 0 with
  | some (i, in1, j, in2) =>
    let sig₁ := getP2PKHSignature in1.scriptSig
    let sig₂ := getP2PKHSignature in2.scriptSig
    [hashedOutputs sig₁ t₁ i, hashedOutputs sig₁ t₁ (i + 1), hashedPrevOutputs sig₁ t₁,
      hashedOutputs sig₂ t₂ j, hashedOutputs sig₂ t₂ (j + 1), hashedPrevOutputs sig₂ t₂]
  | none => []

theorem OneShared.find (h : OneShared t1 t2 o) : ∃ i in1 j in2, in1.prevout = o ∧ in2.prevout = o ∧
    sharedInput t2.vin t1.vin 0 = some (i, in1, j, in2) ∧ sharedInput t1.vin t2.vin 0 = some (j,
      in2, i, in1) := by
  have hfind : ∀ vin : List TxIn, (∃ x ∈ vin, x.prevout = o) →
      ∃ i txin, txin.prevout = o ∧ vin.zipIdx.find? (fun e => o = e.1.prevout) = some (txin, i) := by
    rintro vin ⟨x, hx, hxo⟩
    obtain ⟨k, hk⟩ := mem_iff_getElem?.mp hx
    have hsome : (vin.zipIdx.find? fun e => o = e.1.prevout).isSome :=
      find?_isSome.mpr ⟨(x, k), mk_mem_zipIdx_iff_getElem?.mpr hk, decide_eq_true hxo.symm⟩
    obtain ⟨⟨y, i⟩, hy⟩ := isSome_iff_exists.mp hsome
    have hy' := find?_some hy
    exact ⟨i, y, (of_decide_eq_true hy').symm, hy⟩
  obtain ⟨i, in1, h1, hi⟩ := hfind _ h.left
  obtain ⟨j, in2, h2, hj⟩ := hfind _ h.right
  refine ⟨i, in1, j, in2, h1, h2, sharedInput_of_find hi hj h.one, sharedInput_of_find hj hi
    fun y hy x hx hyx => ?_⟩
  exact hyx.trans (h.one x hx y hy hyx.symm)

theorem usable_comm (h : in1.prevout = in2.prevout) : Usable in1 in2 ↔ Usable in2 in1 := by
  simp only [Usable, h, ne_eq]
  tauto

/-- Where hashes do not collide the proof is the same for both orders exactly if the transactions
can not be used for one, or the sides can be told apart and the wrong index does not matter. -/
theorem create_symmetric_iff (hone : OneShared t₁ t₂ o)
    (hparts : ∀ a ∈ parts t₁ t₂, ∀ b ∈ parts t₁ t₂, a.elim 0 Hash = b.elim 0 Hash → a = b)
    (hid : ∀ p ∈ (create Hash t₁ t₂).toOption, ∀ q ∈ (create Hash t₂ t₁).toOption,
      p.createHash Hash = q.createHash Hash → p = q) :
    Symmetric Hash t₁ t₂ ↔ Told t₁ t₂ := by
  obtain ⟨i, in1, j, in2, h1, h2, hs, hs'⟩ := hone.find
  rw [create_toOption hs, create_toOption hs'] at hid
  rw [parts, hs] at hparts
  rw [Symmetric, Told, hs, create_toOption hs, create_toOption hs']
  by_cases hu : Usable in1 in2
  · have hsig : getP2PKHSignature in1.scriptSig ≠ getP2PKHSignature in2.scriptSig := hu.2.2.2.2.2.1
    have hiff := fun a ha b hb => Iff.intro (hparts a ha b hb) fun h => h ▸ rfl
    rw [if_pos hu, if_pos ((usable_comm (h1.trans h2.symm)).mp hu)] at hid ⊢
    have hsym := Iff.intro (hid _ rfl _ rfl) fun h => congrArg (createHash Hash) h
    have hpush : (side Hash t₁ in1 i).pushData ≠ (side Hash t₂ in2 j).pushData :=
      fun h => hsig (singleton_inj.mp h)
    have hsort : sorted o (side Hash t₁ in1 (i + 1)) (side Hash t₂ in2 j) =
      sorted o (side Hash t₂ in2 (j + 1)) (side Hash t₁ in1 i) ↔ _ := sorted_eq_iff hpush rfl rfl
    rw [map_some, map_some, some_inj, hsym, h1, h2, hsort, side_eq_iff, side_eq_iff, ne_eq,
      order_eq_iff, side_hashOutputs, side_hashOutputs, side_hashOutputs, side_hashOutputs,
      side_hashPrevOutputs, side_hashPrevOutputs]
    rw [hiff _ (by simp) _ (by simp), hiff _ (by simp) _ (by simp), hiff _ (by simp) _ (by simp),
      hiff _ (by simp) _ (by simp)]
    exact ⟨fun h _ => h, fun h => h hu⟩
  · rw [if_neg hu, if_neg fun h => hu ((usable_comm (h2.trans h1.symm)).mp h)]
    exact ⟨fun _ h => absurd h hu, fun _ => rfl⟩

/-- A hash of the last 32 bytes. -/
def lastBytes (b : Bytes) : Uint256 := .ofBytes b.reverse

/-- One input with a signature that ends in the hash type, and two outputs. -/
def spendingTx (r hashType : UInt8) : Transaction where
  hash := 0
  nVersion := 1
  vin := [⟨⟨1, 0⟩, [2, r, hashType], 0⟩]
  vout := [⟨r.toNat, [r]⟩, ⟨2, [r]⟩]
  nLockTime := 0
  size := 0

theorem create_symmetric_all : Symmetric lastBytes (spendingTx 5 0x41) (spendingTx 6 0x41) := by
  refine (create_symmetric_iff (o := ⟨1, 0⟩) ⟨by decide, by decide, by decide⟩ ?_ ?_).mpr ?_
  · decide +kernel
  · decide +kernel
  · exact fun _ => by decide +kernel

/-- Signatures over one output, and signatures over no output and only their own input. -/
theorem not_create_symmetric : ¬ Symmetric lastBytes (spendingTx 5 0x43) (spendingTx 6 0x43) ∧
    ¬ Symmetric lastBytes (spendingTx 5 0xc2) (spendingTx 6 0xc2) := by
  decide +kernel

end FloweeHub.DoubleSpendProof
