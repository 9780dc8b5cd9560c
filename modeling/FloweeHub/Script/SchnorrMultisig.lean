import FloweeHub.Script.ScriptNum

/-! `OP_CHECKMULTISIG` in its Schnorr mode, where the dummy is a bitfield that names the key of each
signature. The exits that the source comments as unreachable have ways out of their own, so that it
can be said that none is taken. -/

namespace FloweeHub.Script

open Lib.LittleEndian List Nat Except

variable {k v n : ℕ} {xs : List ℕ} {x : ℕ}

def MAX_OPS_PER_SCRIPT : ℕ := 201

def MAX_PUBKEYS_PER_MULTISIG : ℕ := 20

/-- The ways out of the loop over the keys. -/
inductive Exit
  | error (e : ScriptError)
  | unreachable (e : ScriptError)
  | shift
  | outside
  deriving DecidableEq, Repr

/-- The checks of one operation: the flags, the script code and the transaction are fixed. -/
structure SigChecks where
  CheckSignatureEncoding : Valtype → Except ScriptError Unit
  CheckPubKeyEncoding : Valtype → Except ScriptError Unit
  CheckSig : Valtype → Valtype → Bool

/-- `countBits` as it is where the compiler has no such instruction. -/
def countBits (v : ℕ) : ℕ :=
  let v := v - ((v >>> 1) &&& 0x55555555)
  let v := (v &&& 0x33333333) + ((v >>> 2) &&& 0x33333333)
  (((v + (v >>> 4)) &&& 0xF0F0F0F) * 0x1010101 % 2 ^ 32) >>> 24

def decodeBitfield (vch : Valtype) (size : ℕ) : Except Exit ℕ :=
  if size > 32 then .error (.error .INVALID_BITFIELD_SIZE)
  else if vch.length ≠ (size + 7) / 8 then .error (.error .INVALID_BITFIELD_SIZE)
  else
    let bitfield := (orBytes 0 0#32 vch).toNat
    if bitfield &&& (2 ^ size - 1) % 2 ^ 32 ≠ bitfield then .error (.error .INVALID_BIT_RANGE)
    else .ok bitfield

def shiftRight (v count : ℕ) : Except Exit ℕ := if count < 32 then .ok (v >>> count) else .error .shift

def stacktop (stack : List Valtype) (depth : ℕ) : Except Exit Valtype :=
  match stack[depth - 1]? with
  | some v => if depth = 0 then .error .outside else .ok v
  | none => .error .outside

/-- The inner loop to the next bit that is set; the shift ends it at the width of the word. -/
def findKey (checkBits : ℕ) : ℕ → ℕ → Except Exit ℕ
  | 0, _ => .error .shift
  | fuel + 1, iKey => do
    if (← shiftRight checkBits iKey) &&& 1 = 0 then findKey checkBits fuel (iKey + 1) else return iKey

def liftError {α : Type} : Except ScriptError α → Except Exit α
  | .ok a => .ok a
  | .error e => .error (.error e)

section

variable (c : SigChecks) (stack : List Valtype)

def checkPair (vchSig vchPubKey : Valtype) : Except Exit Unit := do
  liftError (c.CheckSignatureEncoding vchSig)
  liftError (c.CheckPubKeyEncoding vchPubKey)
  if !c.CheckSig vchSig vchPubKey then throw (.error .SIG_NULLFAIL)

/-- The outer loop; the result is the key cursor and `sigCheckCount`. -/
def checkSigs (checkBits nKeysCount idxBottomKey idxBottomSig : ℕ) : ℕ → ℕ → ℕ → ℕ → Except Exit (ℕ × ℕ)
  | 0, _, iKey, sigCheckCount => .ok (iKey, sigCheckCount)
  | left + 1, iSig, iKey, sigCheckCount => do
    if (← shiftRight checkBits iKey) = 0 then throw (.unreachable .INVALID_BIT_RANGE)
    let iKey ← findKey checkBits 32 iKey
    if iKey ≥ nKeysCount then throw (.unreachable .PUBKEY_COUNT)
    checkPair c (← stacktop stack (idxBottomSig - iSig)) (← stacktop stack (idxBottomKey - iKey))
    checkSigs checkBits nKeysCount idxBottomKey idxBottomSig left (iSig + 1) (iKey + 1)
      (sigCheckCount + 1)

def schnorrMultisig (nKeysCount nSigsCount sigCheckCount : ℕ) : Except Exit ℕ := do
  let idxTopKey := 2
  let idxTopSig := idxTopKey + nKeysCount + 1
  let checkBits ← decodeBitfield (← stacktop stack (idxTopSig + nSigsCount)) nKeysCount
  if countBits checkBits ≠ nSigsCount then throw (.error .INVALID_BIT_COUNT)
  let (iKey, sigCheckCount) ← checkSigs c stack checkBits nKeysCount (idxTopKey + nKeysCount - 1)
    (idxTopSig + nSigsCount - 1) nSigsCount 0 0 sigCheckCount
  if (← shiftRight checkBits iKey) ≠ 0 then throw (.unreachable .INVALID_BIT_COUNT)
  return sigCheckCount

/-- The opcode on a stack with its top first; `legacy` is the other mode. -/
def OP_CHECKMULTISIG (fRequireMinimal enableSchnorrMultisig : Bool)
    (legacy : ℕ → ℕ → Except Exit (Bool × ℕ)) (nOpCount sigCheckCount : ℕ) :
    Except Exit (List Valtype × ℕ × ℕ) := do
  if stack.length < 1 then throw (.error .INVALID_STACK_OPERATION)
  let nKeysCount := getint (← liftError (CScriptNum (← stacktop stack 1) fRequireMinimal))
  if nKeysCount < 0 ∨ nKeysCount > MAX_PUBKEYS_PER_MULTISIG then throw (.error .PUBKEY_COUNT)
  let nKeysCount := nKeysCount.toNat
  if nOpCount + nKeysCount > MAX_OPS_PER_SCRIPT then throw (.error .OP_COUNT)
  let idxSigCount := 2 + nKeysCount
  if stack.length < idxSigCount then throw (.error .INVALID_STACK_OPERATION)
  let nSigsCount := getint (← liftError (CScriptNum (← stacktop stack idxSigCount) fRequireMinimal))
  if nSigsCount < 0 ∨ nSigsCount > nKeysCount then throw (.error .SIG_COUNT)
  let nSigsCount := nSigsCount.toNat
  let idxDummy := idxSigCount + 1 + nSigsCount
  if stack.length < idxDummy then throw (.error .INVALID_STACK_OPERATION)
  if enableSchnorrMultisig ∧ (← stacktop stack idxDummy).length ≠ 0 then
    let sigCheckCount ← schnorrMultisig c stack nKeysCount nSigsCount sigCheckCount
    return ([1] :: stack.drop idxDummy, nOpCount + nKeysCount, sigCheckCount)
  else
    let (fSuccess, sigCheckCount) ← legacy nKeysCount nSigsCount
    return ((if fSuccess then [1] else []) :: stack.drop idxDummy, nOpCount + nKeysCount, sigCheckCount)

end

/-- The positions of the bits that are set among the lowest `n`, lowest first. -/
def setBits (v n : ℕ) : List ℕ := (range n).filter v.testBit

theorem testBit_digit (hx : x < 16) (y i : ℕ) :
    (x + 16 * y).testBit i = if i < 4 then x.testBit i else y.testBit (i - 4) := by
  rw [add_comm, show 16 = 2 ^ 4 by rfl, testBit_two_pow_mul_add y hx]

/-- A shift followed by a mask that leaves out the bits from the next digit works digit by digit. -/
theorem shiftRight_and_digit {m : ℕ} (hm : m < 2 ^ (4 - k)) (hx : x < 16) (y M : ℕ) :
    (x + 16 * y) >>> k &&& (m + 16 * M) = (x >>> k &&& m) + 16 * (y >>> k &&& M) := by
  have hm16 : m < 16 :=
    hm.trans_le (Nat.pow_le_pow_right (n := 2) (i := 4 - k) (j := 4) (by decide) (by omega))
  apply eq_of_testBit_eq
  intro i
  have hlow : (x >>> k &&& m) < 16 := and_le_right.trans_lt hm16
  rw [testBit_digit hlow]
  simp only [testBit_and, testBit_shiftRight, testBit_digit hx, testBit_digit hm16]
  obtain hi | hi := lt_or_ge i 4
  · obtain hk | hk := lt_or_ge (k + i) 4
    · simp [hi, hk]
    · simp [hi, Nat.testBit_lt_two_pow
        (hm.trans_le (Nat.pow_le_pow_right (by decide) (show 4 - k ≤ i by omega)))]
  · rw [if_neg (by omega), if_neg (by omega), if_neg (by omega), show k + i - 4 = k + (i - 4) by omega]

theorem shiftRight_and_ofDigits {m : ℕ} (hm : m < 2 ^ (4 - k)) (hxs : ∀ x ∈ xs, x < 16) :
    (ofDigits 16 xs >>> k) &&& ofDigits 16 (xs.map fun _ => m) = ofDigits 16 (xs.map fun x =>
      x >>> k &&& m) := by
  induction xs with
  | nil => simp
  | cons x xs ih =>
    obtain ⟨hx, hxs⟩ := forall_mem_cons.mp hxs
    rw [map_cons, map_cons, ofDigits_cons, ofDigits_cons, ofDigits_cons, ← ih hxs]
    exact shiftRight_and_digit hm hx ..

theorem length_setBits_ofDigits (hxs : ∀ x ∈ xs, x < 16) :
    (setBits (ofDigits 16 xs) (4 * xs.length)).length = (xs.map fun x => (setBits x 4).length).sum := by
  induction xs with
  | nil => rfl
  | cons x xs ih =>
    obtain ⟨hx, hxs⟩ := forall_mem_cons.mp hxs
    rw [map_cons, sum_cons, ← ih hxs, ofDigits_cons, length_cons,
      show 4 * (xs.length + 1) = 4 + 4 * xs.length by ring]
    simp only [setBits, range_add, filter_append, length_append, filter_map, length_map]
    congr 2
    · apply filter_congr
      intro i hi
      rw [testBit_digit hx, if_pos (mem_range.mp hi)]
    · apply filter_congr
      intro i _
      simp [testBit_digit hx]

/-- The first two lines of `countBits` put into each digit the number of its bits. -/
theorem digit_count : ∀ x < 16, (x >>> 1 &&& 5) ≤ x ∧ x - (x >>> 1 &&& 5) < 16 ∧
    ((x - (x >>> 1 &&& 5)) >>> 0 &&& 3) + ((x - (x >>> 1 &&& 5)) >>> 2 &&& 3) = (setBits x 4).length ∧
      (setBits x 4).length ≤ 4 := by
  decide

theorem ofDigits_map_add (f g : ℕ → ℕ) (xs : List ℕ) :
    ofDigits 16 (xs.map f) + ofDigits 16 (xs.map g) = ofDigits 16 (xs.map fun x => f x + g x) := by
  induction xs with
  | nil => rfl
  | cons x xs ih =>
    simp only [map_cons, ofDigits_cons, ← ih]
    omega

theorem ofDigits_sub {f : ℕ → ℕ} (hf : ∀ x ∈ xs, f x ≤ x) :
    ofDigits 16 xs - ofDigits 16 (xs.map f) = ofDigits 16 (xs.map fun x => x - f x) := by
  have hadd := ofDigits_map_add f (fun x => x - f x) xs
  rw [map_congr_left fun x hx => Nat.add_sub_cancel' (hf x hx), map_id'] at hadd
  omega

theorem and_digit {m : ℕ} (hx : x < 16) (hm : m < 16) (y M : ℕ) :
    (x + 16 * y) &&& (m + 16 * M) = (x &&& m) + 16 * (y &&& M) := shiftRight_and_digit (k := 0) hm hx y M

/-- The multiplication adds the four bytes in the highest one. -/
theorem sum_bytes {a b c d : ℕ} (h : a + b + c + d < 2 ^ 8) :
    (a + 16 * (0 + 16 * (b + 16 * (0 + 16 * (c + 16 * (0 + 16 * (d + 16 * 0))))))) * 0x1010101 % 2
      ^ 32 / 2 ^ 24 = a + b + c + d := by
  have hlow : a + 2 ^ 8 * (a + b) + 2 ^ 16 * (a + b + c) < 2 ^ 24 := by omega
  have hproduct : (a + 16 * (0 + 16 * (b + 16 * (0 + 16 * (c + 16 * (0 + 16 * (d + 16 * 0))))))) *
      0x1010101 =
      (a + 2 ^ 8 * (a + b) + 2 ^ 16 * (a + b + c) + 2 ^ 24 * (a + b + c + d)) +
        2 ^ 32 * (b + c + d + 2 ^ 8 * (c + d) + 2 ^ 16 * d) := by
    ring
  rw [hproduct, add_mul_mod_self_left, mod_eq_of_lt (by omega), add_mul_div_left _ _ (by decide),
    div_eq_of_lt hlow, zero_add]

/-- The last line of `countBits` adds up eight digits that are at most four. -/
theorem sum_digits {cs : List ℕ} (hlen : cs.length = 8) (hcs : ∀ c ∈ cs, c ≤ 4) :
    (((ofDigits 16 cs + (ofDigits 16 cs >>> 4)) &&& 0xF0F0F0F) * 0x1010101 % 2 ^ 32) >>> 24 =
      cs.sum := by
  match cs, hlen with
  | [c0, c1, c2, c3, c4, c5, c6, c7], _ =>
    simp only [mem_cons, not_mem_nil, or_false, forall_eq_or_imp, forall_eq] at hcs
    have hshf : ofDigits 16 [c0, c1, c2, c3, c4, c5, c6, c7] >>> 4 = ofDigits 16 [c1, c2, c3, c4,
        c5, c6, c7] := by
      rw [ofDigits_cons, shiftRight_eq_div_pow, add_mul_div_left _ _ (by decide),
        div_eq_of_lt (by omega), zero_add]
    have hsum : ofDigits 16 [c0, c1, c2, c3, c4, c5, c6, c7] + ofDigits 16 [c1, c2, c3, c4, c5, c6, c7] =
        c0 + c1 + 16 * (c1 + c2 + 16 * (c2 + c3 +
          16 * (c3 + c4 + 16 * (c4 + c5 + 16 * (c5 + c6 + 16 * (c6 + c7 + 16 * c7)))))) := by
      simp only [ofDigits_cons, ofDigits_nil]
      ring
    have hfifteen : ∀ x, x < 16 → x &&& 15 = x := fun x hx => by
      rw [and_two_pow_sub_one_eq_mod x 4, mod_eq_of_lt hx]
    rw [hshf, hsum, show 0xF0F0F0F =
      15 + 16 * (0 + 16 * (15 + 16 * (0 + 16 * (15 + 16 * (0 + 16 * (15 + 16 * 0)))))) by rfl]
    iterate 7 rw [and_digit (by omega) (by decide)]
    simp only [and_zero, hfifteen (c0 + c1) (by omega), hfifteen (c2 + c3) (by omega),
      hfifteen (c4 + c5) (by omega), hfifteen (c6 + c7) (by omega), shiftRight_eq_div_pow,
      sum_cons, sum_nil]
    rw [sum_bytes (by omega)]
    omega

theorem countBits_eq (hv : v < 2 ^ 32) : countBits v = (setBits v 32).length := by
  obtain ⟨xs, hlen, hxs, rfl⟩ : ∃ xs : List ℕ, xs.length = 8 ∧ (∀ x ∈ xs, x < 16) ∧
      ofDigits 16 xs = v := by
    refine ⟨[v % 16, v / 16 % 16, v / 16 ^ 2 % 16, v / 16 ^ 3 % 16, v / 16 ^ 4 % 16,
      v / 16 ^ 5 % 16, v / 16 ^ 6 % 16, v / 16 ^ 7 % 16], rfl, ?_, ?_⟩
    · simp only [mem_cons, not_mem_nil, or_false]
      omega
    · simp only [ofDigits_cons, ofDigits_nil]
      omega
  have hct : ∀ x ∈ xs, _ := fun x hx => digit_count x (hxs x hx)
  have hmask : ∀ m, ofDigits 16 (xs.map fun _ => m) = m * 0x11111111 := by
    intro m
    rw [map_const', hlen]
    simp only [replicate, ofDigits_cons, ofDigits_nil]
    omega
  have hfst : ofDigits 16 xs - (ofDigits 16 xs >>> 1 &&& 0x55555555) =
      ofDigits 16 (xs.map fun x => x - (x >>> 1 &&& 5)) := by
    rw [← ofDigits_sub fun x hx => (hct x hx).1, ← shiftRight_and_ofDigits (by decide) hxs, hmask]
  have hsec : (ofDigits 16 (xs.map fun x => x - (x >>> 1 &&& 5)) &&& 0x33333333) +
      (ofDigits 16 (xs.map fun x => x - (x >>> 1 &&& 5)) >>> 2 &&& 0x33333333) =
        ofDigits 16 (xs.map fun x => (setBits x 4).length) := by
    have hlt : ∀ y ∈ xs.map fun x => x - (x >>> 1 &&& 5), y < 16 := forall_mem_map.mpr fun x hx =>
      (hct x hx).2.1
    have hlow := shiftRight_and_ofDigits (k := 0) (m := 3) (by decide) hlt
    have hhigh := shiftRight_and_ofDigits (k := 2) (m := 3) (by decide) hlt
    simp only [map_map, Function.comp_def, hmask, shiftRight_zero] at hlow hhigh
    rw [hlow, hhigh, ofDigits_map_add]
    congr 1
    exact map_congr_left fun x hx => (hct x hx).2.2.1
  have hbits := length_setBits_ofDigits hxs
  rw [hlen] at hbits
  simp only [countBits, hfst, hsec]
  rw [sum_digits (by simpa using hlen) (forall_mem_map.mpr fun x hx => (hct x hx).2.2.2), ← hbits]

/-- The positions of the bits set from `k` on. -/
def ahead (v k n : ℕ) : List ℕ := (range' k (n - k)).filter v.testBit

theorem setBits_eq_ahead (v n : ℕ) : setBits v n = ahead v 0 n := by
  rw [setBits, ahead, range_eq_range', Nat.sub_zero]

theorem ahead_of_lt (h : k < n) : ahead v k n =
      if v.testBit k then k :: ahead v (k + 1) n else ahead v (k + 1) n := by
  rw [ahead, show n - k = n - (k + 1) + 1 by omega, range'_succ, filter_cons]
  rfl

theorem ahead_of_le (h : n ≤ k) : ahead v k n = [] := by
  rw [ahead, Nat.sub_eq_zero_of_le h]
  rfl

theorem ahead_eq_nil_iff (hv : v < 2 ^ n) : ahead v k n = [] ↔ v >>> k = 0 := by
  rw [ahead, filter_eq_nil_iff]
  constructor
  · intro h
    apply eq_of_testBit_eq
    intro i
    rw [testBit_shiftRight, zero_testBit]
    obtain hi | hi := lt_or_ge (k + i) n
    · simpa using h (k + i) (mem_range'_1.mpr (by omega))
    · exact Nat.testBit_lt_two_pow (hv.trans_le (Nat.pow_le_pow_right (by decide) hi))
  · intro h i hi
    have hbit := testBit_shiftRight (i := k) (j := i - k) v
    rw [mem_range'_1] at hi
    rw [h, Nat.zero_testBit, Nat.add_sub_cancel' hi.1] at hbit
    rw [← hbit]
    decide

/-- The inner loop stops at the next set bit. -/
theorem findKey_spec {p fuel : ℕ} {ps : List ℕ} (hn : n ≤ 32) (h : ahead v k n = p :: ps)
    (hfuel : n - k ≤ fuel) :
    findKey v fuel k = .ok p ∧ p < n ∧ ahead v (p + 1) n = ps := by
  induction fuel generalizing k with
  | zero => simp [ahead_of_le (show n ≤ k by omega)] at h
  | succ fuel ih =>
    obtain hk | hk := lt_or_ge k n
    · have hbit : (v >>> k &&& 1 = 0) ↔ v.testBit k = false := by
        rw [Nat.testBit, Nat.and_comm]
        simp
      rw [ahead_of_lt hk] at h
      simp only [findKey, shiftRight, if_pos (hk.trans_le hn), bind, Except.bind, hbit, pure,
        Except.pure]
      cases hk' : v.testBit k with
      | true =>
        simp only [hk', if_true, cons.injEq] at h
        obtain ⟨rfl, rfl⟩ := h
        simpa using hk
      | false =>
        simp only [hk', Bool.false_eq_true, if_false] at h
        simpa using ih h (by omega)
    · simp [ahead_of_le hk] at h

section

variable (c : SigChecks)

def checkPairs : List (Valtype × Valtype) → Except Exit Unit
  | [] => .ok ()
  | pair :: pairs => do
    checkPair c pair.1 pair.2
    checkPairs pairs

variable {c} {e : Exit}

/-- One signature for each bit ahead, checked in order. -/
theorem checkSigs_spec {stack : List Valtype} {v n idxBottomKey idxBottomSig nSigs : ℕ}
    {sig key : ℕ → Valtype} (hv : v < 2 ^ n) (hn : n < 32)
    (hsig : ∀ i < nSigs, stacktop stack (idxBottomSig - i) = .ok (sig i))
    (hkey : ∀ i < n, stacktop stack (idxBottomKey - i) = .ok (key i)) (ps : List ℕ)
    (iSig iKey count : ℕ) (hps : ahead v iKey n = ps) (hle : iKey ≤ n)
    (hlen : iSig + ps.length ≤ nSigs) :
    ∃ last ≤ n, v >>> last = 0 ∧
      checkSigs c stack v n idxBottomKey idxBottomSig ps.length iSig iKey count =
      (checkPairs c ((ps.zipIdx iSig).map fun p => (sig p.2, key p.1))).map fun _ =>
        (last, count + ps.length) := by
  induction ps generalizing iSig iKey count with
  | nil => exact ⟨iKey, hle, (ahead_eq_nil_iff hv).mp hps, rfl⟩
  | cons p ps ih =>
    rw [length_cons] at hlen
    obtain ⟨hfind, hp, hahead⟩ := findKey_spec hn.le hps (show n - iKey ≤ 32 by omega)
    have hne : v >>> iKey ≠ 0 := fun h => by simp [(ahead_eq_nil_iff hv).mpr h] at hps
    obtain ⟨last, hlast, hzero, hrest⟩ := ih (iSig + 1) (p + 1) (count + 1) hahead hp (by omega)
    refine ⟨last, hlast, hzero, ?_⟩
    simp only [length_cons, checkSigs, shiftRight, if_pos (show iKey < 32 by omega), bind,
      Except.bind, hne, if_false, hfind, ge_iff_le, not_le.mpr hp, hsig iSig (by omega), hkey p hp,
      hrest, zipIdx_cons, map_cons, checkPairs]
    cases checkPair c (sig iSig) (key p) with
    | error e => rfl
    | ok _ => simp [add_assoc, add_comm 1]

theorem checkPair_error {sig key : Valtype} (h : checkPair c sig key = .error e) :
    ∃ s, e = .error s := by
  simp only [checkPair, bind, bind] at h
  cases hs : c.CheckSignatureEncoding sig <;> cases hk : c.CheckPubKeyEncoding key <;>
    simp only [hs, hk, liftError] at h <;> split_ifs at h <;> cases h
  all_goals exact ⟨_, rfl⟩

theorem checkPairs_error {pairs : List (Valtype × Valtype)} (h : checkPairs c pairs = .error e) :
    ∃ s, e = .error s := by
  induction pairs with
  | nil => cases h
  | cons pair pairs ih =>
    simp only [checkPairs, bind, bind] at h
    cases hpair : checkPair c pair.1 pair.2 with
    | error _ =>
      simp only [hpair] at h
      cases h
      exact checkPair_error hpair
    | ok _ =>
      simp only [hpair] at h
      exact ih h

theorem checkPairs_ok_iff {pairs : List (Valtype × Valtype)}
    (hsig : ∀ pair ∈ pairs, c.CheckSignatureEncoding pair.1 = .ok ())
    (hkey : ∀ pair ∈ pairs, c.CheckPubKeyEncoding pair.2 = .ok ()) :
    checkPairs c pairs = .ok () ↔ ∀ pair ∈ pairs, c.CheckSig pair.1 pair.2 := by
  induction pairs with
  | nil => simp [checkPairs]
  | cons pair pairs ih =>
    rw [forall_mem_cons] at hsig hkey
    simp only [checkPairs, checkPair, hsig.1, hkey.1, liftError, bind, Except.bind,
      forall_mem_cons, ← ih hsig.2 hkey.2]
    cases c.CheckSig pair.1 pair.2 <;> simp [throw, throwThe, MonadExceptOf.throw, pure, Except.pure]

theorem setBits_of_lt {v n : ℕ} (hv : v < 2 ^ n) (hn : n ≤ 32) : setBits v 32 = setBits v n := by
  obtain ⟨m, hm⟩ := Nat.exists_eq_add_of_le hn
  have hnone : ((range m).map (n + ·)).filter v.testBit = [] := by
    rw [filter_eq_nil_iff, forall_mem_map]
    intro i _
    rw [Nat.testBit_lt_two_pow (hv.trans_le (Nat.pow_le_pow_right (by decide) (Nat.le_add_right n i)))]
    decide
  rw [setBits, hm, range_add, filter_append, hnone, append_nil, setBits]

theorem decodeBitfield_eq {vch : Valtype} {size : ℕ} (hsize : size ≤ 32) : decodeBitfield vch size =
    if vch.length ≠ (size + 7) / 8 then .error (.error .INVALID_BITFIELD_SIZE)
    else if decode vch < 2 ^ size then .ok (decode vch) else .error (.error .INVALID_BIT_RANGE) := by
  rw [decodeBitfield, if_neg (not_lt.mpr hsize)]
  split_ifs with hlen hlt
  · rfl
  all_goals
    have hbits : (orBytes 0 0#32 vch).toNat = decode vch := by
      have hdec : decode vch < 2 ^ 32 :=
        (decode_lt vch).trans_le (Nat.pow_le_pow_right (n := 256) (j := 4) (by decide) (by omega))
      have hor := orBytes_eq 32 0 0 vch (by decide)
      rw [hor, BitVec.toNat_ofNat, mul_zero, pow_zero, zero_add, one_mul, mod_eq_of_lt hdec]
    have hpow := Nat.pow_le_pow_right (show 0 < 2 by decide) hsize
    have hpos := Nat.two_pow_pos size
    simp only [hbits, mod_eq_of_lt (show 2 ^ size - 1 < 2 ^ 32 by omega), and_two_pow_sub_one_eq_mod]
  · rw [if_neg (not_not.mpr (mod_eq_of_lt hlt))]
  · rw [if_pos fun h => hlt ((mod_eq_iff_lt hpos.ne').mp h)]

/-- What the operation finds on the stack. Keys and signatures are numbered from the bottom. -/
structure Multisig where
  keyCount : Valtype
  keys : List Valtype
  sigCount : Valtype
  sigs : List Valtype
  dummy : Valtype
  rest : List Valtype

namespace Multisig

def stack (m : Multisig) : List Valtype :=
  m.keyCount :: (m.keys.reverse ++ m.sigCount :: (m.sigs.reverse ++ m.dummy :: m.rest))

def bits (m : Multisig) : List ℕ := setBits (decode m.dummy) m.keys.length

/-- The signatures, each with the key at its bit. -/
def pairs (m : Multisig) : List (Valtype × Valtype) := m.bits.zipIdx.map fun p =>
    (m.sigs.getD p.2 [], m.keys.getD p.1 [])

/-- The numbers on the stack are right and the operation comes to its Schnorr mode. -/
structure InMode (m : Multisig) (fRequireMinimal : Bool) (nOpCount : ℕ) : Prop where
  keys : CScriptNum m.keyCount fRequireMinimal = .ok m.keys.length
  max : m.keys.length ≤ MAX_PUBKEYS_PER_MULTISIG
  sigs : CScriptNum m.sigCount fRequireMinimal = .ok m.sigs.length
  dummy : m.dummy ≠ []
  ops : nOpCount + m.keys.length ≤ MAX_OPS_PER_SCRIPT

variable (c) in
/-- The dummy sets one bit for each signature, which verifies against the key at that bit. -/
structure Designated (m : Multisig) : Prop where
  length : m.dummy.length = (m.keys.length + 7) / 8
  within : decode m.dummy < 2 ^ m.keys.length
  count : m.bits.length = m.sigs.length
  verified : ∀ j < m.sigs.length, c.CheckSig (m.sigs.getD j []) (m.keys.getD (m.bits.getD j 0) []) = true

variable (m : Multisig) {i : ℕ} {sigCheckCount : ℕ}

theorem stacktop_reverse (front xs back : List Valtype) (h : i < xs.length) :
    stacktop (front ++ (xs.reverse ++ back)) (front.length + xs.length - i) = .ok (xs.getD i []) := by
  have hget : (front ++ (xs.reverse ++ back))[front.length + xs.length - i - 1]? =
      some (xs.getD i []) := by
    rw [getElem?_append_right (by omega), getElem?_append_left (by rw [length_reverse]; omega),
      getElem?_reverse (by omega), getD_eq_getElem?_getD,
      show xs.length - 1 - (front.length + xs.length - i - 1 - front.length) =
        i by omega, getElem?_eq_getElem h]
    rfl
  rw [stacktop, hget]
  exact if_neg (by omega)

theorem stacktop_key (h : i < m.keys.length) : stacktop m.stack (2 + m.keys.length - 1 - i) =
      .ok (m.keys.getD i []) := by
  rw [show 2 + m.keys.length - 1 - i = [m.keyCount].length + m.keys.length - i
    by rw [length_singleton]; omega]
  exact stacktop_reverse [m.keyCount] m.keys _ h

theorem stacktop_sigCount : stacktop m.stack (2 + m.keys.length) = .ok m.sigCount := by
  have htop := stacktop_reverse (m.keyCount :: m.keys.reverse) [m.sigCount]
    (m.sigs.reverse ++ m.dummy :: m.rest) one_pos
  rw [length_cons, length_reverse, length_singleton] at htop
  rwa [show 2 + m.keys.length = m.keys.length + 1 + 1 - 0 by omega]

theorem stacktop_sig (h : i < m.sigs.length) :
    stacktop m.stack (2 + m.keys.length + 1 + m.sigs.length - 1 - i) = .ok (m.sigs.getD i []) := by
  have htop := stacktop_reverse (m.keyCount :: (m.keys.reverse ++ [m.sigCount])) m.sigs
    (m.dummy :: m.rest) h
  simp only [cons_append, append_assoc, nil_append, length_cons, length_append, length_reverse,
    length_nil] at htop
  rwa [show 2 + m.keys.length + 1 + m.sigs.length - 1 - i = m.keys.length + (0 + 1) + 1 +
    m.sigs.length - i by omega]

theorem stacktop_dummy : stacktop m.stack (2 + m.keys.length + 1 + m.sigs.length) = .ok m.dummy := by
  have htop := stacktop_reverse (m.keyCount :: (m.keys.reverse ++ m.sigCount :: m.sigs.reverse))
    [m.dummy] m.rest one_pos
  simp only [cons_append, append_assoc, length_cons, length_append, length_reverse, length_nil,
    reverse_singleton, nil_append] at htop
  rwa [show 2 + m.keys.length + 1 + m.sigs.length = m.keys.length + (m.sigs.length + 1) + 1 +
    (0 + 1) - 0 by omega]

/-- The whole mode as one equation: after the checks of the bitfield only the signatures decide. -/
theorem schnorrMultisig_eq (hmax : m.keys.length < 32) :
    schnorrMultisig c m.stack m.keys.length m.sigs.length sigCheckCount =
      if m.dummy.length ≠ (m.keys.length + 7) / 8 then .error (.error .INVALID_BITFIELD_SIZE)
      else if decode m.dummy < 2 ^ m.keys.length then
        if m.bits.length ≠ m.sigs.length then .error (.error .INVALID_BIT_COUNT)
        else (checkPairs c m.pairs).map fun _ => sigCheckCount + m.sigs.length
      else .error (.error .INVALID_BIT_RANGE) := by
  simp only [schnorrMultisig, stacktop_dummy, bind, Except.bind, decodeBitfield_eq hmax.le]
  split_ifs with hlen hlt hct
  · rfl
  all_goals try
    have hbits := countBits_eq (hlt.trans_le (Nat.pow_le_pow_right (by decide) hmax.le))
    rw [setBits_of_lt hlt hmax.le, ← bits] at hbits
    dsimp only
  · rw [hbits, if_pos hct]
    rfl
  · obtain ⟨last, hlast, hzero, hrun⟩ := checkSigs_spec (c := c) hlt hmax (fun i hi => m.stacktop_sig hi)
      (fun i hi => m.stacktop_key hi) m.bits 0 0 sigCheckCount
        (setBits_eq_ahead (decode m.dummy) m.keys.length).symm
      (Nat.zero_le _) (by omega)
    rw [not_not.mp hct, ← pairs] at hrun
    rw [hbits, if_neg hct, hrun]
    cases checkPairs c m.pairs with
    | error e => rfl
    | ok _ =>
      simp only [Except.map, shiftRight, if_pos (show last < 32 by omega), hzero]
      rfl
  · rfl

variable {m}

theorem OP_CHECKMULTISIG_eq {fRequireMinimal : Bool} {legacy : ℕ → ℕ → Except Exit (Bool × ℕ)}
    {nOpCount : ℕ} (h : m.InMode fRequireMinimal nOpCount) :
    OP_CHECKMULTISIG c m.stack fRequireMinimal true legacy nOpCount sigCheckCount =
      if m.sigs.length > m.keys.length then .error (.error .SIG_COUNT)
      else (schnorrMultisig c m.stack m.keys.length m.sigs.length sigCheckCount).map
        fun count => ([1] :: m.rest, nOpCount + m.keys.length, count) := by
  have hlen : m.stack.length = m.keys.length + m.sigs.length + 3 + m.rest.length := by
    simp only [stack, length_cons, length_append, length_reverse]
    omega
  have hdrop : m.stack.drop (2 + m.keys.length + 1 + m.sigs.length) = m.rest := by
    have hfr : m.stack =
        (m.keyCount :: (m.keys.reverse ++ m.sigCount :: (m.sigs.reverse ++ [m.dummy]))) ++
        m.rest := by
      simp [stack]
    rw [hfr]
    apply drop_left'
    simp only [length_cons, length_append, length_reverse, length_nil]
    omega
  have hmax := h.max
  rw [MAX_PUBKEYS_PER_MULTISIG] at hmax
  have hgetKeys : getint m.keys.length = m.keys.length := by
    rw [getint]
    omega
  have hfst : stacktop m.stack 1 = .ok m.keyCount := rfl
  simp only [OP_CHECKMULTISIG, hlen, hfst, h.keys, liftError, hgetKeys, bind, Except.bind,
    MAX_PUBKEYS_PER_MULTISIG, Int.toNat_natCast, gt_iff_lt, not_lt.mpr h.ops, m.stacktop_sigCount,
    h.sigs, if_false]
  rw [if_neg (by omega), if_neg (by omega), if_neg (by omega)]
  by_cases hmany : m.keys.length < m.sigs.length
  · rw [if_pos hmany, if_pos (Or.inr (by rw [getint]; omega))]
    rfl
  · have hgetSigs : getint m.sigs.length = m.sigs.length := by
      rw [getint]
      omega
    rw [if_neg hmany, if_neg (by rw [hgetSigs]; omega)]
    simp only [hgetSigs, Int.toNat_natCast, stacktop_dummy]
    rw [if_neg (by omega), if_pos ⟨trivial, by simpa using h.dummy⟩, hdrop]
    cases schnorrMultisig c m.stack m.keys.length m.sigs.length sigCheckCount <;> rfl

theorem forall_pairs {P : Valtype → Valtype → Prop} :
    (∀ pair ∈ m.pairs, P pair.1 pair.2) ↔
      ∀ j < m.bits.length, P (m.sigs.getD j []) (m.keys.getD (m.bits.getD j 0) []) := by
  rw [pairs, forall_mem_map]
  constructor
  · intro h j hj
    have hbit : m.bits[j]? = some (m.bits.getD j 0) := by
      rw [getD_eq_getElem?_getD, getElem?_eq_getElem hj]
      rfl
    exact h (m.bits.getD j 0, j) (mem_zipIdx_iff_getElem?.mpr hbit)
  · intro h p hp
    have hbit := List.mem_zipIdx_iff_getElem?.mp hp
    have hpair := h p.2 (List.getElem?_eq_some_iff.mp hbit).1
    rwa [List.getD_eq_getElem?_getD (a := 0), hbit] at hpair

theorem checkPairs_verified (hlen : m.bits.length ≤ m.sigs.length)
    (hsig : ∀ sig ∈ m.sigs, c.CheckSignatureEncoding sig = .ok ())
    (hkey : ∀ key ∈ m.keys, c.CheckPubKeyEncoding key = .ok ()) : checkPairs c m.pairs = .ok () ↔
      ∀ j < m.bits.length, c.CheckSig (m.sigs.getD j []) (m.keys.getD (m.bits.getD j 0) []) := by
  have hmem : ∀ {α : Type} (l : List α) (d : α) (i : ℕ), i < l.length → l.getD i d ∈ l := by
    intro α l d i hi
    rw [getD_eq_getElem?_getD, getElem?_eq_getElem hi]
    exact getElem_mem hi
  rw [← forall_pairs (P := fun sig key => c.CheckSig sig key = true)]
  apply checkPairs_ok_iff
  · apply (forall_pairs (P := fun sig _ => c.CheckSignatureEncoding sig = .ok ())).mpr
    intro j hj
    exact hsig _ (hmem m.sigs [] j (by omega))
  · apply (forall_pairs (P := fun _ key => c.CheckPubKeyEncoding key = .ok ())).mpr
    intro j hj
    exact hkey _ (hmem m.keys [] _ (mem_range.mp (mem_filter.mp (hmem m.bits 0 j hj)).1))

/-- In Schnorr mode the operation is true exactly for the designated signatures, and counts each. -/
theorem schnorr_designated {fRequireMinimal : Bool} {legacy : ℕ → ℕ → Except Exit (Bool × ℕ)}
    {nOpCount sigCheckCount : ℕ} (h : m.InMode fRequireMinimal nOpCount)
    (hsig : ∀ sig ∈ m.sigs, c.CheckSignatureEncoding sig = .ok ())
    (hkey : ∀ key ∈ m.keys, c.CheckPubKeyEncoding key = .ok ()) :
    let result := OP_CHECKMULTISIG c m.stack fRequireMinimal true legacy nOpCount sigCheckCount
    ((∃ after, result = .ok after ∧ after.1.head? = some [1]) ↔ m.Designated c) ∧
      (∀ after, result = .ok after → after = ([1] :: m.rest, nOpCount + m.keys.length,
        sigCheckCount + m.sigs.length)) ∧
      ∀ e, result = .error e → ∃ s, e = .error s := by
  intro result
  have hres : result = _ := OP_CHECKMULTISIG_eq h
  rw [m.schnorrMultisig_eq (h.max.trans_lt (by decide))] at hres
  have hfewer := length_filter_le (decode m.dummy).testBit (range m.keys.length)
  rw [length_range, ← setBits, ← bits] at hfewer
  have hver := checkPairs_verified (c := c) (m := m)
  split_ifs at hres with hmany hlen hlt hct
  -- where the bitfield is refused the signatures are not designated
  · have hnot : ¬m.Designated c := fun hd => by have := hd.count; omega
    simp [hres, hnot]
  · have hnot : ¬m.Designated c := fun hd => hlen hd.length
    simp [hres, hnot, Except.map]
  · have hnot : ¬m.Designated c := fun hd => hct hd.count
    simp [hres, hnot, Except.map]
  · rw [not_not] at hlen hct
    have hver := hver hct.le hsig hkey
    cases hprs : checkPairs c m.pairs with
    | error e =>
      obtain ⟨s, rfl⟩ := checkPairs_error hprs
      rw [hprs] at hres hver
      have hres : result = .error (.error s) := hres
      have hnot : ¬m.Designated c := fun hd => by simpa using hver.mpr (hct ▸ hd.verified)
      simp [hres, hnot]
    | ok _ =>
      rw [hprs] at hres
      have hres : result = .ok ([1] :: m.rest, nOpCount + m.keys.length,
          sigCheckCount + m.sigs.length) := hres
      have hdesignated : m.Designated c := ⟨hlen, hlt, hct, hct ▸ hver.mp hprs⟩
      simp [hres, hdesignated]
  · have hnot : ¬m.Designated c := fun hd => hlt hd.within
    simp [hres, hnot, Except.map]

/-- Two of three, with signatures that verify against the key they are equal to. -/
theorem schnorr_designated_two_of_three :
    ∃ after, OP_CHECKMULTISIG ⟨fun _ => .ok (), fun _ => .ok (), fun sig key => sig == key⟩
      (stack ⟨[3], [[1], [2], [3]], [2], [[1], [3]], [5], []⟩) true true (fun _ _ =>
        .error .outside) 0 0 = .ok after ∧ after.1.head? = some [1] :=
  (schnorr_designated ⟨rfl, by decide, rfl, by decide, by decide⟩ (fun _ _ => rfl) (fun _ _ =>
    rfl)).1.mpr
    ⟨by decide, by decide, by decide, by decide⟩

end Multisig

end

end FloweeHub.Script
