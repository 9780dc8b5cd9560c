import FloweeHub.Validation.BlockRules

/-! What records of unspent outputs are worth. A transaction that passes spends at least what it
pays out and charges, even where the sum of its inputs wraps. -/

namespace FloweeHub.Validation

open Lib BlockData List
open scoped List

/-- What the records are worth; `out` is the output that an outpoint stands for. -/
def value (out : TxInput → TxOut) (us : List UnspentOutput) : ℤ :=
  (us.map fun u => (out u.outpoint).nValue).sum

section

variable {out : TxInput → TxOut} {us : List UnspentOutput}

@[simp] theorem value_nil : value out [] = 0 := rfl

@[simp] theorem value_append (us vs : List UnspentOutput) :
    value out (us ++ vs) = value out us + value out vs := by
  simp [value]

theorem value_perm {vs : List UnspentOutput} (h : us ~ vs) : value out us = value out vs :=
  (h.map _).sum_eq

theorem value_nonneg (h : ∀ u ∈ us, 0 ≤ (out u.outpoint).nValue) : 0 ≤ value out us :=
  sum_nonneg fun v hv => by
    obtain ⟨u, hu, rfl⟩ := mem_map.mp hv
    exact h u hu

variable {α : Type*} {b : FastBlock}

theorem value_flatMap (f : α → List UnspentOutput) (l : List α) :
    value out (l.flatMap f) = (l.map fun a => value out (f a)).sum := by
  induction l with
  | nil => rfl
  | cons a l ih => rw [flatMap_cons, value_append, ih, map_cons, sum_cons]

end

/-- The outpoints that the iterator makes stand for the outputs it met. -/
def Names (out : TxInput → TxOut) (b : FastBlock) : Prop :=
  ∀ t ∈ b.walk, ∀ i : ℕ, ∀ o, t.vout[i]? = some o → out ⟨t.txid, i⟩ = o

instance (out : TxInput → TxOut) (b : FastBlock) : Decidable (Names out b) :=
  decidable_of_iff (∀ t ∈ b.walk, ∀ x ∈ t.vout.zipIdx, out ⟨t.txid, x.2⟩ = x.1) <| by
    simp only [Names, Prod.forall, mk_mem_zipIdx_iff_getElem?]
    exact forall₂_congr fun _ _ => forall_comm

theorem value_records {out : TxInput → TxOut} (H : ℤ) {t : TxWalk} (hne : t.vout ≠ [])
    (hnames : ∀ i : ℕ, ∀ o, t.vout[i]? = some o → out ⟨t.txid, i⟩ = o) :
    value out ((txOutputs t).records H) = (t.vout.map TxOut.nValue).sum := by
  have hlen : ((txOutputs t).lastOutput - (txOutputs t).firstOutput + 1).toNat = t.vout.length := by
    rw [(txOutputs_range t).1, (txOutputs_range t).2.2 hne]
    omega
  unfold value TxOutputs.records
  rw [hlen, (txOutputs_range t).1, map_map]
  congr 1
  refine ext_getElem (by simp) fun i hi _ => ?_
  have hi' : i < t.vout.length := by simpa using hi
  simp [UnspentOutput.outpoint, txOutputs, TxOutputs.mk', hnames i _ (getElem?_eq_getElem hi')]

theorem value_blockRecords {out : TxInput → TxOut} (H : ℤ) (hnames : Names out b)
    (hne : ∀ t ∈ b.walk, t.vout ≠ []) : value out (records ⟨H, b.walk.map txOutputs⟩) =
      (b.walk.map fun t => (t.vout.map TxOut.nValue).sum).sum := by
  rw [records, flatMap_map, value_flatMap]
  refine congrArg sum (map_congr_left fun t ht => ?_)
  exact value_records H (hne t ht) (hnames t ht)

theorem sum_zipIdx_tail (f : α → ℤ) (l : List α) :
    (l.zipIdx.map fun t => if t.2 = 0 then 0 else f t.1).sum = (l.tail.map f).sum := by
  have hlat : ∀ (l : List α) (n : ℕ), (l.zipIdx (n + 1)).map (fun t =>
      if t.2 = 0 then 0 else f t.1) = l.map f := by
    intro l
    induction l with
    | nil => intro n; rfl
    | cons a l ih => intro n; simp [ih]
  cases l with
  | nil => rfl
  | cons a l => simp [hlat]

namespace BlockValidationState

variable {out : TxInput → TxOut} {env : CheckEnv} {st : BlockValidationState} {H : ℤ}
  {r : ResolvedTx} {res : List ResolvedTx} {us : List UnspentOutput} {ps : List PrevOut}
  {x : Option (ℤ × ℕ)}

/-! ### Transactions that pass -/

/-- Where a record can be read at all, it gives the output that its outpoint stands for. -/
def ReadsTo (out : TxInput → TxOut) (env : CheckEnv) (us : List UnspentOutput) : Prop :=
  ∀ u ∈ us, ∀ o, env.read u = .ok o → o = out u.outpoint

instance (env : CheckEnv) (us : List UnspentOutput) : Decidable (ReadsTo out env us) :=
  decidable_of_iff (∀ u ∈ us, (env.read u).toOption.all fun o => o = out u.outpoint) <| by
    refine forall₂_congr fun u _ => ?_
    cases env.read u <;> simp [Except.toOption]

variable (hval : st.flags.enableValidation)

include hval

theorem amounts_prevOuts (hrd : ReadsTo out env us) (h : st.prevOuts env us = some ps) :
    ps.map PrevOut.amount = us.map fun u => (out u.outpoint).nValue := by
  induction us generalizing ps with
  | nil =>
    obtain rfl : [] = ps := by simpa [prevOuts] using h
    rfl
  | cons u us ih =>
    obtain ⟨hu, hus⟩ := forall_mem_cons.mp hrd
    obtain ⟨qs, rs, hqs, hrs, rfl⟩ := (prevOuts_cons_eq_some env st).mp h
    have hone : qs.map PrevOut.amount = [(out u.outpoint).nValue] := by
      simp only [prevOut, hval, Bool.true_or, if_true] at hqs
      split at hqs
      · cases hqs
      next o ho =>
        cases hqs
        rw [hu o ho]
        rfl
    rw [map_append, hone, ih hus hrs]
    rfl

theorem valueIn_prevOuts (hrd : ReadsTo out env us) (h : st.prevOuts env us = some ps) :
    valueIn ps = Wrap64.wrap (value out us) := by
  rw [valueIn, amounts_prevOuts hval hrd h, Wrap64.sumFrom_eq_wrap 0 (by decide), zero_add, value]

/-- What a transaction that passes pays out and charges is the wrapped sum of its inputs. -/
theorem txResult_spec
    (hrd : ReadsTo out env r.spent) (hix : r.txIndex ≠ 0) (h : st.txResult env H r = some x) :
    ∃ n, x = some (Wrap64.wrap (value out r.spent) - r.tx.valueOut, n) ∧
      r.tx.valueOut ≤ Wrap64.wrap (value out r.spent) := by
  obtain ⟨ps, hps, hx⟩ := Option.bind_eq_some_iff.mp h
  have hpos : 0 < r.txIndex := Nat.pos_of_ne_zero hix
  unfold checkFees at hx
  simp only [hval, hpos, decide_true, Bool.and_self, if_true] at hx
  split_ifs at hx
  · cases hx
  · cases hv : validateTransactionInputs env.verify r.tx ps H st.flags false with
    | error t => simp [hv, Except.toOption] at hx
    | ok y =>
      obtain ⟨hvalid, n, rfl⟩ := validateTransactionInputs_ok hv
      rw [← valueIn_prevOuts hval hrd hps]
      simp only [hv, Guards.ok_bind, Except.toOption, Option.some.injEq] at hx
      exact ⟨_, hx.symm, hvalid.enough⟩

omit hval

theorem txResult_coinbase (hix : r.txIndex = 0) (h : st.txResult env H r = some x) : x = none := by
  obtain ⟨ps, -, hx⟩ := Option.bind_eq_some_iff.mp h
  simpa [checkFees, hix, Except.toOption, eq_comm] using hx

/-- What a transaction pays out; the coinbase is counted apart. -/
def paid (r : ResolvedTx) : ℤ := if r.txIndex = 0 then 0 else r.tx.valueOut

/-- What a transaction charges on top of that. -/
def charged (out : TxInput → TxOut) (r : ResolvedTx) : ℤ :=
  if r.txIndex = 0 then 0 else Wrap64.wrap (value out r.spent) - r.tx.valueOut

/-- What is lost when the sum of the inputs wraps. -/
def lost (out : TxInput → TxOut) (r : ResolvedTx) : ℤ :=
  value out r.spent - Wrap64.wrap (value out r.spent)

theorem charged_nonneg (hval : st.flags.enableValidation)
    (hrd : ReadsTo out env r.spent) (h : (st.txResult env H r).isSome) : 0 ≤ charged out r := by
  obtain ⟨x, hx⟩ := Option.isSome_iff_exists.mp h
  unfold charged
  split_ifs with hix
  · exact le_rfl
  · obtain ⟨-, -, hle⟩ := txResult_spec hval hrd hix hx
    omega

theorem fees_sum (hval : st.flags.enableValidation)
    (hrd : ∀ r ∈ res, ReadsTo out env r.spent) (h : ∀ r ∈ res, (st.txResult env H r).isSome) :
    (st.fees env H res).sum = (res.map (charged out)).sum := by
  induction res with
  | nil => rfl
  | cons r res ih =>
    obtain ⟨hr, hrd⟩ := forall_mem_cons.mp hrd
    obtain ⟨hsome, h⟩ := forall_mem_cons.mp h
    obtain ⟨x, hx⟩ := Option.isSome_iff_exists.mp hsome
    rw [map_cons, sum_cons, ← ih hrd h]
    unfold charged fees
    split_ifs with hix
    · obtain rfl := txResult_coinbase hix hx
      simp [hx]
    · obtain ⟨n, rfl, -⟩ := txResult_spec hval hr hix hx
      simp [hx]

/-- Nothing comes from nowhere: what is spent is paid out, charged or lost. -/
theorem spent_balance (hcb : ∀ r ∈ res, r.txIndex = 0 → r.spent = []) :
    value out (res.flatMap ResolvedTx.spent) =
      (res.map paid).sum + (res.map (charged out)).sum + (res.map (lost out)).sum := by
  induction res with
  | nil => rfl
  | cons r res ih =>
    obtain ⟨hr, hres⟩ := forall_mem_cons.mp hcb
    have hone : value out r.spent = paid r + charged out r + lost out r := by
      unfold paid charged lost
      split_ifs with hix
      · rw [hr hix, value_nil]
        decide
      · ring
    simp only [flatMap_cons, value_append, ih hres, map_cons, sum_cons, hone]
    ring

def coinbaseValue (b : FastBlock) : ℤ := (b.vtx.head?.map Transaction.valueOut).getD 0

/-- What a block leaves, charges and loses is what was there and what its coinbase pays. -/
theorem block_balance {base : List UnspentOutput} {txs : List (Transaction × ℕ)}
    (hwalk : b.WalkAgrees) (hnames : Names out b) (hne : ∀ tx ∈ b.vtx, tx.vout ≠ [])
    (htxs : txs ~ b.vtx.zipIdx)
    (hres : resolveTxs spending txs (base ++ records ⟨H, b.walk.map txOutputs⟩) = some res) :
    value out (spending.left (txs.flatMap inputsOf) (base ++ records ⟨H, b.walk.map txOutputs⟩)) +
      (res.map (charged out)).sum + (res.map (lost out)).sum = value out base + coinbaseValue b := by
  obtain ⟨hrsl, hsp⟩ := resolveTxs_iff.mp hres
  have hall : value out (base ++ records ⟨H, b.walk.map txOutputs⟩) =
      value out (res.flatMap ResolvedTx.spent) + value out (spending.left (txs.flatMap inputsOf)
        (base ++ records ⟨H, b.walk.map txOutputs⟩)) :=
    (value_perm (Supply.perm_of_resolve_bag hrsl).2.1).trans (value_append _ _)
  have hmade : value out (records ⟨H, b.walk.map txOutputs⟩) = (b.vtx.map Transaction.valueOut).sum := by
    rw [value_blockRecords H hnames fun t ht => ?_, hwalk.1, FastBlock.vtx, map_map, map_map]
    · rfl
    · rw [hwalk.1] at ht
      obtain ⟨t', ht', rfl⟩ := mem_map.mp ht
      exact hne _ (mem_map_of_mem ht')
  have hpaid : (res.map paid).sum = (b.vtx.tail.map Transaction.valueOut).sum := by
    rw [← sum_zipIdx_tail, ← (htxs.map _).sum_eq, ← hsp.map_pair, map_map]
    rfl
  have hspl : (b.vtx.map Transaction.valueOut).sum =
      coinbaseValue b + (b.vtx.tail.map Transaction.valueOut).sum := by
    unfold coinbaseValue
    cases b.vtx <;> simp
  rw [value_append, hmade, hspl, spent_balance hsp.coinbase, hpaid] at hall
  omega

end BlockValidationState

end FloweeHub.Validation
