import FloweeHub.Lib.Supply
import FloweeHub.Validation.Chunk

/-! What it takes for the chunks of a block to pass: every input is resolved to a record, against
what earlier inputs have left, and each transaction is judged by its records. This holds for the
database and for the two maps of a block that is only checked. -/

namespace FloweeHub.Validation

open Lib Supply List

variable {f : TxInput → Option UnspentOutput} {txs : List (Transaction × ℕ)} {res : List ResolvedTx}
  {t : Transaction × ℕ}

/-- A transaction with the records it spends. -/
structure ResolvedTx where
  tx : Transaction
  txIndex : ℕ
  spent : List UnspentOutput
deriving DecidableEq, Repr

/-- The inputs that are looked up: those of the coinbase are skipped. -/
def inputsOf (t : Transaction × ℕ) : List TxInput := if t.2 = 0 then [] else t.1.findInputs

section Supply

variable {σ : Type*} (S : Supply TxInput UnspentOutput σ)

def resolveTxs : List (Transaction × ℕ) → σ → Option (List ResolvedTx)
  | [], _ => some []
  | t :: rest, x =>
    (S.resolve (inputsOf t) x).bind fun us =>
      (resolveTxs rest (S.left (inputsOf t) x)).map (⟨t.1, t.2, us⟩ :: ·)

variable {S} {x : σ} {res : List ResolvedTx} {txs : List (Transaction × ℕ)}

theorem resolveTxs_nil_eq_some : resolveTxs S [] x = some res ↔ res = [] := by
  simp [resolveTxs, eq_comm]

theorem resolveTxs_cons_eq_some {rest : List (Transaction × ℕ)} : resolveTxs S (t :: rest) x = some res ↔
      ∃ us rs, S.resolve (inputsOf t) x = some us ∧
        resolveTxs S rest (S.left (inputsOf t) x) = some rs ∧ res = ⟨t.1, t.2, us⟩ :: rs := by
  simp only [resolveTxs, Option.bind_eq_some_iff, Option.map_eq_some_iff]
  constructor
  · rintro ⟨us, hus, rs, hrs, rfl⟩
    exact ⟨us, rs, hus, hrs, rfl⟩
  · rintro ⟨us, rs, hus, hrs, rfl⟩
    exact ⟨us, hus, rs, hrs, rfl⟩

theorem resolveTxs_append_eq_some {xs ys : List (Transaction × ℕ)} :
    resolveTxs S (xs ++ ys) x = some res ↔
      ∃ vs ws, resolveTxs S xs x = some vs ∧ resolveTxs S ys (S.left (xs.flatMap inputsOf) x) = some ws ∧
        res = vs ++ ws := by
  induction xs generalizing x res with
  | nil => simp [resolveTxs]
  | cons t xs ih =>
    simp only [cons_append, resolveTxs_cons_eq_some, ih, flatMap_cons, left_append]
    constructor
    · rintro ⟨us, _, hus, ⟨vs, ws, hvs, hws, rfl⟩, rfl⟩
      exact ⟨_, ws, ⟨us, vs, hus, hvs, rfl⟩, hws, rfl⟩
    · rintro ⟨_, ws, ⟨us, vs, hus, hvs, rfl⟩, hws, rfl⟩
      exact ⟨us, vs ++ ws, hus, ⟨vs, ws, hvs, hws, rfl⟩, rfl⟩

/-- The resolved transactions are the given ones, each with a record for every input. -/
def Shape (txs : List (Transaction × ℕ)) (res : List ResolvedTx) : Prop :=
  List.Forall₂ (fun t r => r.tx = t.1 ∧ r.txIndex = t.2 ∧ (inputsOf t).length = r.spent.length) txs res

theorem Shape.map_pair (h : Shape txs res) : res.map (fun r => (r.tx, r.txIndex)) = txs := by
  induction h with
  | nil => rfl
  | cons hr _ ih => rw [map_cons, ih, hr.1, hr.2.1]

theorem Shape.map_tx (h : Shape txs res) : res.map ResolvedTx.tx = txs.map Prod.fst := by
  rw [← h.map_pair, map_map]
  rfl

theorem Shape.coinbase (h : Shape txs res) : ∀ r ∈ res, r.txIndex = 0 → r.spent = [] := by
  induction h with
  | nil => simp
  | cons hr _ ih =>
    refine forall_mem_cons.mpr ⟨fun hix => ?_, ih⟩
    have hlen := hr.2.2
    rw [inputsOf, if_pos (hr.2.1 ▸ hix)] at hlen
    exact eq_nil_of_length_eq_zero hlen.symm

/-- All inputs together are resolved to the records of all transactions together. -/
theorem resolveTxs_iff : resolveTxs S txs x = some res ↔
      S.resolve (txs.flatMap inputsOf) x = some (res.flatMap ResolvedTx.spent) ∧ Shape txs res := by
  induction txs generalizing x res with
  | nil =>
    rw [resolveTxs_nil_eq_some, flatMap_nil, resolve_nil_eq_some, Shape, forall₂_nil_left_iff]
    exact ⟨fun h => ⟨by simp [h], h⟩, And.right⟩
  | cons t rest ih =>
    rw [resolveTxs_cons_eq_some, flatMap_cons, resolve_append_eq_some]
    constructor
    · rintro ⟨us, rs, hus, hrs, rfl⟩
      obtain ⟨h1, h2⟩ := ih.mp hrs
      exact ⟨⟨us, _, hus, h1, rfl⟩, .cons ⟨rfl, rfl, (length_of_resolve hus).symm⟩ h2⟩
    · rintro ⟨⟨us, vs, hus, hvs, heq⟩, hsp⟩
      cases hsp with
      | @cons _ r _ rs hr hrest =>
        obtain ⟨htx, hix, hlen⟩ := hr
        obtain ⟨hhead, htail⟩ := append_inj heq (hlen.symm.trans (length_of_resolve hus).symm)
        subst hhead htail
        exact ⟨_, rs, hus, ih.mpr ⟨hvs, hrest⟩, by rw [← htx, ← hix]⟩

end Supply

/-- Every input is resolved by a fixed function. -/
def Located (f : TxInput → Option UnspentOutput) (txs : List (Transaction × ℕ))
    (res : List ResolvedTx) : Prop :=
  List.Forall₂ (fun t r => r.tx = t.1 ∧ r.txIndex = t.2 ∧
    List.Forall₂ (fun i u => f i = some u) (inputsOf t) r.spent) txs res

theorem located_iff : Located f txs res ↔
      List.Forall₂ (fun i u => f i = some u) (txs.flatMap inputsOf) (res.flatMap ResolvedTx.spent) ∧
        Shape txs res := by
  constructor
  · intro h
    induction h with
    | nil => exact ⟨.nil, .nil⟩
    | cons hr _ ih =>
      obtain ⟨htx, hix, hspt⟩ := hr
      exact ⟨rel_append hspt ih.1, .cons ⟨htx, hix, hspt.length_eq⟩ ih.2⟩
  · rintro ⟨hall, hsp⟩
    induction hsp with
    | nil => exact .nil
    | @cons t r txs res hr _ ih =>
      obtain ⟨htx, hix, hlen⟩ := hr
      rw [flatMap_cons, flatMap_cons] at hall
      have htake := forall₂_take (inputsOf t).length hall
      have hdrop := forall₂_drop (inputsOf t).length hall
      rw [take_left, take_left' hlen.symm] at htake
      rw [drop_left, drop_left' hlen.symm] at hdrop
      exact .cons ⟨htx, hix, htake⟩ (ih hdrop)

section

variable (h : Located f txs res)
include h

/-- The order of the transactions does not matter when the resolution is fixed. -/
theorem Located.perm {txs' : List (Transaction × ℕ)} (hperm : txs'.Perm txs) :
    ∃ res', Located f txs' res' ∧ res'.Perm res := by
  obtain ⟨res', h1, h2⟩ := perm_comp_forall₂ hperm h
  exact ⟨res', h1, h2⟩

theorem Located.mono {g : TxInput → Option UnspentOutput}
    (hfg : ∀ i ∈ txs.flatMap inputsOf, ∀ u, f i = some u → g i = some u) : Located g txs res := by
  rw [located_iff] at h ⊢
  refine ⟨forall₂_iff_zip.mpr ⟨h.1.length_eq, fun {i u} hiu => ?_⟩, h.2⟩
  exact hfg i (of_mem_zip hiu).1 u ((forall₂_iff_zip.mp h.1).2 hiu)

theorem Located.isSome : ∀ i ∈ txs.flatMap inputsOf, (f i).isSome := by
  intro i hi
  have hall := (located_iff.mp h).1
  obtain ⟨k, hk, rfl⟩ := mem_iff_getElem.mp hi
  exact Option.isSome_iff_exists.mpr ⟨_, hall.get hk (hall.length_eq ▸ hk)⟩

theorem Located.unique {res' : List ResolvedTx} (h' : Located f txs res') : res = res' := by
  refine right_unique_forall₂' (fun {t r r'} hr hr' => ?_) h h'
  obtain ⟨htx, hix, hspt⟩ := hr
  obtain ⟨htx', hix', hspt'⟩ := hr'
  have heq : r.spent = r'.spent :=
    right_unique_forall₂' (fun {i u u'} hu hu' => Option.some.inj (hu.symm.trans hu')) hspt hspt'
  cases r
  cases r'
  simp_all

end

theorem resolveTxs_once_iff : resolveTxs once txs f = some res ↔ (txs.flatMap inputsOf).Nodup ∧
      Located f txs res := by
  rw [resolveTxs_iff, resolve_once_iff, located_iff, and_assoc]

/-! ### Chunks that spend -/

namespace BlockValidationState

variable (env : CheckEnv) (st : BlockValidationState) (H : ℤ) {us : List UnspentOutput}
  {c c' : ChunkVars}

/-- The previous outputs behind the records, if all of them can be read. -/
def prevOuts : List UnspentOutput → Option (List PrevOut)
  | [] => some []
  | u :: us =>
    match st.prevOut env u with
    | .error _ => none
    | .ok ps => (prevOuts us).map (ps ++ ·)

theorem prevOuts_cons_eq_some {u : UnspentOutput} {ps : List PrevOut} :
    st.prevOuts env (u :: us) = some ps ↔
      ∃ qs rs, st.prevOut env u = .ok qs ∧ st.prevOuts env us = some rs ∧ ps = qs ++ rs := by
  cases h : st.prevOut env u with
  | error t => simp [prevOuts, h]
  | ok qs => simp [prevOuts, h, eq_comm]

/-- What the checks of a transaction say about it and the records it spends. -/
def txResult (r : ResolvedTx) : Option (Option (ℤ × ℕ)) :=
  (st.prevOuts env r.spent).bind fun ps =>
    (st.checkFees env H r.txIndex r.tx ⟨r.spent.map UnspentOutput.blockHeight, ps⟩).toOption

/-- What a transaction that passes does to the variables, when spending does `move`. -/
def passTx (move : ChunkVars → UnspentOutput → ChunkVars) (c : ChunkVars) (r : ResolvedTx) : ChunkVars :=
  let c := r.spent.foldl move c
  let s : SpentVars := ⟨r.spent.map UnspentOutput.blockHeight, (st.prevOuts env r.spent).getD []⟩
  st.finishTx r.tx ((st.txResult env H r).getD none)
    { c with sums := c.sums ++ st.feeSums env H r.txIndex r.tx s }

/-- Spending takes an input out of the supply that `view` sees, as long as `Inv` holds. -/
structure SpendsFrom {σ : Type*} (S : Supply TxInput UnspentOutput σ) (view : ChunkVars → σ)
    (move : ChunkVars → UnspentOutput → ChunkVars) (Inv : ChunkVars → Prop) : Prop where
  spend : ∀ {i c c' s}, Inv c → (st.spendInput env H i c = (c', .ok s) ↔
    ∃ u ps, S.find i (view c) = some u ∧ st.prevOut env u = .ok ps ∧ s = ⟨[u.blockHeight], ps⟩ ∧
      c' = move c u)
  after : ∀ {i c u}, Inv c → S.find i (view c) = some u → Inv (move c u) ∧
    view (move c u) = S.take i (view c)
  frame : ∀ {c c' : ChunkVars}, c'.utxo = c.utxo → c'.txMap = c.txMap → c'.spentMap = c.spentMap →
    (Inv c → Inv c') ∧ view c' = view c

variable {env st H} {σ : Type*} {S : Supply TxInput UnspentOutput σ} {view : ChunkVars → σ}
  {move : ChunkVars → UnspentOutput → ChunkVars} {Inv : ChunkVars → Prop} {inputs : List TxInput}

theorem SpendsFrom.spendInputs_ok_iff (hS : st.SpendsFrom env H S view move Inv)
    {s : SpentVars} (hc : Inv c) : st.spendInputs env H inputs c = (c', .ok s) ↔
      ∃ us ps, S.resolve inputs (view c) = some us ∧ st.prevOuts env us = some ps ∧
        s = ⟨us.map UnspentOutput.blockHeight, ps⟩ ∧ c' = us.foldl move c := by
  induction inputs generalizing c c' s with
  | nil => simp [spendInputs, resolve, prevOuts, eq_comm, and_comm]
  | cons i rest ih =>
    unfold spendInputs
    constructor
    · intro h
      split at h
      next => cases h
      next c1 s1 h1 =>
        split at h
        next => cases h
        next c2 s2 h2 =>
          cases h
          obtain ⟨u, ps, hu, hps, rfl, rfl⟩ := (hS.spend hc).mp h1
          obtain ⟨hc', hview⟩ := hS.after hc hu
          obtain ⟨us, qs, hus, hqs, rfl, rfl⟩ := (ih hc').mp h2
          rw [hview] at hus
          exact ⟨u :: us, ps ++ qs, resolve_cons_eq_some.mpr ⟨u, us, hu, hus, rfl⟩,
            (prevOuts_cons_eq_some env st).mpr ⟨ps, qs, hps, hqs, rfl⟩, rfl, rfl⟩
    · rintro ⟨us, ps, hus, hps, rfl, rfl⟩
      obtain ⟨u, vs, hu, hvs, rfl⟩ := resolve_cons_eq_some.mp hus
      obtain ⟨qs, rs, hqs, hrs, rfl⟩ := (prevOuts_cons_eq_some env st).mp hps
      obtain ⟨hc', hview⟩ := hS.after hc hu
      rw [← hview] at hvs
      rw [(hS.spend hc).mpr ⟨u, qs, hu, hqs, rfl, rfl⟩]
      simp only [(ih hc').mpr ⟨vs, rs, hvs, hrs, rfl, rfl⟩]
      rfl

/-- The end of a transaction leaves all maps alone. -/
theorem finishTx_frame (tx : Transaction) (r : Option (ℤ × ℕ)) (c : ChunkVars) :
    (st.finishTx tx r c).utxo = c.utxo ∧ (st.finishTx tx r c).txMap = c.txMap ∧
      (st.finishTx tx r c).spentMap = c.spentMap := by
  unfold finishTx
  cases r <;> dsimp only <;> split_ifs <;> exact ⟨rfl, rfl, rfl⟩

variable (hS : st.SpendsFrom env H S view move Inv)

include hS

/-- Spending the records that the inputs resolve to keeps the invariant. -/
theorem SpendsFrom.foldl_move (hc : Inv c) (h : S.resolve inputs (view c) = some us) :
    Inv (us.foldl move c) ∧ view (us.foldl move c) = S.left inputs (view c) := by
  induction inputs generalizing c us with
  | nil =>
    obtain rfl := resolve_nil_eq_some.mp h
    exact ⟨hc, rfl⟩
  | cons i rest ih =>
    obtain ⟨u, vs, hu, hvs, rfl⟩ := resolve_cons_eq_some.mp h
    obtain ⟨hc', hview⟩ := hS.after hc hu
    rw [← hview] at hvs
    obtain ⟨h1, h2⟩ := ih hc' hvs
    exact ⟨h1, by rw [foldl_cons, h2, hview, left_cons]⟩

theorem SpendsFrom.passTx (hc : Inv c) (h : S.resolve (inputsOf t) (view c) = some us) :
    Inv (st.passTx env H move c ⟨t.1, t.2, us⟩) ∧
      view (st.passTx env H move c ⟨t.1, t.2, us⟩) = S.left (inputsOf t) (view c) := by
  obtain ⟨hinv, hview⟩ := hS.foldl_move hc h
  unfold BlockValidationState.passTx
  dsimp only
  generalize (st.txResult env H ⟨t.1, t.2, us⟩).getD none = r
  generalize hd : ({ us.foldl move c with
    sums := _ } : ChunkVars) = d
  obtain ⟨h1, h2, h3⟩ := @finishTx_frame st t.1 r d
  have hframe := hS.frame (c := us.foldl move c) (h1.trans (by rw [← hd])) (h2.trans (by rw [← hd]))
    (h3.trans (by rw [← hd]))
  exact ⟨hframe.1 hinv, hframe.2.trans hview⟩

theorem SpendsFrom.checkTx_pass_iff (hc : Inv c) : st.checkTx env H t c = (c', none) ↔
      ∃ us, S.resolve (inputsOf t) (view c) = some us ∧ (st.txResult env H ⟨t.1, t.2, us⟩).isSome ∧
        c' = st.passTx env H move c ⟨t.1, t.2, us⟩ := by
  unfold checkTx
  constructor
  · intro h
    split at h
    next => cases h
    next c1 s h1 =>
      obtain ⟨us, ps, hus, hps, rfl, rfl⟩ := (hS.spendInputs_ok_iff hc).mp h1
      refine ⟨us, hus, ?_⟩
      split at h
      next => cases h
      next r hr =>
        cases h
        simp [txResult, BlockValidationState.passTx, hps, hr, Except.toOption]
  · rintro ⟨us, hus, hres, rfl⟩
    obtain ⟨r, hr⟩ := Option.isSome_iff_exists.mp hres
    obtain ⟨ps, hps, hr'⟩ := Option.bind_eq_some_iff.mp hr
    have hfees : st.checkFees env H t.2 t.1 ⟨us.map UnspentOutput.blockHeight, ps⟩ = .ok r := by
      cases hc : st.checkFees env H t.2 t.1 ⟨us.map UnspentOutput.blockHeight, ps⟩ with
      | error e => simp [hc, Except.toOption] at hr'
      | ok r1 => simpa [hc, Except.toOption] using hr'
    rw [show (if t.2 = 0 then [] else t.1.findInputs) = inputsOf t from rfl,
      (hS.spendInputs_ok_iff hc).mpr ⟨us, ps, hus, hps, rfl, rfl⟩]
    simp [hfees, BlockValidationState.passTx, hr, hps]

/-- Exactly when all can be resolved, one after the other, and pass their checks. -/
theorem SpendsFrom.checkTxs_pass_iff {txs : List (Transaction × ℕ)} (hc : Inv c) :
    st.checkTxs env H txs c = (c', none) ↔
      ∃ res, resolveTxs S txs (view c) = some res ∧ (∀ r ∈ res, (st.txResult env H r).isSome) ∧
        c' = res.foldl (st.passTx env H move) c := by
  induction txs generalizing c c' with
  | nil =>
    simp only [checkTxs, resolveTxs, Prod.mk.injEq, and_true]
    constructor
    · rintro rfl
      exact ⟨[], rfl, by simp, rfl⟩
    · rintro ⟨_, ⟨⟩, -, rfl⟩
      rfl
  | cons t rest ih =>
    unfold checkTxs
    constructor
    · intro h
      split at h
      next => cases h
      next c1 h1 =>
        obtain ⟨us, hus, hres, rfl⟩ := (hS.checkTx_pass_iff hc).mp h1
        obtain ⟨hc', hview⟩ := hS.passTx hc hus
        obtain ⟨rs, hrs, hpass, rfl⟩ := (ih hc').mp h
        rw [hview] at hrs
        exact ⟨_, resolveTxs_cons_eq_some.mpr ⟨us, rs, hus, hrs, rfl⟩,
          forall_mem_cons.mpr ⟨hres, hpass⟩, rfl⟩
    · rintro ⟨res, hres, hpass, rfl⟩
      obtain ⟨us, rs, hus, hrs, rfl⟩ := resolveTxs_cons_eq_some.mp hres
      obtain ⟨hhead, htail⟩ := forall_mem_cons.mp hpass
      obtain ⟨hc', hview⟩ := hS.passTx hc hus
      rw [(hS.checkTx_pass_iff hc).mpr ⟨us, hus, hhead, rfl⟩]
      exact (ih hc').mpr ⟨rs, by rw [hview]; exact hrs, htail, rfl⟩

theorem SpendsFrom.checkTxs_none_iff {txs : List (Transaction × ℕ)} (hc : Inv c) :
    (st.checkTxs env H txs c).2 = none ↔
      ∃ res, resolveTxs S txs (view c) = some res ∧ ∀ r ∈ res, (st.txResult env H r).isSome := by
  constructor
  · intro h
    obtain ⟨res, hres, hpass, -⟩ := (hS.checkTxs_pass_iff hc).mp (Prod.ext rfl h)
    exact ⟨res, hres, hpass⟩
  · rintro ⟨res, hres, hpass⟩
    rw [(hS.checkTxs_pass_iff hc).mpr ⟨res, hres, hpass, rfl⟩]

omit hS

theorem checkSignaturesChunk_valid_iff (hinv : st.status.invalid = false) (split : ChunkSplit) (k : ℕ)
    (utxo : UnspentOutputDatabase) :
    (st.checkSignaturesChunk env H split k utxo).2.status.invalid = false ↔
      (st.checkTxs env H (st.chunkTxs split k)
        { utxo := utxo, txMap := st.txMap, spentMap := st.spentMap }).2 = none := by
  unfold checkSignaturesChunk
  simp only [hinv, Bool.false_eq_true, if_false]
  split
  next h => exact iff_of_true hinv h
  next t h => exact iff_of_false (by simp) (by simp [h])

end BlockValidationState

end FloweeHub.Validation
