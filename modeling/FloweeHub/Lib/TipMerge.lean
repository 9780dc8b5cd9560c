import FloweeHub.Lib.Bisect
import Mathlib.Data.List.GetD

/-! Merging sorted lists: the first items are kept as sorted tips, the smallest tip is taken, and
the next item of its list is sorted in. -/

namespace FloweeHub.Lib.TipMerge

open List Prod

variable {α κ : Type*}

/-- The tips, each with the number of its list, and what is left of the lists. -/
structure State (α : Type*) where
  tips : List (α × ℕ)
  parts : List (List α)

variable (cmp : α → α → Ordering) {parts : List (List α)} {x : α} {xs : List α}

/-- There is no result if the tips hold an equal item. -/
def sortIn (tips : List (α × ℕ)) (tip : α × ℕ) : Option (List (α × ℕ)) :=
  match Bisect.bisect (Bisect.at? (fun t => cmp t.1 tip.1) tips) tips.length 0 tips.length with
  | .found _ => none
  | .missing l => some (tips.take l ++ tip :: tips.drop l)

def sortInTip (s : State α) (i : ℕ) : Option (State α) :=
  match s.parts.getD i [] with
  | [] => none
  | x :: xs => (sortIn cmp s.tips (x, i)).map fun tips => ⟨tips, s.parts.set i xs⟩

def start (parts : List (List α)) : Option (State α) :=
  (range parts.length).foldlM (sortInTip cmp) ⟨[], parts⟩

def refill (s : State α) (i : ℕ) : Option (State α) :=
  if s.parts.getD i [] = [] then some s else sortInTip cmp s i

def drain (cmp : α → α → Ordering) : ℕ → State α → Option (List α)
  | 0, _ => some []
  | turns + 1, s =>
    match s.tips with
    | [] => some []
    | tip :: tips => do
      let s ← refill cmp ⟨tips, s.parts⟩ tip.2
      let rest ← drain cmp turns s
      some (tip.1 :: rest)

def merge (cmp : α → α → Ordering) (parts : List (List α)) : Option (List α) := do
  let s ← start cmp parts
  drain cmp parts.flatten.length s

theorem flatten_set_perm {i : ℕ} (h : parts.getD i [] = x :: xs) :
    parts.flatten.Perm (x :: (parts.set i xs).flatten) := by
  induction parts generalizing i with
  | nil => simp at h
  | cons part parts ih =>
    cases i with
    | zero =>
      obtain rfl : part = x :: xs := by simpa using h
      simp
    | succ i =>
      have := ih (i := i) (by simpa using h)
      exact (this.append_left part).trans perm_middle

theorem getD_set_self {i : ℕ} (h : parts.getD i [] = x :: xs) : (parts.set i xs).getD i [] = xs := by
  have hi : i < parts.length := by
    by_contra hge
    rw [getD_eq_default _ _ (by omega)] at h
    exact absurd h (by simp)
  simp [getD_eq_getElem?_getD, getElem?_set_self hi]

theorem getD_set_ne {i j : ℕ} (xs : List α) (h : i ≠ j) :
    (parts.set i xs).getD j [] = parts.getD j [] := by
  simp [getD_eq_getElem?_getD, getElem?_set_ne h]

theorem mem_flatten_of_mem_getD {i : ℕ} (h : x ∈ parts.getD i []) : x ∈ parts.flatten := by
  by_cases hi : i < parts.length
  · rw [getD_eq_getElem _ _ hi] at h
    exact mem_flatten.mpr ⟨_, getElem_mem hi, h⟩
  · rw [getD_eq_default _ _ (by omega)] at h
    exact absurd h not_mem_nil

variable [LinearOrder κ] {cmp : α → α → Ordering} {key : α → κ} {s : State α} {i : ℕ}

def State.items (s : State α) : List α := s.tips.map fst ++ s.parts.flatten

/-- Tips and lists are sorted, a tip comes before the rest of its list, and no key occurs twice. -/
structure Ordered (key : α → κ) (s : State α) : Prop where
  tips : s.tips.Pairwise fun a b => key a.1 < key b.1
  parts : ∀ i, (s.parts.getD i []).Pairwise fun a b => key a < key b
  tip_lt : ∀ t ∈ s.tips, ∀ y ∈ s.parts.getD t.2 [], key t.1 < key y
  distinct : (s.items.map key).Nodup

variable (hcmp : ∀ a b, cmp a b = compare (key a) (key b)) {tips : List (α × ℕ)} {tip : α × ℕ}
include hcmp

/-- A tip with a new key finds its place. -/
theorem sortIn_spec (h : tips.Pairwise fun a b => key a.1 < key b.1)
    (hnew : ∀ t ∈ tips, key t.1 ≠ key tip.1) :
    ∃ tips', sortIn cmp tips tip = some tips' ∧ tips'.Perm (tip :: tips) ∧ tips'.Pairwise fun a b =>
      key a.1 < key b.1 := by
  obtain ⟨l, hl, hsm, hlg⟩ :=
    @Bisect.bisect_missing _ _ _ (fun t : α × ℕ => key t.1) (fun t => cmp t.1 tip.1) tips (key tip.1)
      (fun t => hcmp t.1 tip.1) h hnew
  refine ⟨tips.take l ++ tip :: tips.drop l, by rw [sortIn, hl], ?_, ?_⟩
  · have hperm : (tips.take l ++ tip :: tips.drop l).Perm (tip :: (tips.take l ++ tips.drop l)) :=
      perm_middle
    rwa [take_append_drop] at hperm
  · have hspl : (tips.take l ++ tips.drop l).Pairwise fun a b => key a.1 < key b.1 := by
      rwa [take_append_drop]
    obtain ⟨htake, hdrop, hcross⟩ := pairwise_append.mp hspl
    refine pairwise_append.mpr ⟨htake, pairwise_cons.mpr ⟨hlg, hdrop⟩, fun a ha b hb => ?_⟩
    rcases mem_cons.mp hb with rfl | hb
    · exact hsm a ha
    · exact hcross a ha b hb

/-- The next item of a list becomes a tip. -/
theorem sortInTip_spec (h : Ordered key s) (hpart : s.parts.getD i [] = x :: xs) :
    ∃ s', sortInTip cmp s i = some s' ∧ Ordered key s' ∧ s'.tips.Perm ((x, i) :: s.tips) ∧
      s'.parts = s.parts.set i xs ∧ s'.items.Perm s.items := by
  have hflat := flatten_set_perm hpart
  have hnew : ∀ t ∈ s.tips, key t.1 ≠ key x := by
    intro t ht heq
    have hnd := h.distinct
    rw [State.items, map_append, nodup_append] at hnd
    refine hnd.2.2 (key t.1) (mem_map_of_mem (mem_map_of_mem ht)) (key x) ?_ heq
    exact mem_map_of_mem (mem_flatten_of_mem_getD (by rw [hpart]; simp))
  obtain ⟨tips', htips', hperm, hsrt⟩ := @sortIn_spec _ _ _ cmp key hcmp s.tips (x, i) h.tips hnew
  have hits : (State.items ⟨tips', s.parts.set i xs⟩).Perm s.items := by
    have h1 : (tips'.map fst).Perm (x :: s.tips.map fst) := hperm.map fst
    have h2 : (s.tips.map fst ++ (x :: (s.parts.set i xs).flatten)).Perm s.items :=
      hflat.symm.append_left _
    exact ((h1.append_right _).trans perm_middle.symm).trans h2
  refine ⟨⟨tips', s.parts.set i xs⟩,
    by rw [sortInTip, hpart]; simp [htips'], ⟨hsrt, ?_, ?_, ?_⟩, hperm, rfl, hits⟩
  · intro j
    by_cases hij : i = j
    · subst hij
      have := h.parts i
      rw [hpart] at this
      rw [getD_set_self hpart]
      exact (pairwise_cons.mp this).2
    · rw [getD_set_ne xs hij]
      exact h.parts j
  · intro t ht y hy
    rcases mem_cons.mp (hperm.mem_iff.mp ht) with rfl | ht
    · rw [getD_set_self hpart] at hy
      have := h.parts i
      rw [hpart] at this
      exact (pairwise_cons.mp this).1 y hy
    · refine h.tip_lt t ht y ?_
      by_cases hij : i = t.2
      · subst hij
        rw [getD_set_self hpart] at hy
        rw [hpart]
        exact mem_cons_of_mem x hy
      · rwa [getD_set_ne xs hij] at hy
  · exact (hits.map key).nodup_iff.mpr h.distinct

/-- Every list has its first item among the tips. -/
theorem start_spec (hne : ∀ part ∈ parts, part ≠ [])
    (hsrt : ∀ part ∈ parts, part.Pairwise fun a b => key a < key b)
    (hdis : (parts.flatten.map key).Nodup) :
    ∃ s, start cmp parts = some s ∧ Ordered key s ∧ s.items.Perm parts.flatten ∧
      ∀ i, s.parts.getD i [] ≠ [] → ∃ t ∈ s.tips, t.2 = i := by
  -- after `k` turns the first `k` lists have a tip and the others are untouched
  have hrg : ∀ k ≤ parts.length, ∃ s, (range k).foldlM (sortInTip cmp) ⟨[], parts⟩ = some s ∧
      Ordered key s ∧
      s.items.Perm parts.flatten ∧ (∀ i < k, ∃ t ∈ s.tips, t.2 = i) ∧ s.parts.length = parts.length ∧
      ∀ i, k ≤ i → s.parts.getD i [] = parts.getD i [] := by
    intro k hk
    induction k with
    | zero =>
      refine ⟨⟨[], parts⟩, rfl,
        ⟨List.Pairwise.nil, fun i => ?_, by simp, by simpa [State.items] using hdis⟩,
        by simp [State.items], by simp, rfl, fun _ _ => rfl⟩
      by_cases hi : i < parts.length
      · rw [getD_eq_getElem _ _ hi]
        exact hsrt _ (getElem_mem hi)
      · have hge : parts.length ≤ i := by omega
        rw [getD_eq_default _ _ hge]
        exact List.Pairwise.nil
    | succ k ih =>
      obtain ⟨s, hs, hord, hits, htips, hlen, hrest⟩ := ih (by omega)
      have hpart : s.parts.getD k [] ≠ [] := by
        rw [hrest k le_rfl, getD_eq_getElem _ _ (by omega)]
        exact hne _ (getElem_mem _)
      obtain ⟨x, xs, hx⟩ := exists_cons_of_ne_nil hpart
      obtain ⟨s', hs', hord', hperm, hpts, hits'⟩ := sortInTip_spec hcmp hord hx
      refine ⟨s', ?_, hord', hits'.trans hits, ?_, ?_, ?_⟩
      · rw [range_succ, foldlM_append, hs]
        simp [hs']
      · intro i hi
        rcases Nat.lt_succ_iff_lt_or_eq.mp hi with hi | rfl
        · obtain ⟨t, ht, hti⟩ := htips i hi
          exact ⟨t, hperm.mem_iff.mpr (mem_cons_of_mem _ ht), hti⟩
        · exact ⟨(x, i), hperm.mem_iff.mpr mem_cons_self, rfl⟩
      · rw [hpts, length_set, hlen]
      · intro i hi
        rw [hpts, getD_set_ne xs (by omega), hrest i (by omega)]
  obtain ⟨s, hs, hord, hits, htips, hlen, -⟩ := hrg parts.length le_rfl
  refine ⟨s, hs, hord, hits, fun i hi => htips i ?_⟩
  by_contra hge
  rw [getD_eq_default _ _ (by omega)] at hi
  exact hi rfl

section

variable (h : Ordered key s) (htips : s.tips = tip :: tips)
  (hcov : ∀ i, s.parts.getD i [] ≠ [] → ∃ t ∈ s.tips, t.2 = i)
include h htips hcov

omit hcmp in
theorem head_lt : ∀ y ∈ State.items ⟨tips, s.parts⟩, key tip.1 < key y := by
  have hsrt := h.tips
  rw [htips] at hsrt
  obtain ⟨hhead, -⟩ := pairwise_cons.mp hsrt
  intro y hy
  rcases mem_append.mp hy with hy | hy
  · obtain ⟨t, ht, rfl⟩ := mem_map.mp hy
    exact hhead t ht
  · obtain ⟨part, hpart, hy⟩ := mem_flatten.mp hy
    obtain ⟨i, hi, rfl⟩ := mem_iff_getElem.mp hpart
    rw [← getD_eq_getElem _ [] hi] at hy
    obtain ⟨t, ht, rfl⟩ := hcov i (ne_nil_of_mem hy)
    have hty := h.tip_lt t ht y hy
    rw [htips] at ht
    rcases mem_cons.mp ht with rfl | ht
    · exact hty
    · exact (hhead t ht).trans hty

/-- After the first tip is taken and replaced, the rest is as before. -/
theorem refill_spec :
    ∃ s', refill cmp ⟨tips, s.parts⟩ tip.2 = some s' ∧ Ordered key s' ∧
      s'.items.Perm (State.items ⟨tips, s.parts⟩) ∧
      ∀ i, s'.parts.getD i [] ≠ [] → ∃ t ∈ s'.tips, t.2 = i := by
  have hord : Ordered key (⟨tips, s.parts⟩ : State α) := by
    have hsrt := h.tips
    have hdis := h.distinct
    rw [State.items, htips, map_cons, cons_append, map_cons] at hdis
    rw [htips] at hsrt
    refine ⟨(pairwise_cons.mp hsrt).2, h.parts, fun t ht => h.tip_lt t ?_, (nodup_cons.mp hdis).2⟩
    rw [htips]
    exact mem_cons_of_mem tip ht
  have hoth : ∀ i ≠ tip.2, s.parts.getD i [] ≠ [] → ∃ t ∈ tips, t.2 = i := by
    intro i hi hpart
    obtain ⟨t, ht, rfl⟩ := hcov i hpart
    rw [htips] at ht
    rcases mem_cons.mp ht with rfl | ht
    · exact absurd rfl hi
    · exact ⟨t, ht, rfl⟩
  by_cases hemp : s.parts.getD tip.2 [] = []
  · refine ⟨⟨tips, s.parts⟩, if_pos hemp, hord, List.Perm.refl _, fun i hi => hoth i ?_ hi⟩
    rintro rfl
    exact hi hemp
  · obtain ⟨x, xs, hx⟩ := exists_cons_of_ne_nil hemp
    obtain ⟨s', hs', hord', hperm, hpts, hits⟩ := sortInTip_spec hcmp hord hx
    refine ⟨s', by rw [refill, if_neg hemp, hs'], hord', hits, fun i hi => ?_⟩
    by_cases hit : i = tip.2
    · exact ⟨(x, tip.2), hperm.mem_iff.mpr mem_cons_self, hit.symm⟩
    · rw [hpts, getD_set_ne xs (Ne.symm hit)] at hi
      obtain ⟨t, ht, hti⟩ := hoth i hit hi
      exact ⟨t, hperm.mem_iff.mpr (mem_cons_of_mem _ ht), hti⟩

end

/-- All items come out, and in order. -/
theorem drain_spec {turns : ℕ} (h : Ordered key s)
    (hcov : ∀ i, s.parts.getD i [] ≠ [] → ∃ t ∈ s.tips, t.2 = i) (hturns : s.items.length ≤ turns) :
    ∃ out, drain cmp turns s = some out ∧ out.Perm s.items ∧ out.Pairwise fun a b => key a < key b := by
  induction turns generalizing s with
  | zero =>
    obtain hnil := length_eq_zero_iff.mp (Nat.le_zero.mp hturns)
    exact ⟨[], rfl, by rw [hnil], List.Pairwise.nil⟩
  | succ turns ih =>
    cases htips : s.tips with
    | nil =>
      have hflat : s.parts.flatten = [] := by
        rw [flatten_eq_nil_iff]
        intro part hpart
        obtain ⟨i, hi, rfl⟩ := mem_iff_getElem.mp hpart
        by_contra hne
        rw [← getD_eq_getElem _ [] hi] at hne
        obtain ⟨t, ht, -⟩ := hcov i hne
        rw [htips] at ht
        exact absurd ht not_mem_nil
      refine ⟨[], by rw [drain, htips], ?_, List.Pairwise.nil⟩
      rw [State.items, htips, hflat]
      exact List.Perm.refl _
    | cons tip tips =>
      have hlt := head_lt h htips hcov
      obtain ⟨s', hs', hord, hits, hcov'⟩ := refill_spec hcmp h htips hcov
      have hspl : s.items = tip.1 :: State.items ⟨tips, s.parts⟩ := by
        rw [State.items, htips]
        rfl
      have hlen : s'.items.length ≤ turns := by
        rw [hspl, length_cons] at hturns
        rw [hits.length_eq]
        omega
      obtain ⟨out, hout, hperm, hpair⟩ := ih hord hcov' hlen
      refine ⟨tip.1 :: out, ?_, ?_, pairwise_cons.mpr ⟨fun y hy => ?_, hpair⟩⟩
      · rw [drain, htips]
        simp [hs', hout]
      · rw [hspl]
        exact (hperm.trans hits).cons _
      · exact hlt y (hits.mem_iff.mp (hperm.mem_iff.mp hy))

/-- Sorted lists without common keys are merged to the sorted list of their items. -/
theorem merge_spec (hne : ∀ part ∈ parts, part ≠ [])
    (hsrt : ∀ part ∈ parts, part.Pairwise fun a b => key a < key b)
    (hdis : (parts.flatten.map key).Nodup) :
    ∃ out, merge cmp parts = some out ∧ out.Perm parts.flatten ∧ out.Pairwise fun a b =>
      key a < key b := by
  obtain ⟨s, hs, hord, hits, hcov⟩ := start_spec hcmp hne hsrt hdis
  obtain ⟨out, hout, hperm, hpair⟩ := drain_spec hcmp hord hcov hits.length_eq.le
  exact ⟨out, by rw [merge, hs]; exact hout, hperm.trans hits, hpair⟩

end FloweeHub.Lib.TipMerge
