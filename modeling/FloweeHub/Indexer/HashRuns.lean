import FloweeHub.Indexer.HashRows
import FloweeHub.Lib.Runs
import Mathlib.Data.List.TakeWhile

/-! Sequences of calls on a storage of hashes that starts in an empty directory, with the points
that `append` returned beside it. What is proved of `lookup` and of the points holds after any such
sequence. -/

namespace FloweeHub.Indexer

open Lib List HashStorage Nat Prod Or

variable {rowss : List (List Uint256)} {l : HashList} {dbs : List HashList}

/-- A storage and the points returned for it; there is none after a call that did not return. -/
structure Session where
  storage : Option HashStorage
  points : List (Uint256 × HashIndexPoint)

/-- The calls of a storage. -/
inductive Call
  | append (hash : Uint256)
  | stabilize
  | finalize
  | reopen
deriving DecidableEq

namespace Session

def start : Session := ⟨some .create, []⟩

def step (σ : Session) : Call → Session
  | .append hash =>
    match σ.storage.bind (·.append hash) with
    | some (s, point) => ⟨some s, (hash, point) :: σ.points⟩
    | none => ⟨none, σ.points⟩
  | .stabilize => ⟨σ.storage.map fun s => { s with last := s.last.stabilize }, σ.points⟩
  | .finalize => ⟨σ.storage.bind (·.finalize), σ.points⟩
  | .reopen => ⟨σ.storage.map (·.reopen), σ.points⟩

/-- New hashes are appended and the database that is finalised has rows. Beyond that, `stabilize` is
only called when the cache holds something. -/
def Allowed (σ : Session) : Call → Prop
  | .append hash => hash ∉ σ.points.map fst
  | .stabilize => ∀ s ∈ σ.storage, s.last.cacheMap.entries ≠ []
  | .finalize => ∀ s ∈ σ.storage, 0 < s.last.nextId
  | .reopen => True

instance : ∀ (σ : Session) (c : Call), Decidable (σ.Allowed c)
  | σ, .append hash => inferInstanceAs (Decidable (hash ∉ σ.points.map fst))
  | σ, .stabilize => inferInstanceAs (Decidable (∀ s ∈ σ.storage, ¬ s.last.cacheMap.entries = []))
  | σ, .finalize => inferInstanceAs (Decidable (∀ s ∈ σ.storage, 0 < s.last.nextId))
  | _, .reopen => inferInstanceAs (Decidable True)

end Session

/-! ### Rows of a storage -/

def MOST_ROWS : ℕ := 9 * (CACHE_LIMIT + 1)

/-- A file of that many rows can be addressed with an `int`. -/
theorem mostRows_lt : RECORD * MOST_ROWS < 2 ^ 31 := by decide

/-- What is left for the rows of an open database, such that it never becomes too large. -/
structure Small (l : HashList) (rows : List Uint256) (k : ℕ) : Prop where
  parts : l.parts.length ≤ 8
  full : l.parts.length = 8 → k = rows.length
  cache : rows.length ≤ k + CACHE_LIMIT
  stored : k ≤ l.parts.length * (CACHE_LIMIT + 1)

theorem Small.rows_le {rows : List Uint256} {k : ℕ} (h : Small l rows k) : rows.length < MOST_ROWS := by
  have hstd := h.stored.trans (mul_le_mul_right _ h.parts)
  have hcac := h.cache
  simp only [MOST_ROWS, CACHE_LIMIT] at *
  omega

theorem exists_of_mem_forall₂ {α β : Type*} {R : α → β → Prop} {l1 : List α} {l2 : List β}
    (h : List.Forall₂ R l1 l2) {a : α} (ha : a ∈ l1) : ∃ b, R a b := by
  induction h with
  | nil => simp at ha
  | cons hab _ ih =>
    rcases mem_cons.mp ha with rfl | ha
    · exact ⟨_, hab⟩
    · exact ih ha

/-- A database that is finalised, with the rows it was given. -/
def Stored (l : HashList) (rows : List Uint256) : Prop := (∃ records, Final l rows records) ∧
    rows.length ≤ MOST_ROWS

/-- The rows of all databases: those in front and, in the last one, the first `k` in parts. -/
structure Holds (s : HashStorage) (stored : List (List Uint256)) (rows : List Uint256) (k : ℕ) :
    Prop where
  front : List.Forall₂ Stored s.front stored
  last : Open s.last rows k
  small : Small s.last rows k
  nodup : (stored ++ [rows]).flatten.Nodup

theorem small_createEmpty : Small .createEmpty [] 0 :=
  ⟨zero_le _, fun h => absurd h (by decide), zero_le _, zero_le _⟩

theorem holds_create : Holds .create [] [] 0 := ⟨.nil, open_createEmpty, small_createEmpty, nodup_nil⟩

section Operations

variable {s : HashStorage} {stored : List (List Uint256)} {rows : List Uint256} {k : ℕ} {hash : Uint256}

/-- A cache may have one row more than the limit when it becomes a part. -/
theorem small_stabilize (hpts : l.parts.length < 8) (hcac : rows.length ≤ k + (CACHE_LIMIT + 1))
    (hstd : k ≤ l.parts.length * (CACHE_LIMIT + 1)) : Small l.stabilize rows rows.length := by
  have hlen : l.stabilize.parts.length = l.parts.length + 1 := length_append
  refine ⟨by omega, fun _ => rfl, by omega, ?_⟩
  rw [hlen, add_mul]
  omega

theorem Holds.stabilize (h : Holds s stored rows k) (hk : k < rows.length) :
    Holds { s with last := s.last.stabilize } stored rows rows.length where
  __ := h
  last := h.last.stabilize hk
  small := by
    have hne : s.last.parts.length ≠ 8 := fun hc => hk.ne (h.small.full hc)
    have hle := h.small.parts
    have hcac := h.small.cache
    exact small_stabilize (by omega) (by omega) h.small.stored

theorem holds_finalize (hfr : List.Forall₂ Stored s.front stored) (hlast : Open s.last rows k)
    (hmost : rows.length ≤ MOST_ROWS) (hnd : (stored ++ [rows]).flatten.Nodup) :
    ∃ s', s.finalize = some s' ∧ Holds s' (stored ++ [rows]) [] 0 := by
  obtain ⟨l, rs, hl, hfin⟩ := hlast.finalize
  refine ⟨⟨s.front ++ [l], .createEmpty⟩,
    by rw [finalize, hl]; rfl, ?_, open_createEmpty, small_createEmpty, ?_⟩
  · exact rel_append hfr (.cons ⟨⟨rs, hfin⟩, hmost⟩ .nil)
  · simpa using hnd

/-- The row is in the last database or, if there were many parts, that one is now in front. -/
theorem Holds.append (h : Holds s stored rows k) (hnew : hash ∉ (stored ++ [rows]).flatten) :
    ∃ s' stored' rows' k', s.append hash = some (s', ⟨stored.length, rows.length⟩) ∧
      Holds s' stored' rows' k' ∧ (stored' = stored ∧ rows' = rows ++ [hash] ∧
          k' = (if s.last.cacheMap.entries.length = CACHE_LIMIT then rows.length + 1 else k) ∨
        s.last.parts ≠ [] ∧ stored' = stored ++ [rows ++ [hash]] ∧ rows' = []) := by
  have hrow : hash ∉ rows := fun hc => hnew (by simp [hc])
  have hopen := h.last.append hrow
  have hlen := hopen.length_cache
  have hcac := h.small.cache
  have hbef := h.last.length_cache
  have hnd : (stored ++ [rows ++ [hash]]).flatten.Nodup := by
    have hflat : (stored ++ [rows ++ [hash]]).flatten = (stored ++ [rows]).flatten ++ [hash] := by simp
    rw [hflat]
    exact nodup_append.mpr ⟨h.nodup, nodup_singleton _, fun a ha b hb hab => by
      rw [hab, mem_singleton.mp hb] at ha
      exact hnew ha⟩
  have hpt : (⟨s.front.length, (s.last.append hash).2⟩ : HashIndexPoint) =
      ⟨stored.length, rows.length⟩ := by
    rw [h.front.length_eq, show (s.last.append hash).2 = _ from h.last.nextId]
  have hrows : (rows ++ [hash]).length = rows.length + 1 := by simp
  rw [hrows] at hlen
  simp only [HashStorage.append]
  rw [hpt, hlen]
  have hpts := h.small.parts
  -- with eight parts the cache was empty, so that it is not full now
  have height : s.last.parts.length = 8 → k = rows.length := h.small.full
  have hlim : 0 < CACHE_LIMIT := by decide
  by_cases hfull : CACHE_LIMIT < rows.length + 1 - k
  · rw [if_pos hfull, if_pos (by omega)]
    refine ⟨_, stored, rows ++ [hash], _, rfl, ⟨h.front, hopen.stabilize (by omega), ?_, hnd⟩,
      inl ⟨rfl, rfl, hrows⟩⟩
    exact small_stabilize (show s.last.parts.length < 8 by omega) (by omega) h.small.stored
  rw [if_neg hfull]
  by_cases hmany : 7 < (s.last.append hash).1.parts.length
  · rw [if_pos hmany]
    have hmost := h.small.rows_le
    have hne : s.last.parts ≠ [] := fun hnil => absurd (show 7 < s.last.parts.length from hmany)
      (by simp [hnil])
    obtain ⟨s', hs', hholds⟩ :=
      holds_finalize (s := { s with last := (s.last.append hash).1 }) h.front hopen (by omega) hnd
    exact ⟨s', _, _, _, by rw [hs']; rfl, hholds, inr ⟨hne, rfl, rfl⟩⟩
  · rw [if_neg hmany, if_neg (by omega)]
    refine ⟨_, stored, rows ++ [hash], k, rfl,
      ⟨h.front, hopen, ⟨h.small.parts, ?_, by omega, h.small.stored⟩, hnd⟩, inl ⟨rfl, rfl, rfl⟩⟩
    intro hc
    exact absurd (show 7 < (s.last.append hash).1.parts.length by rw [hc]; decide) hmany

theorem Holds.finalize (h : Holds s stored rows k) : ∃ s', s.finalize = some s' ∧
      Holds s' (stored ++ [rows]) [] 0 :=
  holds_finalize h.front h.last h.small.rows_le.le h.nodup

theorem Small.reopen (h : Open l rows k) (hsm : Small l rows k) : Small l.reopen rows k := by
  have hpts : l.reopen.parts = l.parts := by rw [h.reopen_eq]
  exact ⟨hpts ▸ hsm.parts, hpts ▸ hsm.full, hsm.cache, hpts ▸ hsm.stored⟩

theorem Holds.reopen_eq (h : Holds s stored rows k) :
    s.reopen = ⟨s.front.map HashList.reopen, s.last.reopen⟩ := by
  have hall : ∀ db ∈ s.dbs, (db.sorted.isSome || db.log.isSome) = true := by
    intro db hdb
    rcases mem_append.mp hdb with hdb | hdb
    · obtain ⟨_, ⟨rs, hfin⟩, -⟩ := exists_of_mem_forall₂ h.front hdb
      rw [hfin.sorted]
      rfl
    · rw [mem_singleton.mp hdb, h.last.log]
      simp
  rw [reopen, takeWhile_eq_self_iff.mpr hall]
  simp [dbs]

theorem Holds.reopen (h : Holds s stored rows k) : Holds s.reopen stored rows k := by
  rw [h.reopen_eq]
  refine ⟨?_, h.last.reopen, h.small.reopen h.last, h.nodup⟩
  rw [forall₂_map_left_iff]
  refine h.front.imp fun l rows hl => ?_
  obtain ⟨⟨rs, hfin⟩, hmost⟩ := hl
  exact ⟨⟨rs, hfin.reopen⟩, hmost⟩

end Operations

/-- `lookup` finds exactly the rows. -/
def Finds (l : HashList) (rows : List Uint256) : Prop := ∀ hash row, l.lookup hash = some row ↔
    rows[row]? = some hash

theorem Holds.finds {s : HashStorage} {stored : List (List Uint256)} {rows : List Uint256} {k : ℕ}
    (h : Holds s stored rows k) :
    List.Forall₂ Finds s.dbs (stored ++ [rows]) := by
  refine rel_append (h.front.imp fun l rows hl hash row => ?_)
    (.cons (fun hash row => h.last.lookup) .nil)
  obtain ⟨⟨rs, hfin⟩, -⟩ := hl
  exact hfin.lookup

/-- The databases are asked from the last one on, so they stand in that order. -/
theorem lookupFrom_of_row (h : List.Forall₂ Finds dbs rowss)
    (hnd : rowss.flatten.Nodup) {i row : ℕ} {rows : List Uint256} {hash : Uint256}
    (hi : rowss.reverse[i]? = some rows) (hrow : rows[row]? = some hash) :
    lookupFrom hash dbs = ⟨i, row⟩ := by
  induction h with
  | nil => simp at hi
  | @cons db rs dbs rowss hfinds hrest ih =>
    rw [flatten_cons, nodup_append] at hnd
    obtain ⟨-, hrestNodup, hdisjoint⟩ := hnd
    rw [lookupFrom]
    rw [reverse_cons, getElem?_append] at hi
    split_ifs at hi with hlt
    · have hmem : hash ∈ rowss.flatten :=
        mem_flatten.mpr ⟨rows, mem_reverse.mp (mem_of_getElem? hi), mem_of_getElem? hrow⟩
      have hnone : db.lookup hash = none := by
        refine Option.eq_none_iff_forall_ne_some.mpr fun r hr => ?_
        exact hdisjoint hash (mem_of_getElem? ((hfinds hash r).mp hr)) hash hmem rfl
      rw [hnone]
      exact ih hrestNodup hi
    · have hzero : i - rowss.reverse.length = 0 := by
        have := (List.getElem?_eq_some_iff.mp hi).1
        simpa using this
      rw [hzero] at hi
      obtain rfl : rs = rows := by simpa using hi
      rw [(hfinds hash row).mpr hrow, hrest.length_eq]
      rw [length_reverse] at hzero hlt
      rw [show i = rowss.length by omega]

theorem lookupFrom_of_notMem (h : List.Forall₂ Finds dbs rowss)
    {hash : Uint256} (hnot : hash ∉ rowss.flatten) : lookupFrom hash dbs = {} := by
  induction h with
  | nil => rfl
  | @cons db rs dbs rowss hfinds hrest ih =>
    rw [flatten_cons, mem_append, not_or] at hnot
    have hnone : db.lookup hash = none :=
      Option.eq_none_iff_forall_ne_some.mpr fun r hr => hnot.1 (mem_of_getElem? ((hfinds hash r).mp hr))
    rw [lookupFrom, hnone]
    exact ih hnot.2

/-- The point at which `append` put the hash. -/
def PointOf (rowss : List (List Uint256)) (hash : Uint256) (point : HashIndexPoint) : Prop :=
  ∃ i row rows, point = ⟨(i : ℕ), (row : ℕ)⟩ ∧ rowss[i]? = some rows ∧ rows[row]? = some hash

section Storage

variable {s : HashStorage} {stored : List (List Uint256)} {rows : List Uint256} {k : ℕ}
  {hash : Uint256} {point : HashIndexPoint}

theorem Holds.lookup_point (h : Holds s stored rows k) (hpt : PointOf (stored ++ [rows]) hash point) :
    s.lookup hash = point := by
  obtain ⟨i, row, rs, rfl, hi, hrow⟩ := hpt
  have hperm : (stored ++ [rows]).reverse.flatten.Perm (stored ++ [rows]).flatten :=
    (reverse_perm _).flatten
  refine lookupFrom_of_row (rel_reverse h.finds) (hperm.nodup_iff.mpr h.nodup) ?_ hrow
  rwa [reverse_reverse]

theorem Holds.lookup_missing (h : Holds s stored rows k)
    (hnot : hash ∉ (stored ++ [rows]).flatten) : s.lookup hash = {} := by
  have hperm : (stored ++ [rows]).reverse.flatten.Perm (stored ++ [rows]).flatten :=
    (reverse_perm _).flatten
  exact lookupFrom_of_notMem (rel_reverse h.finds) (fun hc => hnot (hperm.mem_iff.mp hc))

theorem mem_flatten_iff_point {rowss : List (List Uint256)} : hash ∈ rowss.flatten ↔
      ∃ point, PointOf rowss hash point := by
  constructor
  · intro hmem
    obtain ⟨rs, hrs, hhash⟩ := mem_flatten.mp hmem
    obtain ⟨i, hi⟩ := mem_iff_getElem?.mp hrs
    obtain ⟨row, hrow⟩ := mem_iff_getElem?.mp hhash
    exact ⟨_, i, row, rs, rfl, hi, hrow⟩
  · rintro ⟨point, i, row, rs, -, hi, hrow⟩
    exact mem_flatten.mpr ⟨rs, mem_of_getElem? hi, mem_of_getElem? hrow⟩

end Storage

theorem pointOf_concat {rows : List Uint256} {hash : Uint256} {point : HashIndexPoint} :
    PointOf (rowss ++ [rows]) hash point ↔
      PointOf rowss hash point ∨ ∃ row : ℕ, point = ⟨rowss.length, row⟩ ∧ rows[row]? = some hash := by
  constructor
  · rintro ⟨i, row, rs, rfl, hi, hrow⟩
    rw [getElem?_append] at hi
    split_ifs at hi with hlt
    · exact inl ⟨i, row, rs, rfl, hi, hrow⟩
    · obtain ⟨hidx, hrs⟩ := List.getElem?_eq_some_iff.mp hi
      have hi : i = rowss.length := by
        rw [List.length_singleton] at hidx
        omega
      subst hi
      obtain rfl : rows = rs := by simpa using hrs
      exact inr ⟨row, rfl, hrow⟩
  · rintro (⟨i, row, rs, rfl, hi, hrow⟩ | ⟨row, rfl, hrow⟩)
    · exact ⟨i, row, rs, rfl,
        by rw [List.getElem?_append_left (List.getElem?_eq_some_iff.mp hi).1, hi], hrow⟩
    · exact ⟨rowss.length, row, rows, rfl, by simp, hrow⟩

theorem pointOf_concat_nil {hash : Uint256} {point : HashIndexPoint} :
    PointOf (rowss ++ [[]]) hash point ↔ PointOf rowss hash point := by
  simp [pointOf_concat]

theorem pointOf_append {rows : List Uint256} {new hash : Uint256} {point : HashIndexPoint} :
    PointOf (rowss ++ [rows ++ [new]]) hash point ↔
      (hash, point) = (new, ⟨rowss.length, rows.length⟩) ∨ PointOf (rowss ++ [rows]) hash point := by
  have hget : ∀ row : ℕ, (rows ++ [new])[row]? = some hash ↔ (row = rows.length ∧ hash = new) ∨
      rows[row]? = some hash := by
    intro row
    rw [getElem?_append]
    split_ifs with hlt
    · exact ⟨inr, fun h => h.resolve_left fun hc => hlt.ne hc.1⟩
    · rw [getElem?_eq_none (not_lt.mp hlt), getElem?_singleton]
      have : row - rows.length = 0 ↔ row = rows.length := by omega
      simp [this, eq_comm]
  rw [pointOf_concat, pointOf_concat]
  simp only [hget, Prod.mk.injEq]
  constructor
  · rintro (h | ⟨row, rfl, ⟨rfl, rfl⟩ | h⟩)
    · exact inr (inl h)
    · exact inl ⟨rfl, rfl⟩
    · exact inr (inr ⟨row, rfl, h⟩)
  · rintro (⟨rfl, rfl⟩ | h | ⟨row, rfl, h⟩)
    · exact inr ⟨_, rfl, inl ⟨rfl, rfl⟩⟩
    · exact inl h
    · exact inr ⟨row, rfl, inr h⟩

/-- The points that were returned are those of the rows. -/
structure Tracks (σ : Session) (s : HashStorage) (stored : List (List Uint256))
    (rows : List Uint256) (k : ℕ) : Prop where
  storage : σ.storage = some s
  holds : Holds s stored rows k
  points : ∀ hash point, (hash, point) ∈ σ.points ↔ PointOf (stored ++ [rows]) hash point

section Steps

variable {σ : Session} {s : HashStorage} {stored : List (List Uint256)} {rows : List Uint256}
  {k : ℕ} {hash : Uint256}

theorem Tracks.mem_rows (h : Tracks σ s stored rows k) : hash ∈ (stored ++ [rows]).flatten ↔
      hash ∈ σ.points.map fst := by
  rw [mem_flatten_iff_point, mem_map]
  constructor
  · rintro ⟨point, hpt⟩
    exact ⟨(hash, point), (h.points _ _).mpr hpt, rfl⟩
  · rintro ⟨⟨hash', point⟩, hmem, rfl⟩
    exact ⟨point, (h.points _ _).mp hmem⟩

theorem tracks_start : Tracks .start .create [] [] 0 := by
  refine ⟨rfl, holds_create, fun hash point => ?_⟩
  simp [Session.start, PointOf, getElem?_singleton]

variable (h : Tracks σ s stored rows k)

include h

theorem Tracks.append (hnew : hash ∉ σ.points.map fst) :
    (∃ s' stored' rows' k', Tracks (σ.step (.append hash)) s' stored' rows' k' ∧
      (stored' = stored ∧ rows' = rows ++ [hash] ∧
          k' = (if s.last.cacheMap.entries.length = CACHE_LIMIT then rows.length + 1 else k) ∨
        s.last.parts ≠ [] ∧ stored' = stored ++ [rows ++ [hash]] ∧ rows' = [])) ∧
      (σ.step (.append hash)).points.map fst = hash :: σ.points.map fst := by
  obtain ⟨s', stored', rows', k', hs', hholds, hrows⟩ :=
    h.holds.append (fun hc => hnew (h.mem_rows.mp hc))
  have hstep : σ.step (.append hash) = ⟨some s', (hash, ⟨stored.length, rows.length⟩) :: σ.points⟩ := by
    simp only [Session.step, h.storage, Option.bind_some, hs']
  refine ⟨⟨s', stored', rows', k', ⟨by rw [hstep], hholds, fun hash' point => ?_⟩, hrows⟩,
    by rw [hstep]; rfl⟩
  rw [hstep, mem_cons, h.points, ← pointOf_append]
  rcases hrows with ⟨rfl, rfl, -⟩ | ⟨-, rfl, rfl⟩
  · rfl
  · exact pointOf_concat_nil.symm

theorem Tracks.stabilize (hcac : s.last.cacheMap.entries ≠ []) :
    Tracks (σ.step .stabilize) { s with last := s.last.stabilize } stored rows rows.length := by
  have hk : k < rows.length := by
    have hlen := h.holds.last.length_cache
    have hpos := length_pos_iff.mpr hcac
    omega
  exact ⟨by rw [Session.step, h.storage]; rfl, h.holds.stabilize hk, h.points⟩

theorem Tracks.finalize : ∃ s', Tracks (σ.step .finalize) s' (stored ++ [rows]) [] 0 := by
  obtain ⟨s', hs', hholds⟩ := h.holds.finalize
  refine ⟨s', by rw [Session.step, h.storage]; exact hs', hholds, fun hash point => ?_⟩
  rw [pointOf_concat_nil]
  exact h.points hash point

theorem Tracks.reopen : Tracks (σ.step .reopen) s.reopen stored rows k :=
  ⟨by rw [Session.step, h.storage]; rfl, h.holds.reopen, h.points⟩

omit h

end Steps

def Call.appended : Call → Option Uint256
  | .append hash => some hash
  | _ => none

def Session.run (calls : List Call) : Session := calls.foldl Session.step .start

theorem tracks_step {σ : Session} {c : Call} (h : ∃ s stored rows k, Tracks σ s stored rows k)
    (hc : σ.Allowed c) :
    (∃ s stored rows k, Tracks (σ.step c) s stored rows k) ∧
      (σ.step c).points.map fst = c.appended.toList ++ σ.points.map fst := by
  obtain ⟨s, stored, rows, k, h⟩ := h
  cases c with
  | append hash =>
    obtain ⟨⟨s', stored', rows', k', htr, -⟩, hpts⟩ := h.append hc
    exact ⟨⟨s', stored', rows', k', htr⟩, hpts⟩
  | stabilize => exact ⟨⟨_, _, _, _, h.stabilize (hc s h.storage)⟩, rfl⟩
  | finalize =>
    obtain ⟨s', hs'⟩ := h.finalize
    exact ⟨⟨_, _, _, _, hs'⟩, rfl⟩
  | reopen => exact ⟨⟨_, _, _, _, h.reopen⟩, rfl⟩

/-- Every sequence of allowed calls returns, and a point is kept for every hash that it appends. -/
theorem tracks_foldl {σ : Session} {calls : List Call} (h : ∃ s stored rows k, Tracks σ s stored rows k)
    (hcs : Runs.Along Session.step Session.Allowed σ calls) :
    (∃ s stored rows k, Tracks (calls.foldl Session.step σ) s stored rows k) ∧
      (calls.foldl Session.step σ).points.map fst = (calls.filterMap Call.appended).reverse ++
        σ.points.map fst := by
  induction calls generalizing σ with
  | nil => exact ⟨h, rfl⟩
  | cons c calls ih =>
    obtain ⟨htr, hpts⟩ := tracks_step h hcs.1
    obtain ⟨hend, hall⟩ := ih htr hcs.2
    refine ⟨hend, ?_⟩
    rw [foldl_cons, hall, hpts]
    cases hc : c.appended with
    | none => simp [hc]
    | some hash => simp [hc]

/-- A merged file is sorted, small enough for an `int`, and its jump table encloses each record. -/
theorem Holds.merged {s : HashStorage} {stored : List (List Uint256)} {rows : List Uint256} {k : ℕ}
    (h : Holds s stored rows k) {db : HashList} (hdb : db ∈ s.dbs) {rs : List Record}
    (hrec : db.sorted = some rs) :
    Sorted rs ∧ RECORD * rs.length < 2 ^ 31 ∧ ∀ b ≤ 255, ∀ i r, rs[i]? = some r →
      (r.1.lastByte = b ↔ (interval db.offsets rs b).1 ≤ i ∧ i < (interval db.offsets rs b).2) := by
  rcases mem_append.mp hdb with hdb | hdb
  · obtain ⟨l, ⟨rs', hfin⟩, hmost⟩ := exists_of_mem_forall₂ h.front hdb
    obtain rfl : rs' = rs := Option.some.inj (hfin.sorted.symm.trans hrec)
    refine ⟨hfin.order, ?_, fun b hb => (hfin.jump.encloses hfin.order hb).2.2⟩
    have hlen : rs'.length = l.length := by
      rw [hfin.rows.length_eq, length_zipIdx]
    rw [hlen]
    exact (mul_le_mul_left _ hmost).trans_lt mostRows_lt
  · rw [mem_singleton.mp hdb, h.last.sorted] at hrec
    exact absurd hrec (by simp)

/-- Every hash that was appended gives the point `append` returned, any other an invalid point. -/
theorem lookup_exact (calls : List Call) (h : Runs.Along Session.step Session.Allowed .start calls) :
    (Session.run calls).points.map fst = (calls.filterMap Call.appended).reverse ∧
      ∃ s, (Session.run calls).storage = some s ∧
      (∀ e ∈ (Session.run calls).points, s.lookup e.1 = e.2) ∧
        (∀ hash ∉ calls.filterMap Call.appended, s.lookup hash = {}) ∧
        ∀ db ∈ s.dbs, ∀ rs, db.sorted = some rs →
          Sorted rs ∧ RECORD * rs.length < 2 ^ 31 ∧ ∀ b ≤ 255, ∀ i r, rs[i]? = some r →
            (r.1.lastByte = b ↔ (interval db.offsets rs b).1 ≤ i ∧
              i < (interval db.offsets rs b).2) := by
  obtain ⟨⟨s, stored, rows, k, htr⟩, hpts⟩ := tracks_foldl ⟨_, _, _, _, tracks_start⟩ h
  have hpts : (Session.run calls).points.map fst = (calls.filterMap Call.appended).reverse := by
    rw [Session.run, hpts]
    simp [Session.start]
  refine ⟨hpts, s, htr.storage, fun e he => ?_, fun hash hhash => ?_, fun db hdb rs hrec => ?_⟩
  · exact htr.holds.lookup_point ((htr.points e.1 e.2).mp he)
  · refine htr.holds.lookup_missing fun hc => hhash ?_
    have hmem : hash ∈ (Session.run calls).points.map fst := htr.mem_rows.mp hc
    rw [hpts, mem_reverse] at hmem
    exact hmem
  · exact htr.holds.merged hdb hrec

/-- Two rows in a merged file and one in the log behind it. -/
theorem lookup_exact_three :
    ∃ s, (Session.run [.append 1, .append 2, .finalize, .append 3]).storage = some s ∧
    s.lookup 1 = ⟨0, 0⟩ ∧ s.lookup 4 = {} := by
  have h : Runs.Along Session.step Session.Allowed .start [.append 1, .append 2, .finalize,
      .append 3] := by decide +kernel
  obtain ⟨-, s, hs, hpts, hoth, -⟩ := lookup_exact _ h
  exact ⟨s, hs, hpts (1, ⟨0, 0⟩) (by decide +kernel), hoth 4 (by decide)⟩

/-- A second `stabilize` in a row makes a part without rows, and the merge then reads its first row. -/
theorem finalize_fails_on_empty_part :
    (∃ s, (Session.run [.append 1, .stabilize, .stabilize]).storage = some s ∧ 0 < s.last.nextId ∧
      s.lookup 1 = ⟨0, 0⟩) ∧
      (Session.run [.append 1, .stabilize, .stabilize, .finalize]).storage = none :=
  ⟨⟨_, rfl, by decide +kernel, by decide +kernel⟩, by decide +kernel⟩

end FloweeHub.Indexer
