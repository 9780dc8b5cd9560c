import FloweeHub.Indexer.HashRuns

/-! Finding the hash of a row. Rows in a sorted part have no index that `at` reads, so the points of
a storage can be read as long as no cache became a part. Proved is which sequences of calls keep
that. -/

namespace FloweeHub.Indexer

open Lib Session List Option

section Database

variable {l : HashList} {rows : List Uint256} {k : ℕ} {records : List Record} {hash : Uint256} {row : ℕ}

theorem Final.at? (h : Final l rows records) (hrow : rows[row]? = some hash) :
    l.at? row = some hash := by
  obtain ⟨place, hpl, hrec⟩ := revertLookup_spec h.rows hrow
  rw [HashList.at?, h.reverseLookup]
  simp only [hpl, h.sorted, getD_some, bind_some, hrec, map_some]

theorem Open.at? (h : Open l rows k) (hrow : rows[row]? = some hash) :
    l.at? row = some (if k ≤ row then hash else 0) := by
  rw [HashList.at?, h.reverseLookup]
  simp only [some.injEq]
  have hent : ∀ e ∈ l.cacheMap.entries, e.2 = row ↔ k ≤ row ∧ e.1 = hash := by
    intro e he
    have hlk := h.cache_lookup.mp (Table.mem_entries.mp he)
    constructor
    · intro heq
      rw [heq, hrow] at hlk
      exact ⟨hlk.1, (some.inj hlk.2).symm⟩
    · rintro ⟨-, heq⟩
      rw [heq] at hlk
      exact eq_of_getElem? h.nodup hlk.2 hrow
  split_ifs with hk
  · have hmem : (⟨hash, row⟩ : Sigma fun _ : Uint256 => ℕ) ∈ l.cacheMap.entries :=
      Table.mem_entries.mpr (h.cache_lookup.mpr ⟨hk, hrow⟩)
    cases hfind : l.cacheMap.entries.find? fun e => e.2 = row with
    | none => exact absurd (find?_eq_none.mp hfind _ hmem) (by simp)
    | some e =>
      have hval : e.2 = row := by simpa using find?_some hfind
      exact ((hent e (mem_of_find?_eq_some hfind)).mp hval).2
  · rw [find?_eq_none.mpr]
    · rfl
    · intro e he
      rw [decide_eq_true_eq, hent e he]
      exact fun hc => hk hc.1

end Database

variable {i n : ℕ}

theorem getElem?_forall₂ {α β : Type*} {R : α → β → Prop} {l1 : List α} {l2 : List β}
    (h : List.Forall₂ R l1 l2) {b : β} (hi : l2[i]? = some b) : ∃ a, l1[i]? = some a ∧ R a b := by
  induction h generalizing i with
  | nil => simp at hi
  | cons hab _ ih =>
    cases i with
    | zero => exact ⟨_, rfl, by simpa using (some.inj hi) ▸ hab⟩
    | succ i => exact ih (by simpa using hi)

section Storage

variable {s : HashStorage} {stored : List (List Uint256)} {rows : List Uint256} {k : ℕ}
  {hash : Uint256} {point : HashIndexPoint}

theorem find_point {row : ℕ} (hi : i < s.dbs.length) : s.find ⟨i, row⟩ = s.dbs[i]?.bind (·.at? row) := by
  have hval : ¬ ((i : ℤ) < 0 ∨ (row : ℤ) < 0) := by omega
  rw [HashStorage.find, if_neg hval, if_neg (by simpa using hi.le)]
  rfl

theorem Holds.find_front (h : Holds s stored rows k) (hpt : PointOf stored hash point) :
    s.find point = some hash := by
  obtain ⟨i, row, rs, rfl, hi, hrow⟩ := hpt
  obtain ⟨db, hdb, ⟨records, hfin⟩, -⟩ := getElem?_forall₂ h.front hi
  have hlt := (List.getElem?_eq_some_iff.mp hdb).1
  rw [find_point (by simp [HashStorage.dbs]; omega), HashStorage.dbs, List.getElem?_append_left hlt, hdb]
  exact hfin.at? hrow

theorem Holds.find_last (h : Holds s stored rows k) {row : ℕ} (hrow : rows[row]? = some hash) :
    s.find ⟨stored.length, row⟩ = some (if k ≤ row then hash else 0) := by
  rw [← h.front.length_eq, find_point (by simp [HashStorage.dbs]), HashStorage.dbs,
    getElem?_concat_length]
  exact h.last.at? hrow

end Storage

namespace Session

/-- Every point that was returned gives the hash it was returned for. -/
def Readable (σ : Session) : Prop := ∀ e ∈ σ.points, ∃ s, σ.storage = some s ∧ s.find e.2 = some e.1

/-- A call that makes the cache of the last database too large. -/
def Fills (σ : Session) : Call → Prop
  | .append _ => ∃ s ∈ σ.storage, s.last.cacheMap.entries.length = CACHE_LIMIT
  | _ => False

instance : ∀ (σ : Session) (c : Call), Decidable (σ.Fills c)
  | σ, .append _ =>
    inferInstanceAs (Decidable (∃ s ∈ σ.storage, s.last.cacheMap.entries.length = CACHE_LIMIT))
  | _, .stabilize => inferInstanceAs (Decidable False)
  | _, .finalize => inferInstanceAs (Decidable False)
  | _, .reopen => inferInstanceAs (Decidable False)

end Session

section Steps

variable {σ : Session} {s : HashStorage} {stored : List (List Uint256)} {rows : List Uint256}
  {k : ℕ} {c : Call}

theorem Tracks.readable (h : Tracks σ s stored rows 0) : σ.Readable := by
  rintro ⟨hash, point⟩ he
  refine ⟨s, h.storage, ?_⟩
  rcases pointOf_concat.mp ((h.points hash point).mp he) with hfr | ⟨row, rfl, hrow⟩
  · exact h.holds.find_front hfr
  · rw [h.holds.find_last hrow, if_pos (Nat.zero_le _)]

/-- Of two rows in parts one has another hash than the null hash, which is what is found. -/
theorem Tracks.not_readable (h : Tracks σ s stored rows k) (hk : 2 ≤ k) : ¬ σ.Readable := by
  intro hread
  have hzero : ∀ row < k, rows[row]? = some 0 := by
    intro row hrow
    have hlt : row < rows.length := hrow.trans_le h.holds.last.le
    have hget : rows[row]? = some rows[row] := getElem?_eq_getElem hlt
    have hpt : (rows[row], ⟨stored.length, row⟩) ∈ σ.points :=
      (h.points _ _).mpr (pointOf_concat.mpr (Or.inr ⟨row, rfl, hget⟩))
    obtain ⟨s', hs', hfind⟩ := hread _ hpt
    cases h.storage.symm.trans hs'
    rw [h.holds.find_last hget, if_neg (by omega)] at hfind
    rw [hget, ← hfind]
  exact absurd (eq_of_getElem? h.holds.last.nodup (hzero 0 (by omega)) (hzero 1 (by omega))) (by decide)

theorem readable_step (h : ∃ s stored rows, Tracks σ s stored rows 0) (hc : σ.Allowed c)
    (hns : c ≠ .stabilize) :
    ((σ.step c).Readable ↔ ¬ σ.Fills c) ∧
      (¬ σ.Fills c → ∃ s stored rows, Tracks (σ.step c) s stored rows 0) := by
  suffices hsuff : (σ.Fills c → ¬ (σ.step c).Readable) ∧
    (¬ σ.Fills c → ∃ s stored rows, Tracks (σ.step c) s stored rows 0) by
    refine ⟨⟨fun hread hfil => hsuff.1 hfil hread, fun hfil => ?_⟩, hsuff.2⟩
    obtain ⟨s, stored, rows, htr⟩ := hsuff.2 hfil
    exact htr.readable
  obtain ⟨s, stored, rows, h⟩ := h
  cases c with
  | append hash =>
    obtain ⟨⟨s', stored', rows', k', htr, hsp⟩, -⟩ := h.append hc
    have hfil : σ.Fills (.append hash) ↔ s.last.cacheMap.entries.length = CACHE_LIMIT := by
      simp [Session.Fills, h.storage]
    obtain ⟨rfl, rfl, rfl⟩ := hsp.resolve_right fun hc => hc.1 h.holds.last.parts_nil
    refine ⟨fun hfull => ?_, fun hfull => ?_⟩
    · rw [hfil] at hfull
      rw [if_pos hfull] at htr
      refine htr.not_readable ?_
      have hlen := h.holds.last.length_cache
      rw [hfull, CACHE_LIMIT] at hlen
      omega
    · rw [hfil] at hfull
      rw [if_neg hfull] at htr
      exact ⟨_, _, _, htr⟩
  | stabilize => exact absurd rfl hns
  | finalize =>
    obtain ⟨s', hs'⟩ := h.finalize
    exact ⟨False.elim, fun _ => ⟨_, _, _, hs'⟩⟩
  | reopen => exact ⟨False.elim, fun _ => ⟨_, _, _, h.reopen⟩⟩

end Steps

/-- The rows of a storage stay readable exactly as long as no call makes a cache too large. -/
theorem readable_along_iff (calls : List Call)
    (h : Runs.Along step (fun σ c => σ.Allowed c ∧ c ≠ .stabilize) .start calls) :
    Runs.Along step (fun σ c => (σ.step c).Readable) .start calls ↔
      Runs.Along step (fun σ c => ¬ σ.Fills c) .start calls := by
  refine Runs.along_congr (fun σ => ∃ s stored rows, Tracks σ s stored rows 0) (fun σ c hinv hc => ?_)
    ⟨_, _, _, tracks_start⟩ h
  obtain ⟨hiff, hkeep⟩ := readable_step hinv hc.1 hc.2
  exact ⟨hiff, fun hread => hkeep (hiff.mp hread)⟩

theorem readable_along_three :
    Runs.Along step (fun σ c => (σ.step c).Readable) .start [.append 1, .append 2, .finalize,
      .append 3, .reopen] :=
  (readable_along_iff _ (by decide +kernel)).mpr (by decide +kernel)

def firstHashes (n : ℕ) : List Uint256 := (range n).map fun i => BitVec.ofNat 256 (i + 1)

theorem firstHashes_nodup (hn : n < 2 ^ 256) : (firstHashes n).Nodup := by
  refine List.Nodup.map_on (fun i hi j hj hij => ?_) nodup_range
  have hval := congrArg BitVec.toNat hij
  rw [mem_range] at hi hj
  rw [BitVec.toNat_ofNat, BitVec.toNat_ofNat, Nat.mod_eq_of_lt (by omega),
    Nat.mod_eq_of_lt (by omega)] at hval
  omega

def appends (n : ℕ) : List Call := (firstHashes n).map .append

theorem firstHashes_succ (n : ℕ) :
    firstHashes (n + 1) = firstHashes n ++ [BitVec.ofNat 256 (n + 1)] := by
  rw [firstHashes, range_succ, map_append]
  rfl

theorem appends_succ (n : ℕ) : appends (n + 1) = appends n ++ [.append (BitVec.ofNat 256 (n + 1))] := by
  rw [appends, firstHashes_succ, map_append]
  rfl

theorem allowed_appends (hn : n + 1 < 2 ^ 256) {s : HashStorage} {k : ℕ}
    (h : Tracks (run (appends n)) s [] (firstHashes n) k) :
    (run (appends n)).Allowed (.append (BitVec.ofNat 256 (n + 1))) := by
  intro hmem
  have hrow : BitVec.ofNat 256 (n + 1) ∈ firstHashes n := by simpa using h.mem_rows.mpr hmem
  have hnd := firstHashes_nodup hn
  rw [firstHashes_succ] at hnd
  exact (nodup_append.mp hnd).2.2 _ hrow _ (mem_singleton_self _) rfl

theorem tracks_appends (hn : n ≤ CACHE_LIMIT) :
    Runs.Along step (fun σ c => σ.Allowed c ∧ c ≠ .stabilize) .start (appends n) ∧
      ∃ s, Tracks (run (appends n)) s [] (firstHashes n) 0 := by
  have hlim : CACHE_LIMIT < 2 ^ 256 := by decide
  induction n with
  | zero => exact ⟨trivial, _, tracks_start⟩
  | succ n ih =>
    obtain ⟨halong, s, htr⟩ := ih (by omega)
    have hall := allowed_appends (by omega) htr
    obtain ⟨⟨s', stored', rows', k', htr', hsp⟩, -⟩ := htr.append hall
    obtain ⟨rfl, rfl, rfl⟩ := hsp.resolve_right fun hc => hc.1 htr.holds.last.parts_nil
    have hlen : s.last.cacheMap.entries.length = n := by
      rw [htr.holds.last.length_cache]
      simp [firstHashes]
    rw [hlen, if_neg (by omega)] at htr'
    rw [appends_succ, firstHashes_succ]
    refine ⟨Runs.along_concat.mpr ⟨halong, hall, by simp⟩, s', ?_⟩
    rw [run, foldl_concat]
    exact htr'

/-- After one append more than fit into the cache, its rows cannot be read any more. -/
theorem not_readable_full :
    Runs.Along step (fun σ c => σ.Allowed c ∧ c ≠ .stabilize) .start (appends (CACHE_LIMIT + 1)) ∧
      ¬ (run (appends (CACHE_LIMIT + 1))).Readable := by
  have hlim : CACHE_LIMIT + 1 < 2 ^ 256 := by decide
  -- a variable in place of the limit, which is not to be evaluated
  generalize hn : CACHE_LIMIT = n at hlim ⊢
  obtain ⟨halong, s, htr⟩ := tracks_appends hn.ge
  have hall := allowed_appends hlim htr
  have hfil : (run (appends n)).Fills (.append (BitVec.ofNat 256 (n + 1))) := by
    refine ⟨s, htr.storage, ?_⟩
    rw [htr.holds.last.length_cache, hn]
    simp [firstHashes]
  rw [appends_succ]
  refine ⟨Runs.along_concat.mpr ⟨halong, hall, by simp⟩, fun hread => ?_⟩
  rw [run, foldl_concat] at hread
  exact (readable_step ⟨_, _, _, htr⟩ hall (by simp)).1.mp hread hfil

end FloweeHub.Indexer
