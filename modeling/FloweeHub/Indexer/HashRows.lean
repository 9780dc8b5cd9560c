import FloweeHub.Indexer.HashStorage

/-! A database is a list of rows. While it is open they are in sorted parts, the cache and the log;
once finalised, in one sorted file. `lookup` finds the row of a hash in both states. -/

namespace FloweeHub.Indexer

open Lib Option List HashList Prod Nat AList

variable {l : HashList} {rows : List Uint256} {rs : List Record} {hash h : Uint256}
  {offsets : ℕ → ℕ} {i j k b row : ℕ}

/-- Strictly, so that no hash is there twice. -/
def Sorted (records : List Record) : Prop := records.Pairwise fun a b => a.1.toNat < b.1.toNat

theorem sorted_insertionSort (h : (rs.map fst).Nodup) : Sorted (rs.insertionSort sortPairs) := by
  have hle : ∀ a b : Record, sortPairs a b ↔ a.1.toNat ≤ b.1.toNat := by
    intro a b
    rw [sortPairs, Uint256.Compare_eq, Ne, compare_gt_iff_gt, not_lt]
  have htot : @Std.Total Record sortPairs := ⟨fun a b => by simp only [hle]; exact le_total _ _⟩
  have htrans : IsTrans Record sortPairs := ⟨fun a b c => by simp only [hle]; exact le_trans⟩
  have hsrt := pairwise_insertionSort sortPairs rs
  have hperm := perm_insertionSort sortPairs rs
  have hnd : (rs.insertionSort sortPairs).Pairwise fun a b => a.1 ≠ b.1 :=
    pairwise_map.mp ((hperm.map fst).nodup_iff.mpr h)
  refine (hsrt.and hnd).imp fun {a b} hab => ?_
  have hne : a.1.toNat ≠ b.1.toNat := fun hc => hab.2 (BitVec.eq_of_toNat_eq hc)
  have := (hle a b).mp hab.1
  omega

/-- A binary search finds the record of a hash, as long as it looks where the record is. -/
theorem search_eq_some_iff (h : Sorted rs) {lo hi : ℕ} (hlo : lo ≤ hi)
    (hhi : hi ≤ rs.length) (hin : ∀ i r, rs[i]? = some r → r.1 = hash → lo ≤ i ∧ i < hi) :
    search rs hash lo hi = some row ↔ (hash, row) ∈ rs := by
  have hcmp : ∀ r : Record, r.1.Compare hash = compare r.1.toNat hash.toNat :=
    fun r => Uint256.Compare_eq _ _
  rw [search]
  constructor
  · intro hsrch
    split at hsrch
    · next m hm =>
      obtain ⟨r, hr, hkey⟩ := Bisect.mem_of_bisect hcmp h hlo hhi hm
      rw [hr] at hsrch
      obtain rfl : r = (hash, row) := Prod.ext (BitVec.eq_of_toNat_eq hkey) (some.inj hsrch)
      exact mem_of_getElem? hr
    · exact absurd hsrch (by simp)
  · intro hmem
    obtain ⟨i, hi'⟩ := mem_iff_getElem?.mp hmem
    obtain ⟨hlo', hhi'⟩ := hin i _ hi' rfl
    rw [Bisect.bisect_found hcmp h hhi hi' rfl hlo' hhi']
    simp [hi']

/-! ### The jump table -/

/-- In a list in which the items with a property come first, they are as many as they reach. -/
theorem lt_countP_iff {α : Type*} {p : α → Bool} {l : List α}
    (h : l.Pairwise fun a b => p b → p a) {a : α} (hi : l[i]? = some a) : i < l.countP p ↔ p a := by
  induction l generalizing i with
  | nil => simp at hi
  | cons x l ih =>
    obtain ⟨hx, hl⟩ := pairwise_cons.mp h
    cases i with
    | zero =>
      obtain rfl : x = a := by simpa using hi
      by_cases hp : p x
      · simp [hp]
      · have hzero : l.countP p = 0 := countP_eq_zero.mpr fun b hb hpb => hp (hx b hb hpb)
        simp [hp, hzero]
    | succ i =>
      have hi' : l[i]? = some a := by simpa using hi
      have ha := mem_of_getElem? hi'
      by_cases hp : p x
      · rw [countP_cons_of_pos hp, add_lt_add_iff_right, ih hl hi']
      · have hpa : ¬ p a := fun hpa => hp (hx a ha hpa)
        have hzero : l.countP p = 0 := countP_eq_zero.mpr fun b hb hpb => hp (hx b hb hpb)
        simp [hp, hpa, hzero]

def below (b : ℕ) (r : Record) : Bool := r.1.lastByte < b

theorem Sorted.below (h : Sorted rs) (b : ℕ) : rs.Pairwise fun x y => below b y → below b x := by
  refine h.imp fun {x y} hlt hy => ?_
  have hle := Uint256.lastByte_mono hlt.le
  simp only [Indexer.below, decide_eq_true_eq] at hy ⊢
  omega

/-- Entries up to the byte reached stay, the others get the offset behind the smaller bytes. -/
theorem fillOffsetsFrom_eq (h : Sorted rs) {data offset : ℕ}
    (hdata : ∀ r ∈ rs, data ≤ r.1.lastByte) (hb : b ≤ 255) : fillOffsetsFrom offsets data offset rs b =
      if b ≤ data then offsets b else offset + RECORD * rs.countP (below b) := by
  induction rs generalizing offsets data offset with
  | nil =>
    simp only [fillOffsetsFrom, setOffsets, countP_nil]
    split_ifs <;> omega
  | cons r rs ih =>
    obtain ⟨hr, hrec⟩ := pairwise_cons.mp h
    have hge : ∀ r' ∈ rs, r.1.lastByte ≤ r'.1.lastByte := fun r' hr' =>
      Uint256.lastByte_mono (hr r' hr').le
    have hrdata := hdata r mem_cons_self
    have hzero : b ≤ r.1.lastByte → rs.countP (below b) = 0 := by
      intro hbr
      refine countP_eq_zero.mpr fun r' hr' => ?_
      have := hge r' hr'
      simp only [below, decide_eq_true_eq]
      omega
    have hct : (r :: rs).countP (below b) = rs.countP (below b) + if r.1.lastByte < b then 1 else 0 := by
      rw [countP_cons]
      simp [below]
    simp only [fillOffsetsFrom]
    split_ifs with hlt hbd hbd
    · rw [ih hrec hge]
      simp only [setOffsets]
      split_ifs <;> omega
    · rw [ih hrec hge, hct]
      simp only [setOffsets]
      by_cases hbr : b ≤ r.1.lastByte
      · rw [if_pos hbr, if_pos (by omega), hzero hbr, if_neg (by omega)]
        omega
      · rw [if_neg hbr, if_pos (by omega), mul_add]
        omega
    · rw [ih hrec (fun r' hr' => hrdata.trans (hge r' hr')), if_pos hbd]
    · rw [ih hrec (fun r' hr' => hrdata.trans (hge r' hr')), if_neg hbd, hct, if_pos (by omega), mul_add]
      omega

/-- The entry for a byte is the offset behind all records with a smaller last byte. -/
def JumpTable (offsets : ℕ → ℕ) (records : List Record) : Prop :=
  ∀ b ≤ 255, offsets b = RECORD * records.countP (below b)

theorem jumpTable_fill (h : Sorted rs) (hzero : offsets 0 = 0) :
    JumpTable (fillOffsetsTable offsets rs) rs := by
  intro b hb
  rw [fillOffsetsTable, fillOffsetsFrom_eq h (fun _ _ => zero_le _) hb]
  split_ifs with hb0
  · obtain rfl := le_zero.mp hb0
    rw [hzero, countP_eq_zero.mpr (by simp [below])]
    rfl
  · omega

/-- The interval that the jump table gives for a byte. -/
def interval (offsets : ℕ → ℕ) (records : List Record) (b : ℕ) : ℕ × ℕ :=
  (offsets b / RECORD, (if b = 255 then RECORD * records.length else offsets (b + 1)) / RECORD)

theorem JumpTable.encloses (h : Sorted rs) (ht : JumpTable offsets rs) (hb : b ≤ 255) :
    (interval offsets rs b).1 ≤ (interval offsets rs b).2 ∧ (interval offsets rs b).2 ≤ rs.length ∧
      ∀ i r, rs[i]? = some r →
        (r.1.lastByte = b ↔ (interval offsets rs b).1 ≤ i ∧ i < (interval offsets rs b).2) := by
  have hrec : 0 < RECORD := by decide
  have hlo : (interval offsets rs b).1 = rs.countP (below b) := by
    rw [interval, ht b hb, Nat.mul_div_cancel_left _ hrec]
  have hhi : (interval offsets rs b).2 = rs.countP (below (b + 1)) := by
    rw [interval]
    split_ifs with h255
    · rw [Nat.mul_div_cancel_left _ hrec, h255, eq_comm, countP_eq_length]
      intro r _
      have := r.1.lastByte_lt
      simpa [below] using this
    · rw [ht (b + 1) (by omega), Nat.mul_div_cancel_left _ hrec]
  rw [hlo, hhi]
  refine ⟨countP_mono_left fun r _ hr => ?_, countP_le_length, fun i r hi => ?_⟩
  · simp only [below, decide_eq_true_eq] at hr ⊢
    omega
  · have h1 := lt_countP_iff (h.below b) hi
    have h2 := lt_countP_iff (h.below (b + 1)) hi
    simp only [below, decide_eq_true_eq] at h1 h2
    omega

theorem lookupSorted_eq_some_iff (h : Sorted rs) (ht : JumpTable l.offsets rs) :
    l.lookupSorted rs hash = some row ↔ (hash, row) ∈ rs := by
  have hb : hash.lastByte ≤ 255 := le_of_lt_succ hash.lastByte_lt
  obtain ⟨hlo, hhi, hin⟩ := ht.encloses h hb
  exact search_eq_some_iff h hlo hhi fun i r hi hr => (hin i r hi).mp (by rw [hr])

/-- Pairs sorted by distinct numbers below `n` stand at their numbers. -/
theorem getElem?_insertionSort {pairs : List (ℕ × ℕ)} {n : ℕ} (h : (pairs.map fst).Perm (range n))
    (hmem : (i, j) ∈ pairs) : (pairs.insertionSort fun a b => a.1 ≤ b.1)[i]? = some (i, j) := by
  have hperm := perm_insertionSort (fun a b : ℕ × ℕ => a.1 ≤ b.1) pairs
  have hkeys : (pairs.insertionSort fun a b => a.1 ≤ b.1).map fst = range n :=
    ((hperm.map fst).trans h).eq_of_pairwise' (pairwise_map.mpr (pairwise_insertionSort _ pairs))
      pairwise_le_range
  obtain ⟨k, hk⟩ := mem_iff_getElem?.mp (hperm.mem_iff.mpr hmem)
  have hki : (List.range n)[k]? = some i := by rw [← hkeys, List.getElem?_map, hk]; rfl
  obtain ⟨hlt, hval⟩ := List.getElem?_eq_some_iff.mp hki
  rw [List.getElem_range] at hval
  rw [← hval] at hk ⊢
  exact hk

/-- The table leads from a row to its record. -/
theorem revertLookup_spec (h : rs.Perm rows.zipIdx) (hi : rows[i]? = some hash) :
    ∃ place, (revertLookup rs)[i]? = some place ∧ rs[place]? = some (hash, i) := by
  have hids : ((rs.zipIdx.map fun e => (e.1.2, e.2)).map fst).Perm (range rows.length) := by
    have hrows := h.map snd
    rw [zipIdx_map_snd, ← range_eq_range'] at hrows
    have hfst : (rs.zipIdx.map fun e => (e.1.2, e.2)).map fst = rs.map snd := by
      conv_rhs => rw [← List.zipIdx_map_fst 0 rs]
      rw [List.map_map, List.map_map]
      rfl
    exact hfst ▸ hrows
  have hmem : (hash, i) ∈ rs := h.mem_iff.mpr (mem_zipIdx_iff_getElem?.mpr hi)
  obtain ⟨place, hpl⟩ := mem_iff_getElem?.mp hmem
  refine ⟨place, ?_, hpl⟩
  have hpair : (i, place) ∈ rs.zipIdx.map fun e => (e.1.2, e.2) :=
    mem_map.mpr ⟨((hash, i), place), mem_zipIdx_iff_getElem?.mpr hpl, rfl⟩
  rw [revertLookup, getElem?_map, getElem?_insertionSort hids hpair]
  rfl

/-! ### The states of a database -/

/-- The rows of an open database: the first `k` in the parts, the others in cache and log. -/
structure Open (l : HashList) (rows : List Uint256) (k : ℕ) : Prop where
  le : k ≤ rows.length
  nodup : rows.Nodup
  nextId : l.nextId = rows.length
  cache : l.cacheRecords.Perm (rows.zipIdx.drop k)
  parts : (l.parts.map (·.sorted)).flatten.Perm (rows.zipIdx.take k)
  part_sorted : ∀ part ∈ l.parts, part.sorted ≠ [] ∧ Sorted part.sorted
  sorted : l.sorted = none
  reverseLookup : l.reverseLookup = none
  offsets : l.offsets = fun _ => 0
  log : l.log = some (rows.drop k)
  info : l.info = some ⟨k, l.parts.length, fun _ => 0⟩ ∨ l.info = none ∧ k = 0

/-- The rows of a database that is finalised are in one file. -/
structure Final (l : HashList) (rows : List Uint256) (records : List Record) : Prop where
  nodup : rows.Nodup
  rows : records.Perm rows.zipIdx
  order : Sorted records
  jump : JumpTable l.offsets records
  sorted : l.sorted = some records
  reverseLookup : l.reverseLookup = some (revertLookup records)
  cache : l.cacheMap = ∅
  parts : l.parts = []
  info : l.info = some ⟨l.nextId, 0, l.offsets⟩

theorem getElem?_zipIdx_eq_some : rows.zipIdx[j]? = some (h, i) ↔ i = j ∧ rows[i]? = some h := by
  rw [getElem?_zipIdx, map_eq_some_iff]
  constructor
  · rintro ⟨a, ha, hpair⟩
    simp only [zero_add, Prod.mk.injEq] at hpair
    obtain ⟨rfl, rfl⟩ := hpair
    exact ⟨rfl, ha⟩
  · rintro ⟨rfl, hi⟩
    exact ⟨h, hi, by simp⟩

theorem mem_zipIdx_take : (h, i) ∈ rows.zipIdx.take k ↔ i < k ∧ rows[i]? = some h := by
  simp [mem_iff_getElem?, getElem?_take]

theorem mem_zipIdx_drop : (h, i) ∈ rows.zipIdx.drop k ↔ k ≤ i ∧ rows[i]? = some h := by
  simp only [mem_iff_getElem?, getElem?_drop, getElem?_zipIdx_eq_some]
  constructor
  · rintro ⟨j, rfl, hi⟩
    exact ⟨by omega, hi⟩
  · rintro ⟨hle, hi⟩
    exact ⟨i - k, by omega, hi⟩

theorem mem_cacheRecords : (hash, row) ∈ l.cacheRecords ↔ l.cacheMap.lookup hash = some row := by
  rw [← Table.mem_entries, cacheRecords, List.mem_map]
  constructor
  · rintro ⟨e, he, hpair⟩
    obtain ⟨rfl, rfl⟩ := mk.inj hpair
    exact he
  · intro h
    exact ⟨_, h, rfl⟩

theorem Open.cache_lookup (h : Open l rows k) : l.cacheMap.lookup hash = some row ↔
      k ≤ row ∧ rows[row]? = some hash := by
  rw [← mem_cacheRecords, h.cache.mem_iff, mem_zipIdx_drop]

theorem eq_of_getElem? (h : rows.Nodup) (hi : rows[i]? = some hash) (hj : rows[j]? = some hash) :
    i = j := by
  obtain ⟨hilt, hi⟩ := List.getElem?_eq_some_iff.mp hi
  obtain ⟨hjlt, hj⟩ := List.getElem?_eq_some_iff.mp hj
  exact (h.getElem_inj_iff).mp (hi.trans hj.symm)

theorem search_part {part : HashListPart} (h : Sorted part.sorted) :
    search part.sorted hash 0 part.sorted.length = some row ↔ (hash, row) ∈ part.sorted :=
  search_eq_some_iff h (zero_le _) le_rfl fun _ _ hi _ =>
    ⟨zero_le _, (List.getElem?_eq_some_iff.mp hi).1⟩

theorem Open.parts_lookup (h : Open l rows k) :
    (l.parts.findSome? fun part => search part.sorted hash 0 part.sorted.length) = some row ↔
      row < k ∧ rows[row]? = some hash := by
  have hmem : ∀ r, (∃ part ∈ l.parts, (hash, r) ∈ part.sorted) ↔ r < k ∧ rows[r]? = some hash := by
    intro r
    rw [← mem_zipIdx_take, ← h.parts.mem_iff, List.mem_flatten]
    simp only [List.mem_map, exists_exists_and_eq_and]
  have hsnd : ∀ r, (l.parts.findSome? fun part =>
      search part.sorted hash 0 part.sorted.length) = some r → r < k ∧ rows[r]? = some hash := by
    intro r hr
    obtain ⟨part, hpart, hsrch⟩ := exists_of_findSome?_eq_some hr
    exact (hmem r).mp ⟨part, hpart, (search_part (h.part_sorted part hpart).2).mp hsrch⟩
  refine ⟨hsnd row, fun hrow => ?_⟩
  obtain ⟨part, hpart, hin⟩ := (hmem row).mpr hrow
  cases hfd : l.parts.findSome? fun part => search part.sorted hash 0 part.sorted.length with
  | none =>
    have hnone := findSome?_eq_none_iff.mp hfd part hpart
    rw [(search_part (h.part_sorted part hpart).2).mpr hin] at hnone
    exact absurd hnone (by simp)
  | some r => rw [eq_of_getElem? h.nodup (hsnd r hfd).2 hrow.2]

theorem Open.lookup (h : Open l rows k) : l.lookup hash = some row ↔ rows[row]? = some hash := by
  rw [HashList.lookup, h.sorted, bind_none, none_or, or_eq_some_iff, h.cache_lookup, h.parts_lookup]
  constructor
  · rintro (hrow | hrow)
    · exact hrow.2
    · exact hrow.2.2
  · intro hrow
    by_cases hk : k ≤ row
    · exact Or.inl ⟨hk, hrow⟩
    · refine Or.inr ⟨?_, by omega, hrow⟩
      cases hcac : l.cacheMap.lookup hash with
      | none => rfl
      | some r =>
        obtain ⟨hr, hrrow⟩ := h.cache_lookup.mp hcac
        exact absurd (eq_of_getElem? h.nodup hrrow hrow) (by omega)

theorem Final.lookup (h : Final l rows rs) : l.lookup hash = some row ↔ rows[row]? = some hash := by
  have hcac : l.cacheMap.lookup hash = none := by rw [h.cache]; rfl
  rw [HashList.lookup, h.sorted, hcac, h.parts, none_or, bind_some, findSome?_nil, or_none,
    lookupSorted_eq_some_iff h.order h.jump, h.rows.mem_iff, mem_zipIdx_iff_getElem?]

/-! ### What the operations keep -/

theorem open_createEmpty : Open .createEmpty [] 0 where
  le := le_rfl
  nodup := nodup_nil
  nextId := rfl
  cache := List.Perm.refl _
  parts := List.Perm.refl _
  part_sorted := by simp [createEmpty]
  sorted := rfl
  reverseLookup := rfl
  offsets := rfl
  log := rfl
  info := Or.inr ⟨rfl, rfl⟩

theorem cacheRecords_insert {cacheMap : Table Uint256 ℕ} (id : ℕ)
    (h : ∀ i, cacheMap.lookup hash ≠ some i) :
    ((cacheInsert cacheMap hash id).entries.map fun e => (e.1, e.2)) =
      (hash, id) :: cacheMap.entries.map fun e => (e.1, e.2) := by
  have hnot : hash ∉ cacheMap := by
    rw [← lookup_eq_none]
    exact eq_none_iff_forall_ne_some.mpr h
  rw [cacheInsert, if_neg hnot, entries_insert_of_notMem hnot]
  rfl

theorem Open.length_cache (h : Open l rows k) : l.cacheMap.entries.length = rows.length - k := by
  have := h.cache.length_eq
  simpa [cacheRecords] using this

theorem Open.append (h : Open l rows k) (hnew : hash ∉ rows) :
    Open (l.append hash).1 (rows ++ [hash]) k where
  le := h.le.trans (by simp)
  nodup := nodup_append.mpr ⟨h.nodup, nodup_singleton _, fun a ha b hb hab => by
    rw [hab, mem_singleton.mp hb] at ha
    exact hnew ha⟩
  nextId := by simp [HashList.append, h.nextId]
  cache := by
    have hlk : ∀ i, l.cacheMap.lookup hash ≠ some i := fun i hi =>
      hnew (mem_of_getElem? (h.cache_lookup.mp hi).2)
    have hrec : (l.append hash).1.cacheRecords = (hash, l.nextId) :: l.cacheRecords :=
      cacheRecords_insert _ hlk
    rw [hrec, zipIdx_append, drop_append_of_le_length (by simpa using h.le), h.nextId]
    simpa using (h.cache.cons _).trans (perm_append_singleton _ _).symm
  parts := by
    rw [zipIdx_append, take_append_of_le_length (by simpa using h.le)]
    exact h.parts
  __ := h
  log := by simp [HashList.append, h.log, drop_append_of_le_length h.le]

theorem Open.hashes_nodup (h : Open l rows k) (hsub : rs.Sublist rows.zipIdx) : (rs.map fst).Nodup := by
  have hmap := hsub.map fst
  rw [zipIdx_map_fst] at hmap
  exact hmap.nodup h.nodup

theorem Open.stabilize (h : Open l rows k) (hk : k < rows.length) :
    Open l.stabilize rows rows.length where
  le := le_rfl
  __ := h
  cache := by
    rw [drop_eq_nil_of_le (by simp)]
    exact List.Perm.refl _
  parts := by
    have hperm := perm_insertionSort sortPairs l.cacheRecords
    rw [take_of_length_le (by simp)]
    simp only [HashList.stabilize, HashList.writeInfoFile, map_append, flatten_append, map_cons, map_nil,
      flatten_cons, flatten_nil, append_nil]
    have := h.parts.append (hperm.trans h.cache)
    rwa [take_append_drop] at this
  part_sorted := by
    intro part hpart
    rcases mem_append.mp hpart with hpart | hpart
    · exact h.part_sorted part hpart
    · obtain rfl := mem_singleton.mp hpart
      have hperm := (perm_insertionSort sortPairs l.cacheRecords).trans h.cache
      refine ⟨fun hnil => ?_, sorted_insertionSort ?_⟩
      · have hlen := hperm.length_eq
        have hnil : l.cacheRecords.insertionSort sortPairs = [] := hnil
        rw [hnil, length_drop, length_zipIdx, length_nil] at hlen
        omega
      · exact (h.cache.map fst).nodup_iff.mpr (h.hashes_nodup (drop_sublist _ _))
  log := by rw [drop_length]; rfl
  info := Or.inl (by
    rw [← h.nextId, ← h.offsets]
    rfl)

theorem Open.allParts (h : Open l rows k) :
    Open (if l.cacheMap.entries.isEmpty then l else l.stabilize) rows rows.length := by
  have hlen := h.length_cache
  split_ifs with hemp
  · have hk : k = rows.length := by
      have := h.le
      rw [isEmpty_iff_length_eq_zero] at hemp
      omega
    exact hk ▸ h
  · refine h.stabilize ?_
    rw [isEmpty_iff_length_eq_zero] at hemp
    omega

theorem Open.finalize (h : Open l rows k) : ∃ l' rs, l.finalize = some l' ∧ Final l' rows rs := by
  have hall := h.allParts
  have hcmp : ∀ a b : Record, a.1.Compare b.1 = compare a.1.toNat b.1.toNat :=
    fun a b => Uint256.Compare_eq _ _
  have hpts := hall.parts
  rw [take_of_length_le (by simp)] at hpts
  have hdis : ((((if l.cacheMap.entries.isEmpty then l else l.stabilize).parts.map
      (·.sorted)).flatten).map fun r => r.1.toNat).Nodup := by
    have hfst := (hpts.map fst).nodup_iff.mpr (h.hashes_nodup (List.Sublist.refl _))
    have := hfst.map (f := BitVec.toNat) fun a b hab => BitVec.eq_of_toNat_eq hab
    rwa [List.map_map] at this
  obtain ⟨rs, hmerge, hperm, hsrt⟩ := TipMerge.merge_spec hcmp
    (fun part hpart => by
      obtain ⟨p, hp, rfl⟩ := mem_map.mp hpart
      exact (hall.part_sorted p hp).1)
    (fun part hpart => by
      obtain ⟨p, hp, rfl⟩ := mem_map.mp hpart
      exact (hall.part_sorted p hp).2) hdis
  refine ⟨_, rs, by rw [HashList.finalize, hmerge]; rfl, ?_⟩
  exact {
    nodup := h.nodup
    rows := hperm.trans hpts
    order := hsrt
    jump := jumpTable_fill hsrt (by rw [hall.offsets])
    sorted := rfl
    reverseLookup := rfl
    cache := by
      have hcac := hall.length_cache
      rw [Nat.sub_self, length_eq_zero_iff] at hcac
      exact ext hcac
    parts := rfl
    info := rfl }

theorem cacheRecords_foldl {items : List Record} (cacheMap : Table Uint256 ℕ) (h : (items.map fst).Nodup)
    (hnew : ∀ r ∈ items, ∀ i, cacheMap.lookup r.1 ≠ some i) :
    ((items.foldl (fun cacheMap e => cacheInsert cacheMap e.1 e.2) cacheMap).entries.map
      fun e => (e.1, e.2)).Perm (items ++ cacheMap.entries.map fun e => (e.1, e.2)) := by
  induction items generalizing cacheMap with
  | nil => exact List.Perm.refl _
  | cons r items ih =>
    rw [map_cons, nodup_cons] at h
    have hrec := cacheRecords_insert r.2 (hnew r mem_cons_self)
    refine (ih _ h.2 fun r' hr' i hi => ?_).trans ?_
    · have hne : r'.1 ≠ r.1 := fun hc => h.1 (hc ▸ mem_map_of_mem hr')
      rw [← Table.mem_entries] at hi
      have hmem : (r'.1, i) ∈ (cacheInsert cacheMap r.1 r.2).entries.map fun e => (e.1, e.2) :=
        List.mem_map.mpr ⟨_, hi, rfl⟩
      rw [hrec, List.mem_cons, List.mem_map] at hmem
      rcases hmem with hmem | ⟨e, he, hpair⟩
      · exact hne (mk.inj hmem).1
      · obtain ⟨hfst, hsnd⟩ := mk.inj hpair
        refine hnew r' (mem_cons_of_mem _ hr') i ?_
        rw [← Table.mem_entries, ← hfst, ← hsnd]
        exact he
    · rw [hrec]
      exact perm_middle

theorem Open.parts_nil (h : Open l rows 0) : l.parts = [] := by
  have hflat : (l.parts.map (·.sorted)).flatten = [] := by
    have := h.parts
    rwa [take_zero, perm_nil] at this
  refine eq_nil_iff_forall_not_mem.mpr fun part hpart => (h.part_sorted part hpart).1 ?_
  exact flatten_eq_nil_iff.mp hflat part.sorted (mem_map_of_mem hpart)

theorem Open.reopen_eq (h : Open l rows k) : l.reopen = { l with
    nextId := k + (rows.drop k).length
    cacheMap := ((rows.drop k).zipIdx k).foldl (fun cacheMap e => cacheInsert cacheMap e.1 e.2) ∅
    offsets := fun _ => 0 } := by
  have hinfo : l.info.elim 0 (·.nextId) = k ∧ l.info.elim 0 (·.partCount) = l.parts.length ∧
      l.info.elim (fun _ => 0) (·.offsets) = fun _ => 0 := by
    rcases h.info with hinfo | ⟨hinfo, rfl⟩
    · rw [hinfo]
      exact ⟨rfl, rfl, rfl⟩
    · rw [hinfo, h.parts_nil]
      exact ⟨rfl, rfl, rfl⟩
  rw [reopen, h.sorted, h.log, hinfo.1, hinfo.2.1, hinfo.2.2]
  simp

theorem Open.reopen (h : Open l rows k) : Open l.reopen rows k := by
  have hle := h.le
  rw [h.reopen_eq]
  exact {
    le := h.le
    nodup := h.nodup
    nextId := by simp [hle]
    cache := by
      have hzip : (rows.drop k).zipIdx k = rows.zipIdx.drop k := by
        conv_rhs => rw [← take_append_drop k rows, zipIdx_append, length_take_of_le h.le, zero_add]
        rw [drop_left' (by simp [hle])]
      have := cacheRecords_foldl ∅ (h.hashes_nodup (drop_sublist k _)) (by simp)
      rw [cacheRecords, hzip]
      simpa using this
    parts := h.parts
    part_sorted := h.part_sorted
    sorted := h.sorted
    reverseLookup := h.reverseLookup
    offsets := rfl
    log := h.log
    info := h.info }

theorem JumpTable.zero (h : JumpTable offsets rs) : offsets 0 = 0 := by
  rw [h 0 (by decide), countP_eq_zero.mpr (by simp [below]), mul_zero]

theorem Final.reopen (h : Final l rows rs) : Final l.reopen rows rs := by
  have hnext : l.info.elim 0 (·.nextId) = l.nextId := by rw [h.info]; rfl
  have hoff : l.info.elim (fun _ => 0) (·.offsets) = l.offsets := by rw [h.info]; rfl
  rw [HashList.reopen, h.sorted, hnext, hoff]
  split_ifs
  · exact ⟨h.nodup, h.rows, h.order, jumpTable_fill h.order h.jump.zero, rfl, h.reverseLookup, rfl,
      rfl, rfl⟩
  · exact ⟨h.nodup, h.rows, h.order, h.jump, rfl, h.reverseLookup, rfl, rfl, h.info⟩

end FloweeHub.Indexer
