import FloweeHub.Lib.KeyedBag
import FloweeHub.Utxo.Bucket

/-! Walking over the bucket map while buckets are erased. The iterator takes the buckets of a slot
out of the map and puts them back when it moves on. A walk that nothing else interferes with visits
every bucket once, erases what it was told to and leaves all slots unlocked. Other threads that lock
slots meanwhile are left out. -/

namespace FloweeHub.UODB

open Lib List

/-- The buckets of one slot with their keys, in the order in which they came. -/
abbrev BucketMap := List (ℕ × Bucket)

/-- A key has the slot of its remainder by this, so that the last slot stays empty. -/
def KEYMASK : ℕ := 4095

/-- The `std::atomic` pointers of the map; that of a slot that is locked is null. -/
abbrev Slots := List (Option BucketMap)

/-- A slot that was taken out, and the place in it. -/
structure Iterator where
  d : Option BucketMap := none
  b : ℕ
  i : ℤ := -1

namespace Iterator

def value (it : Iterator) : Option (ℕ × Bucket) := if 0 ≤ it.i then it.d.bind (·[it.i.toNat]?) else none

/-- `operator++`, which waits for ever at a slot that is locked. -/
def next : ℕ → Slots → Iterator → Option (Slots × Iterator)
  | 0, _, _ => none
  | turns + 1, m, it =>
    match it.d with
    | some keys =>
      if keys.length ≤ it.i + 1 then next turns (m.set it.b (some keys)) { b := it.b + 1 }
      else some (m, { it with i := it.i + 1 })
    | none =>
      if m.length ≤ it.b then some (m, it)
      else m[it.b]?.join.bind fun keys => next turns (m.set it.b none) { d := some keys, b := it.b }

def erase (turns : ℕ) (m : Slots) (it : Iterator) : Option (Slots × Iterator) :=
  match it.d with
  | none => some (m, it)
  | some keys =>
    it.value.bind fun _ =>
    next turns m { it with d := some (keys.eraseIdx it.i.toNat), i := it.i - 1 }

end Iterator

def Slots.lock (m : Slots) (key : ℕ) : Option (Option Bucket) :=
  m[key % KEYMASK]?.join.map fun keys => (keys.find? fun e => e.1 = key).map Prod.snd

open Iterator

/-- The loop up to `end()`; the visits that `drop` names end in an erase. -/
def walk (drop : ℕ → Bool) : ℕ → BucketMap → Slots × Iterator → Option (BucketMap × Slots × Iterator)
  | 0, _, _ => none
  | turns + 1, visited, (m, it) =>
    if it.b = m.length ∧ it.i = -1 then some (visited, m, it)
    else it.value.bind fun e =>
      ((if drop visited.length then erase else next) (2 * m.length + 2) m it).bind
        (walk drop turns (visited ++ [e]))

def walkFromBegin (drop : ℕ → Bool) (turns : ℕ) (m : Slots) : Option (BucketMap × Slots × Iterator) :=
  (next (2 * m.length + 2) m { b := 0 }).bind (walk drop turns [])

/-- The buckets that are not dropped, where the first is number `n`. -/
def kept (drop : ℕ → Bool) (n : ℕ) (keys : BucketMap) : BucketMap :=
  ((keys.zipIdx n).filter fun e => !drop e.2).map Prod.fst

def keptSlots (drop : ℕ → Bool) : ℕ → List BucketMap → List BucketMap
  | _, [] => []
  | n, keys :: rest => kept drop n keys :: keptSlots drop (n + keys.length) rest

/-- Where the walk stands: `front` and `todo` are in the slot behind those of `done`. -/
def standing (done : List BucketMap) (front : BucketMap) : BucketMap → List BucketMap → Slots × Iterator
  | e :: todo, rest =>
    (done.map some ++ none :: rest.map some,
      { d := some (front ++ e :: todo), b := done.length, i := front.length })
  | [], [] => ((done ++ [front]).map some, { b := done.length + 1 })
  | [], keys :: rest => standing (done ++ [front]) [] keys rest

variable {drop : ℕ → Bool} {n : ℕ} {done rest slots : List BucketMap} {front todo keys : BucketMap}

theorem next_standing {turns : ℕ} {i : ℤ} (hkeys : keys = front ++ todo) (hi : i + 1 = front.length)
    (h : 2 * rest.length + 2 ≤ turns) : next turns (done.map some ++ none :: rest.map some)
      { d := some keys, b := done.length, i := i } = some (standing done front todo rest) := by
  obtain ⟨k, rfl⟩ := Nat.exists_eq_add_of_le' (show 2 ≤ turns by omega)
  subst hkeys
  induction rest generalizing done front todo k i with
  | nil => cases todo <;> simp [Iterator.next, standing, hi]
  | cons keys rest ih =>
    cases todo with
    | nil =>
      rw [length_cons] at h
      obtain ⟨k, rfl⟩ := Nat.exists_eq_add_of_le' (show 2 ≤ k by omega)
      have hrest := @ih (done ++ [front]) [] keys (-1) rfl k (by omega)
      simpa [Iterator.next, standing, hi] using hrest
    | cons e todo => simp [Iterator.next, standing, hi]

theorem walk_step {turns : ℕ} {visited : BucketMap} {e : ℕ × Bucket} :
    walk drop (turns + 1) visited (standing done front (e :: todo) rest) =
      walk drop turns (visited ++ [e])
      (standing done (if drop visited.length then front else front ++ [e]) todo rest) := by
  have hturns : 2 * rest.length + 2 ≤ 2 * (done.map some ++ none :: rest.map some).length + 2 := by
    simp
    omega
  have hvalue : value { d := some (front ++ e :: todo), b := done.length, i := front.length } =
      some e := by simp [value]
  rw [standing, walk, if_neg (by dsimp only; omega), hvalue, Option.bind_some]
  split_ifs
  · simp only [erase, hvalue, Option.bind_some, Int.toNat_natCast]
    rw [eraseIdx_append_of_length_le le_rfl, Nat.sub_self, eraseIdx_zero, tail_cons,
      next_standing rfl (by omega) hturns]
    rfl
  · rw [@next_standing done rest (front ++ [e]) todo _ _ _ (by simp) (by simp) hturns]
    rfl

/-- The induction is on the turns, and on the slots that are left where one is at its end. -/
theorem walk_standing {turns : ℕ} {visited : BucketMap} (h : (todo ++ rest.flatten).length < turns) :
    walk drop turns visited (standing done front todo rest) = some (visited ++ (todo ++ rest.flatten),
      (done ++ (front ++ kept drop visited.length todo) :: keptSlots drop
        (visited.length + todo.length) rest).map some,
      { b := done.length + rest.length + 1 }) := by
  induction turns generalizing done front todo rest visited with
  | zero => exact absurd h (Nat.not_lt_zero _)
  | succ turns ih =>
    induction rest generalizing done front todo with
    | nil =>
      cases todo with
      | nil => simp [standing, walk, kept, keptSlots]
      | cons e todo =>
        rw [walk_step, ih (by simpa using h)]
        cases hd : drop visited.length <;> simp [kept, hd, keptSlots]
    | cons keys rest ihr =>
      cases todo with
      | nil =>
        have hrest := @ihr (done ++ [front]) [] keys (by simpa using h)
        simpa [standing, kept, keptSlots, add_assoc, add_comm 1] using hrest
      | cons e todo =>
        rw [walk_step, ih (by simpa using h)]
        cases hd : drop visited.length <;> simp [kept, hd, add_assoc, add_comm 1]

/-- What a map can hold: each bucket in the slot of its key, and no key twice. -/
structure Content where
  slots : List BucketMap
  length_eq : slots.length = KEYMASK + 1
  fits : ∀ j keys, slots[j]? = some keys → (∀ e ∈ keys, e.1 % KEYMASK = j) ∧ (keys.map Prod.fst).Nodup

theorem kept_sublist (drop : ℕ → Bool) (n : ℕ) (keys : BucketMap) : kept drop n keys <+ keys := by
  have hsub := (filter_sublist (p := fun e => !drop e.2) (l := keys.zipIdx n)).map Prod.fst
  rwa [zipIdx_map_fst] at hsub

theorem flatten_keptSlots : (keptSlots drop n slots).flatten = kept drop n slots.flatten := by
  induction slots generalizing n with
  | nil => rfl
  | cons keys rest ih =>
    rw [keptSlots, flatten_cons, flatten_cons, ih, kept, kept, kept, zipIdx_append, filter_append,
      map_append]

theorem getElem?_keptSlots (j : ℕ) :
    ∃ m, (keptSlots drop n slots)[j]? = slots[j]?.map (kept drop m) := by
  induction slots generalizing n j with
  | nil => exact ⟨0, rfl⟩
  | cons keys rest ih =>
    cases j with
    | zero => exact ⟨n, rfl⟩
    | succ j => exact ih j

theorem length_keptSlots : (keptSlots drop n slots).length = slots.length := by
  induction slots generalizing n with
  | nil => rfl
  | cons keys rest ih => rw [keptSlots, length_cons, ih, length_cons]

namespace Content

variable (c : Content)

def keep (drop : ℕ → Bool) : Content where
  slots := keptSlots drop 0 c.slots
  length_eq := length_keptSlots.trans c.length_eq
  fits j keys h := by
    obtain ⟨m, hm⟩ := @getElem?_keptSlots drop 0 c.slots j
    obtain ⟨old, hold, rfl⟩ := Option.map_eq_some_iff.mp (hm.symm.trans h)
    obtain ⟨hslot, hnd⟩ := c.fits j old hold
    have hsub := kept_sublist drop m old
    exact ⟨fun e he => hslot e (hsub.subset he), (hsub.map _).nodup hnd⟩

/-- A bucket is found under its key. -/
theorem lock_iff (k : ℕ) (b : Bucket) : Slots.lock (c.slots.map some) k = some (some b) ↔
      (k, b) ∈ c.slots.flatten := by
  have hlt : k % KEYMASK < c.slots.length := c.length_eq ▸ Nat.lt_succ_of_lt (Nat.mod_lt k (by decide))
  have hslot := getElem?_eq_getElem hlt
  obtain ⟨-, hnd⟩ := c.fits _ _ hslot
  rw [Slots.lock, getElem?_map, hslot]
  simp only [Option.map_some, Option.join_some, Option.some.injEq]
  constructor
  · intro h
    obtain ⟨⟨k', b⟩, he, rfl⟩ := Option.map_eq_some_iff.mp h
    obtain rfl : k' = k := KeyedBag.key_of_lookup he
    exact mem_flatten.mpr ⟨_, getElem_mem hlt, KeyedBag.mem_of_lookup he⟩
  · intro h
    obtain ⟨keys, hkeys, hmem⟩ := mem_flatten.mp h
    obtain ⟨j, hj⟩ := getElem?_of_mem hkeys
    obtain rfl := (c.fits j keys hj).1 _ hmem
    cases hslot.symm.trans hj
    obtain ⟨e, he⟩ := KeyedBag.exists_lookup_of_mem Prod.fst hmem
    cases inj_on_of_nodup_map hnd (KeyedBag.mem_of_lookup he) hmem (KeyedBag.key_of_lookup he)
    exact Option.map_eq_some_iff.mpr ⟨_, he, rfl⟩

/-- The walk visits every bucket once, in order. It ends with all slots unlocked, and exactly the
buckets that were kept are found. -/
theorem walk_visits (drop : ℕ → Bool) : ∃ (turns : ℕ) (m : List BucketMap),
    walkFromBegin drop turns (c.slots.map some) = some (c.slots.flatten, m.map some, { b := m.length }) ∧
      ∀ k b, Slots.lock (m.map some) k = some (some b) ↔ (k, b) ∈ kept drop 0 c.slots.flatten := by
  refine ⟨c.slots.flatten.length + 1, (c.keep drop).slots, ?_, fun k b => ?_⟩
  · cases hslots : c.slots with
    | nil => cases hslots ▸ c.length_eq
    | cons keys rest =>
      have hbegin : next (2 * ((keys :: rest).map some).length + 2) ((keys :: rest).map some)
          { b := 0 } = some (standing [] [] keys rest) :=
        @next_standing [] rest [] keys keys (2 * ((keys :: rest).map some).length + 1) _
          (nil_append keys).symm rfl
          (by rw [length_map, length_cons]; omega)
      rw [walkFromBegin, hbegin, Option.bind_some, walk_standing (by simp)]
      simp [keep, hslots, keptSlots, length_keptSlots]
  · rw [lock_iff, keep, flatten_keptSlots]

/-- Two buckets in the first slot and one in the second. -/
def three : Content where
  slots := [[(0, {}), (4095, { saveAttempt := 1 })], [(1, {})]] ++ replicate 4094 []
  length_eq := by
    rw [length_append, length_replicate]
    rfl
  fits j keys h := by
    rcases j with _ | _ | j
    · cases h
      decide
    · cases h
      decide
    · have hnil := getElem?_replicate.symm.trans h
      split_ifs at hnil
      cases hnil
      exact ⟨nofun, nodup_nil⟩

/-- The first bucket is erased; the one behind it in its slot is visited and found afterwards. -/
theorem walk_visits_three : ∃ (turns : ℕ) (m : List BucketMap),
    walkFromBegin (· = 0) turns (three.slots.map some) =
        some ([(0, {}), (4095, { saveAttempt := 1 }), (1, {})], m.map some, { b := m.length }) ∧
      Slots.lock (m.map some) 0 ≠ some (some {}) ∧
      Slots.lock (m.map some) 4095 = some (some { saveAttempt := 1 }) := by
  obtain ⟨turns, m, hwalk, hfound⟩ := walk_visits three (· = 0)
  have hall : three.slots.flatten = [(0, {}), (4095, { saveAttempt := 1 }), (1, {})] := by
    rw [three, flatten_append, flatten_replicate_nil]
    rfl
  rw [hall] at hwalk hfound
  refine ⟨turns, m, hwalk, fun h => ?_, (hfound 4095 _).mpr (by decide)⟩
  exact absurd ((hfound 0 _).mp h) (by decide)

end Content

end FloweeHub.UODB
