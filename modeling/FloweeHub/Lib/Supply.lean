import FloweeHub.Lib.KeyedBag

/-! Stores from which records are taken by key, one after the other: a bag that may hold a key more
than once, and a store that gives every key once. -/

namespace FloweeHub.Lib

open scoped List

variable {κ α σ : Type*}

/-- A store: what is there under a key, and the store without it. -/
structure Supply (κ α σ : Type*) where
  find : κ → σ → Option α
  take : κ → σ → σ

namespace Supply

variable (S : Supply κ α σ)

def left (ks : List κ) (x : σ) : σ := ks.foldl (fun x k => S.take k x) x

@[simp] theorem left_nil (x : σ) : S.left [] x = x := rfl

@[simp] theorem left_cons (k : κ) (ks : List κ) (x : σ) :
    S.left (k :: ks) x = S.left ks (S.take k x) := rfl

theorem left_append (ks ls : List κ) (x : σ) : S.left (ks ++ ls) x = S.left ls (S.left ks x) :=
  List.foldl_append

def resolve : List κ → σ → Option (List α)
  | [], _ => some []
  | k :: ks, x => (S.find k x).bind fun a => (resolve ks (S.take k x)).map (a :: ·)

variable {S} {x : σ} {as xs : List α} {k : κ} {ks : List κ}

theorem resolve_nil_eq_some : S.resolve [] x = some as ↔ as = [] := by
  simp [resolve, eq_comm]

theorem resolve_cons_eq_some : S.resolve (k :: ks) x = some as ↔
      ∃ a bs, S.find k x = some a ∧ S.resolve ks (S.take k x) = some bs ∧ as = a :: bs := by
  simp only [resolve, Option.bind_eq_some_iff, Option.map_eq_some_iff]
  constructor
  · rintro ⟨a, ha, bs, hbs, rfl⟩
    exact ⟨a, bs, ha, hbs, rfl⟩
  · rintro ⟨a, bs, ha, hbs, rfl⟩
    exact ⟨a, ha, bs, hbs, rfl⟩

theorem resolve_append_eq_some {ls : List κ} : S.resolve (ks ++ ls) x = some as ↔
      ∃ bs cs, S.resolve ks x = some bs ∧ S.resolve ls (S.left ks x) = some cs ∧ as = bs ++ cs := by
  induction ks generalizing x as with
  | nil => simp [resolve]
  | cons k ks ih =>
    simp only [List.cons_append, resolve_cons_eq_some, ih, left_cons]
    constructor
    · rintro ⟨a, _, ha, ⟨bs, cs, hbs, hcs, rfl⟩, rfl⟩
      exact ⟨a :: bs, cs, ⟨a, bs, ha, hbs, rfl⟩, hcs, rfl⟩
    · rintro ⟨_, cs, ⟨a, bs, ha, hbs, rfl⟩, hcs, rfl⟩
      exact ⟨a, bs ++ cs, ha, ⟨bs, cs, hbs, hcs, rfl⟩, rfl⟩

theorem length_of_resolve (h : S.resolve ks x = some as) : as.length = ks.length := by
  induction ks generalizing x as with
  | nil => simp [resolve_nil_eq_some.mp h]
  | cons k ks ih =>
    obtain ⟨a, bs, -, hbs, rfl⟩ := resolve_cons_eq_some.mp h
    simp [ih hbs]

theorem forall₂_congr_of_mem {R R' : κ → α → Prop}
    (h : ∀ k ∈ ks, ∀ a, R k a ↔ R' k a) : List.Forall₂ R ks as ↔ List.Forall₂ R' ks as := by
  simp only [List.forall₂_iff_zip]
  refine and_congr_right fun _ => ⟨fun hz k a hka => ?_, fun hz k a hka => ?_⟩
  · exact (h k (List.of_mem_zip hka).1 a).mp (hz hka)
  · exact (h k (List.of_mem_zip hka).1 a).mpr (hz hka)

variable [DecidableEq κ]

/-- A store that forgets a key when it is taken. -/
def once : Supply κ α (κ → Option α) where
  find k f := f k
  take k f := Function.update f k none

theorem resolve_once_iff {f : κ → Option α} :
    once.resolve ks f = some as ↔ ks.Nodup ∧ List.Forall₂ (fun k a => f k = some a) ks as := by
  induction ks generalizing f as with
  | nil => simp [resolve_nil_eq_some]
  | cons k ks ih =>
    have hrest : k ∉ ks → ∀ bs, List.Forall₂ (fun l b => Function.update f k none l = some b) ks bs ↔
        List.Forall₂ (fun l b => f l = some b) ks bs := fun hk bs =>
      forall₂_congr_of_mem fun l hl b => by
        rw [Function.update_of_ne (show l ≠ k from fun heq => hk (heq ▸ hl))]
    rw [resolve_cons_eq_some]
    constructor
    · rintro ⟨a, bs, ha, hbs, rfl⟩
      obtain ⟨hn, hall⟩ := ih.mp hbs
      -- a key that was taken before is not found
      have hk : k ∉ ks := fun hmem => by
        obtain ⟨i, hi, rfl⟩ := List.mem_iff_getElem.mp hmem
        have h := hall.get hi (hall.length_eq ▸ hi)
        simp [once] at h
      exact ⟨List.nodup_cons.mpr ⟨hk, hn⟩, .cons ha ((hrest hk bs).mp hall)⟩
    · rintro ⟨hn, hall⟩
      obtain ⟨hk, hn⟩ := List.nodup_cons.mp hn
      cases hall with
      | cons ha hall => exact ⟨_, _, ha, ih.mpr ⟨hn, (hrest hk _).mpr hall⟩, rfl⟩

variable (key : α → κ) (ok : α → Prop) [DecidablePred ok]

/-- The first record under the key, provided it is one that can be used. -/
def bag : Supply κ α (List α) where
  find k xs := (KeyedBag.lookup key k xs).filter ok
  take := KeyedBag.discard key

variable {key ok} {a : α}

theorem find_bag_eq_some : (bag key ok).find k xs = some a ↔ KeyedBag.lookup key k xs = some a ∧
      ok a := by
  simp [bag, Option.filter_eq_some_iff]

theorem left_bag (ks : List κ) (xs : List α) :
    (bag key ok).left ks xs = (KeyedBag.takeAll key ks xs).2 := by
  induction ks generalizing xs with
  | nil => rfl
  | cons k ks ih => rw [left_cons, ih]; rfl

/-- What was taken and what is left make up what was there. -/
theorem perm_of_resolve_bag (h : (bag key ok).resolve ks xs = some as) :
    as.map key = ks ∧ xs ~ as ++ (bag key ok).left ks xs ∧ ∀ a ∈ as, ok a := by
  induction ks generalizing xs as with
  | nil =>
    obtain rfl := resolve_nil_eq_some.mp h
    simp
  | cons k ks ih =>
    obtain ⟨a, bs, ha, hbs, rfl⟩ := resolve_cons_eq_some.mp h
    obtain ⟨ha, hok⟩ := find_bag_eq_some.mp ha
    obtain ⟨hk, hp, hall⟩ := ih hbs
    refine ⟨by simp [hk, KeyedBag.key_of_lookup ha], ?_, List.forall_mem_cons.mpr ⟨hok, hall⟩⟩
    exact (KeyedBag.perm_cons_discard ha).trans (hp.cons a)

/-- The first time a key is taken it gives the record that was there at the start. -/
theorem mem_of_resolve_bag (h : (bag key ok).resolve ks xs = some as) (hk : k ∈ ks)
    (ha : KeyedBag.lookup key k xs = some a) :
    a ∈ as := by
  induction ks generalizing xs as with
  | nil => cases hk
  | cons l ks ih =>
    obtain ⟨b, bs, hb, hbs, rfl⟩ := resolve_cons_eq_some.mp h
    by_cases hkl : k = l
    · subst hkl
      rw [(find_bag_eq_some.mp hb).1] at ha
      cases ha
      exact List.mem_cons_self
    · have hrest : k ∈ ks := (List.mem_cons.mp hk).resolve_left hkl
      exact List.mem_cons_of_mem _ (ih hbs hrest ((KeyedBag.lookup_discard_of_ne hkl).trans ha))

/-- Keys that are all different are resolved against the bag as it is. -/
theorem resolve_bag_iff_of_nodup (hn : ks.Nodup) : (bag key ok).resolve ks xs = some as ↔
      List.Forall₂ (fun k a => KeyedBag.lookup key k xs = some a) ks as ∧ ∀ a ∈ as, ok a := by
  induction ks generalizing xs as with
  | nil =>
    rw [resolve_nil_eq_some, List.forall₂_nil_left_iff]
    exact ⟨fun h => ⟨h, by simp [h]⟩, And.left⟩
  | cons k ks ih =>
    obtain ⟨hk, hn⟩ := List.nodup_cons.mp hn
    have hsame : ∀ l ∈ ks, KeyedBag.lookup key l (KeyedBag.discard key k xs) =
        KeyedBag.lookup key l xs :=
      fun l hl => KeyedBag.lookup_discard_of_ne fun heq => hk (heq ▸ hl)
    have hrest : ∀ bs, List.Forall₂ (fun l a => KeyedBag.lookup key l (KeyedBag.discard key k xs) =
        some a) ks bs ↔
        List.Forall₂ (fun l a => KeyedBag.lookup key l xs = some a) ks bs := fun bs =>
      forall₂_congr_of_mem fun l hl b => by rw [hsame l hl]
    rw [resolve_cons_eq_some]
    constructor
    · rintro ⟨a, bs, ha, hbs, rfl⟩
      obtain ⟨ha, hok⟩ := find_bag_eq_some.mp ha
      obtain ⟨hall, hoks⟩ := (ih hn).mp hbs
      exact ⟨.cons ha ((hrest bs).mp hall), List.forall_mem_cons.mpr ⟨hok, hoks⟩⟩
    · rintro ⟨_ | ⟨ha, hall⟩, hoks⟩
      obtain ⟨hok, hoks⟩ := List.forall_mem_cons.mp hoks
      exact ⟨_, _, find_bag_eq_some.mpr ⟨ha, hok⟩, (ih hn).mpr ⟨(hrest _).mpr hall, hoks⟩, rfl⟩

end Supply

end FloweeHub.Lib
