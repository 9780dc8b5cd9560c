import Mathlib.Algebra.Order.Ring.Int
import Mathlib.Data.Finset.Max

/-! Trees given by parent pointers: `up n` follows the pointer `n` times. With heights that go up by
one, two ancestors of one node are comparable. -/

namespace FloweeHub.Lib.ParentTree

open Option

variable {α : Type*} {parent : α → Option α} {a b c d : α} {n : ℕ}

def up (parent : α → Option α) : ℕ → α → Option α
  | 0, a => some a
  | n + 1, a => (parent a).bind (up parent n)

/-- `a` is `b` or above it on the way to the root. -/
def IsAncestor (parent : α → Option α) (a b : α) : Prop := ∃ n, up parent n b = some a

theorem up_add (m n : ℕ) (a : α) : up parent (m + n) a = (up parent m a).bind (up parent n) := by
  induction m generalizing a with
  | zero => rw [Nat.zero_add]; rfl
  | succ m ih =>
    rw [Nat.succ_add]
    cases h : parent a with
    | none => simp [up, h]
    | some b => simpa [up, h] using ih b

namespace IsAncestor

theorem refl (a : α) : IsAncestor parent a a := ⟨0, rfl⟩

theorem trans (hab : IsAncestor parent a b) (hbc : IsAncestor parent b c) : IsAncestor parent a c := by
  obtain ⟨m, hm⟩ := hab
  obtain ⟨n, hn⟩ := hbc
  exact ⟨n + m, by rw [up_add, hn, bind_some, hm]⟩

theorem of_parent (h : parent b = some a) : IsAncestor parent a b := ⟨1, by simp [up, h]⟩

/-- The last step to an ancestor: from the node to its parent. -/
theorem cases_parent (h : IsAncestor parent a b) : a = b ∨ ∃ c, parent b = some c ∧
      IsAncestor parent a c := by
  obtain ⟨n, hn⟩ := h
  cases n with
  | zero => exact .inl (some_inj.mp hn).symm
  | succ n =>
    obtain ⟨c, hc, hup⟩ := bind_eq_some_iff.mp hn
    exact .inr ⟨c, hc, n, hup⟩

/-- The first step away from an ancestor: to one of its children. -/
theorem cases_child (h : IsAncestor parent a b) : a = b ∨ ∃ c, parent c = some a ∧
      IsAncestor parent c b := by
  obtain ⟨n, hn⟩ := h
  cases n with
  | zero => exact .inl (some_inj.mp hn).symm
  | succ n =>
    rw [up_add] at hn
    obtain ⟨c, hc, hup⟩ := bind_eq_some_iff.mp hn
    refine .inr ⟨c, ?_, n, hc⟩
    cases hp : parent c with
    | none => simp [up, hp] at hup
    | some d => simpa [up, hp] using hup

/-- Of two ancestors of a node one is an ancestor of the other. -/
theorem total (ha : IsAncestor parent a c) (hb : IsAncestor parent b c) :
    IsAncestor parent a b ∨ IsAncestor parent b a := by
  obtain ⟨m, hm⟩ := ha
  obtain ⟨n, hn⟩ := hb
  rcases le_total m n with hle | hle
  · obtain ⟨k, rfl⟩ := Nat.exists_eq_add_of_le hle
    rw [up_add, hm, bind_some] at hn
    exact .inr ⟨k, hn⟩
  · obtain ⟨k, rfl⟩ := Nat.exists_eq_add_of_le hle
    rw [up_add, hn, bind_some] at hm
    exact .inl ⟨k, hm⟩

end IsAncestor

/-- A measure that grows from parent to child. -/
def Grows {β : Type*} [Preorder β] (parent : α → Option α) (f : α → β) : Prop :=
  ∀ ⦃a b⦄, parent b = some a → f a < f b

section Grows

variable {β : Type*} [PartialOrder β] {f : α → β}

variable (hf : Grows parent f)

include hf

section

variable (h : IsAncestor parent a b)

include h

theorem Grows.le : f a ≤ f b := by
  obtain ⟨n, hn⟩ := h
  induction n generalizing b with
  | zero => rw [some_inj.mp hn]
  | succ n ih =>
    obtain ⟨c, hc, hup⟩ := bind_eq_some_iff.mp hn
    exact (ih hup).trans (hf hc).le

theorem Grows.lt (hne : a ≠ b) : f a < f b := by
  rcases h.cases_parent with rfl | ⟨c, hc, hac⟩
  · exact absurd rfl hne
  · exact (hf.le hac).trans_lt (hf hc)

theorem Grows.eq (hle : f b ≤ f a) : a = b := by
  by_contra hne
  exact absurd hle (hf.lt h hne).not_ge

end

theorem Grows.antisymm (hab : IsAncestor parent a b) (hba : IsAncestor parent b a) : a = b :=
  hf.eq hab (hf.le hba)

omit hf

end Grows

/-- Heights: a child is one above its parent. -/
def Heights (parent : α → Option α) (height : α → ℤ) : Prop := ∀ ⦃a b⦄, parent b = some a →
    height b = height a + 1

section Heights

variable {height : α → ℤ}

variable (h : Heights parent height)

include h

theorem Heights.grows : @Grows _ _ Int.instLinearOrder.toPreorder parent height := fun a b hp => by
  have := h hp
  omega

theorem Heights.up (hup : up parent n b = some a) : height b = height a + n := by
  induction n generalizing b with
  | zero => rw [some_inj.mp hup]; simp
  | succ n ih =>
    obtain ⟨c, hc, hup⟩ := bind_eq_some_iff.mp hup
    have := h hc
    have := ih hup
    omega

theorem Heights.exists_root (hlow : ∀ a, 0 ≤ height a) (a : α) : ∃ r, IsAncestor parent r a ∧
      parent r = none := by
  obtain ⟨n, hn⟩ : ∃ n : ℕ, height a < n := ⟨(height a).toNat + 1, by omega⟩
  induction n generalizing a with
  | zero =>
    have := hlow a
    omega
  | succ n ih =>
    cases hp : parent a with
    | none => exact ⟨a, .refl a, hp⟩
    | some b =>
      have := h hp
      obtain ⟨r, hr, hroot⟩ := ih b (by push_cast at hn; omega)
      exact ⟨r, hr.trans (.of_parent hp), hroot⟩

/-- The ancestor at a height is found by as many steps as the heights differ. -/
theorem Heights.up_iff {k : ℤ} (hk : k ≤ height b) :
    ParentTree.up parent (height b - k).toNat b = some a ↔ IsAncestor parent a b ∧ height a = k := by
  constructor
  · intro hup
    have := h.up hup
    exact ⟨⟨_, hup⟩, by omega⟩
  · rintro ⟨⟨n, hn⟩, rfl⟩
    have := h.up hn
    have hstps : (height b - height a).toNat = n := by omega
    rw [hstps, hn]

omit h

end Heights

section Weight

variable {height : α → ℤ} {f : α → ℕ}

def pathSum (parent : α → Option α) (f : α → ℕ) : ℕ → α → ℕ
  | 0, a => f a
  | n + 1, a => f a + (parent a).elim 0 (pathSum parent f n)

def weight (parent : α → Option α) (height : α → ℤ) (f : α → ℕ) (a : α) : ℕ :=
  pathSum parent f (height a).toNat a

variable (h : Heights parent height)

include h

section

variable (hlow : ∀ a, 0 ≤ height a)

include hlow

theorem pathSum_eq_weight (hn : height a ≤ n) : pathSum parent f n a = weight parent height f a := by
  induction n generalizing a with
  | zero =>
    rw [weight, show (height a).toNat = 0 by omega]
  | succ n ih =>
    cases hp : parent a with
    | none => cases hk : (height a).toNat <;> simp [weight, pathSum, hp, hk]
    | some b =>
      have := h hp
      have := hlow b
      obtain ⟨k, hk⟩ : ∃ k, (height a).toNat = k + 1 := ⟨(height b).toNat, by omega⟩
      have hkb : k = (height b).toNat := by omega
      simp only [weight, hk, pathSum, hp, elim_some]
      rw [ih (by omega), hkb]
      rfl

theorem weight_eq (a : α) :
    weight parent height f a = f a + (parent a).elim 0 (weight parent height f) := by
  have hle : height a ≤ ((height a).toNat + 1 : ℕ) := by
    omega
  rw [← pathSum_eq_weight h hlow hle, pathSum]
  cases hp : parent a with
  | none => rfl
  | some b =>
    have := h hp
    simp only [elim_some]
    rw [pathSum_eq_weight h hlow (by omega)]

theorem weight_le (hab : IsAncestor parent a b) :
    weight parent height f a ≤ weight parent height f b := by
  obtain ⟨n, hn⟩ := hab
  induction n generalizing b with
  | zero => rw [some_inj.mp hn]
  | succ n ih =>
    obtain ⟨c, hc, hup⟩ := bind_eq_some_iff.mp hn
    rw [weight_eq h hlow b, hc]
    exact (ih hup).trans (Nat.le_add_left ..)

end

omit h

end Weight

section Leaves

variable {s : Finset α} {height : α → ℤ}

/-- A node of the set that is no parent in it. -/
def IsLeaf (parent : α → Option α) (s : Finset α) (a : α) : Prop := a ∈ s ∧ ∀ c ∈ s, parent c ≠ some a

/-- With every node of the set its ancestors are in the set. -/
def Closed (parent : α → Option α) (s : Finset α) : Prop := ∀ ⦃a b⦄, parent b = some a → b ∈ s → a ∈ s

theorem Closed.ancestor (hs : Closed parent s) (h : IsAncestor parent a b) (hb : b ∈ s) : a ∈ s := by
  obtain ⟨n, hn⟩ := h
  induction n generalizing b with
  | zero => rwa [← some_inj.mp hn]
  | succ n ih =>
    obtain ⟨c, hc, hup⟩ := bind_eq_some_iff.mp hn
    exact ih (hs hc hb) hup

theorem IsLeaf.eq (ha : IsLeaf parent s a) (hs : Closed parent s) (h : IsAncestor parent a b)
    (hb : b ∈ s) : a = b := by
  rcases h.cases_child with rfl | ⟨c, hc, hcb⟩
  · rfl
  · exact absurd hc (ha.2 c (hs.ancestor hcb hb))

theorem exists_leaf (hh : Heights parent height) (ha : a ∈ s) :
    ∃ b, IsLeaf parent s b ∧ IsAncestor parent a b := by
  classical
  obtain ⟨b, hb, hmax⟩ := (s.filter fun b => IsAncestor parent a b).exists_max_image height
    ⟨a, Finset.mem_filter.mpr ⟨ha, .refl a⟩⟩
  obtain ⟨hbs, hab⟩ := Finset.mem_filter.mp hb
  refine ⟨b, ⟨hbs, fun c hc hp => ?_⟩, hab⟩
  have hle := hmax c (Finset.mem_filter.mpr ⟨hc, hab.trans (.of_parent hp)⟩)
  have := hh hp
  omega

end Leaves

end FloweeHub.Lib.ParentTree
