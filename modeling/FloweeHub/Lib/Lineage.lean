import Mathlib.Data.Finset.Card

/-! Families in a graph of parents: the nodes from which parents lead to a node, itself included. -/

namespace FloweeHub.Lib.Lineage

open Relation Finset Or

variable {α : Type*} {Parent Parent' : α → α → Prop} {nodes gone : Finset α} {a d new : α}
  {parents : List α}

open Classical in
/-- The nodes from which parents lead to `a`. -/
noncomputable def family (nodes : Finset α) (Parent : α → α → Prop) (a : α) : Finset α :=
  nodes.filter fun d => ReflTransGen Parent d a

theorem mem_family : d ∈ family nodes Parent a ↔ d ∈ nodes ∧ ReflTransGen Parent d a := by
  simp [family]

theorem mem_family_self (ha : a ∈ nodes) : a ∈ family nodes Parent a := mem_family.mpr ⟨ha, .refl⟩

/-- `Parent'` has a node more, which is nobody's parent yet. -/
structure Grows (Parent Parent' : α → α → Prop) (new : α) (parents : List α) : Prop where
  old : ∀ d p, Parent d p → d ≠ new ∧ p ≠ new
  other : new ∉ parents
  iff : ∀ d p, Parent' d p ↔ Parent d p ∨ d = new ∧ p ∈ parents

theorem Grows.reach_old (h : Grows Parent Parent' new parents) (hd : d ≠ new) :
    ReflTransGen Parent' d a ↔ ReflTransGen Parent d a := by
  constructor
  · intro hrch
    induction hrch using ReflTransGen.head_induction_on with
    | refl => exact .refl
    | head hstep _ ih =>
      rcases (h.iff _ _).mp hstep with hold | ⟨hnew, -⟩
      · exact ReflTransGen.head hold (ih (h.old _ _ hold).2)
      · exact absurd hnew hd
  · exact ReflTransGen.mono (fun d p hold => (h.iff d p).mpr (inl hold)) _ _

theorem Grows.reach_new (h : Grows Parent Parent' new parents) :
    ReflTransGen Parent' new a ↔ a = new ∨ ∃ p ∈ parents, ReflTransGen Parent p a := by
  have hpar : ∀ p, Parent' new p ↔ p ∈ parents := by
    intro p
    rw [h.iff]
    exact ⟨fun hp => hp.elim (fun hold => absurd rfl (h.old _ _ hold).1) And.right, fun hp =>
      inr ⟨rfl, hp⟩⟩
  have hne : ∀ p ∈ parents, p ≠ new := fun p hp hc => h.other (hc ▸ hp)
  rw [ReflTransGen.cases_head_iff]
  constructor
  · rintro (rfl | ⟨p, hp, hrch⟩)
    · exact inl rfl
    · have hp := (hpar p).mp hp
      exact inr ⟨p, hp, (h.reach_old (hne p hp)).mp hrch⟩
  · rintro (rfl | ⟨p, hp, hrch⟩)
    · exact inl rfl
    · exact inr ⟨p, (hpar p).mpr hp, (h.reach_old (hne p hp)).mpr hrch⟩

/-- The graph without the nodes that are gone. -/
def Without (Parent Parent' : α → α → Prop) (gone : Finset α) : Prop :=
  ∀ d p, Parent' d p ↔ Parent d p ∧ d ∉ gone ∧ p ∉ gone

theorem Without.reach (h : Without Parent Parent' gone) (hrch : ReflTransGen Parent' d a) :
    ReflTransGen Parent d a :=
  ReflTransGen.mono (fun d p hstep => ((h d p).mp hstep).1) _ _ hrch

theorem Without.reach_of_path (Good : α → Prop) (h : Without Parent Parent' gone)
    (hgood : ∀ x, Good x → x ∉ gone) (hstep : ∀ d p, Good d → Parent d p → ReflTransGen Parent p a →
      Good p) (hd : Good d) (hrch : ReflTransGen Parent d a) :
    ReflTransGen Parent' d a := by
  induction hrch using ReflTransGen.head_induction_on with
  | refl => exact .refl
  | @head d p hpar hrest ih =>
    have hp := hstep d p hd hpar hrest
    exact ReflTransGen.head ((h d p).mpr ⟨hpar, hgood d hd, hgood p hp⟩) (ih hp)

theorem Without.reach_of_closed (h : Without Parent Parent' gone)
    (hclosed : ∀ d p, Parent d p → p ∈ gone → d ∈ gone) (hd : d ∉ gone)
    (hrch : ReflTransGen Parent d a) : ReflTransGen Parent' d a :=
  h.reach_of_path (· ∉ gone) (fun _ hx => hx) (fun d p hd hp _ hc => hd (hclosed d p hp hc)) hd hrch

/-- No node is cut off from one that is no ancestor of what goes. -/
theorem Without.reach_of_not_above (h : Without Parent Parent' gone)
    (habv : ∀ r ∈ gone, ¬ ReflTransGen Parent r a) (hrch : ReflTransGen Parent d a) :
    ReflTransGen Parent' d a :=
  h.reach_of_path (ReflTransGen Parent · a) (fun x hx hc => habv x hc hx) (fun _ _ _ _ hp =>
    hp) hrch hrch

variable [DecidableEq α]

variable (h : Grows Parent Parent' new parents)

include h

theorem Grows.family_ancestor (ha : ∃ p ∈ parents, ReflTransGen Parent p a) :
    family (insert new nodes) Parent' a = insert new (family nodes Parent a) := by
  ext d
  rw [mem_family, mem_insert, mem_insert, mem_family]
  by_cases hd : d = new
  · subst hd
    simp [h.reach_new.mpr (inr ha)]
  · simp [hd, h.reach_old hd]

theorem Grows.family_other (hnew : new ∉ nodes) (hne : a ≠ new)
    (ha : ¬ ∃ p ∈ parents, ReflTransGen Parent p a) :
    family (insert new nodes) Parent' a = family nodes Parent a := by
  ext d
  rw [mem_family, mem_insert, mem_family]
  by_cases hd : d = new
  · subst hd
    simp only [h.reach_new, hne, ha, or_self, and_false, false_iff, not_and]
    exact fun hc => absurd hc hnew
  · simp [hd, h.reach_old hd]

theorem Grows.family_new : family (insert new nodes) Parent' new = {new} := by
  ext d
  rw [mem_family, mem_insert, mem_singleton]
  constructor
  · rintro ⟨-, hrch⟩
    by_contra hd
    rcases ((h.reach_old hd).mp hrch).cases_tail with heq | ⟨p, -, hstep⟩
    · exact hd heq.symm
    · exact (h.old _ _ hstep).2 rfl
  · rintro rfl
    exact ⟨inl rfl, .refl⟩

omit h

theorem Without.family_subset (h : Without Parent Parent' gone) :
    family (nodes \ gone) Parent' a ⊆ family nodes Parent a \ gone := by
  intro d hd
  rw [mem_family, mem_sdiff] at hd
  exact mem_sdiff.mpr ⟨mem_family.mpr ⟨hd.1.1, h.reach hd.2⟩, hd.1.2⟩

theorem Without.family_eq (h : Without Parent Parent' gone)
    (hkeep : ∀ d ∈ family nodes Parent a \ gone, ReflTransGen Parent' d a) :
    family (nodes \ gone) Parent' a = family nodes Parent a \ gone := by
  refine Finset.Subset.antisymm h.family_subset fun d hd => ?_
  have hin := mem_sdiff.mp hd
  exact mem_family.mpr ⟨mem_sdiff.mpr ⟨(mem_family.mp hin.1).1, hin.2⟩, hkeep d hd⟩

end FloweeHub.Lib.Lineage
