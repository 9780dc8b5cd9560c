import Mathlib.Data.Finset.Card

/-! Walks over a graph with a set of nodes still to visit; `next` gives the neighbours of a node, or
nothing where it fails. -/

namespace FloweeHub.Lib.Worklist

open Relation List Or

variable {α : Type*} {next : α → Option (List α)}

/-- A step of the walk. -/
def Edge (next : α → Option (List α)) (a b : α) : Prop := ∃ neighbours, next a = some neighbours ∧
    b ∈ neighbours

/-- What can be reached from nodes whose edges stay in `seen` or lead to `stage`. -/
theorem reached_of_closed {seen stage : List α}
    (h : ∀ a ∈ seen, ∀ b, Edge next a b → b ∈ seen ∨ b ∈ stage) {a x : α} (ha : a ∈ seen)
    (hx : ReflTransGen (Edge next) a x) : x ∈ seen ∨ ∃ b ∈ stage, ReflTransGen (Edge next) b x := by
  induction hx with
  | refl => exact inl ha
  | tail _ hedge ih =>
    rcases ih with hseen | ⟨b, hb, hrch⟩
    · rcases h _ hseen _ hedge with hnext | hnext
      · exact inl hnext
      · exact inr ⟨_, hnext, .refl⟩
    · exact inr ⟨b, hb, hrch.tail hedge⟩

variable [DecidableEq α]

/-- One node after another goes from `stage` to `seen`, and its new neighbours to `stage`. -/
def walk (next : α → Option (List α)) : ℕ → List α → List α → Option (List α)
  | _, [], seen => some seen
  | 0, _ :: _, _ => none
  | turns + 1, a :: stage, seen =>
    (next a).bind fun neighbours =>
      walk next turns (neighbours.filter (· ∉ a :: seen) ∪ stage) (a :: seen)

/-- What holds along a walk: the nodes to visit are new, and no edge leaves both sets. -/
structure Walking (next : α → Option (List α)) (nodes : Finset α) (stage seen : List α) : Prop where
  inside : ∀ a ∈ stage, a ∈ nodes
  new : ∀ a ∈ stage, a ∉ seen
  stage_nodup : stage.Nodup
  seen_nodup : seen.Nodup
  closed : ∀ a ∈ seen, ∀ b, Edge next a b → b ∈ seen ∨ b ∈ stage

variable {nodes : Finset α} {a : α} {stage seen neighbours : List α}

theorem mem_stage {b : α} :
    b ∈ neighbours.filter (· ∉ a :: seen) ∪ stage ↔ (b ∈ neighbours ∧ b ∉ a :: seen) ∨ b ∈ stage := by
  rw [mem_union_iff, mem_filter, decide_eq_true_eq]

section

variable (h : Walking next nodes (a :: stage) seen) (hnext : next a = some neighbours)
  (hin : ∀ b ∈ neighbours, b ∈ nodes)
include h hnext hin

theorem Walking.step : Walking next nodes (neighbours.filter (· ∉ a :: seen) ∪ stage) (a :: seen) where
  inside := by
    intro b hb
    rcases mem_stage.mp hb with ⟨hb, -⟩ | hb
    · exact hin b hb
    · exact h.inside b (mem_cons_of_mem _ hb)
  new := by
    intro b hb
    rcases mem_stage.mp hb with ⟨-, hnew⟩ | hold
    · exact hnew
    · rw [mem_cons, not_or]
      refine ⟨fun hc => ?_, h.new b (mem_cons_of_mem _ hold)⟩
      exact (nodup_cons.mp h.stage_nodup).1 (hc ▸ hold)
  stage_nodup := (nodup_cons.mp h.stage_nodup).2.union _
  seen_nodup := nodup_cons.mpr ⟨h.new a mem_cons_self, h.seen_nodup⟩
  closed := by
    intro b hb c hc
    rw [mem_stage]
    rcases mem_cons.mp hb with rfl | hb
    · obtain ⟨l, hl, hcl⟩ := hc
      cases hnext.symm.trans hl
      by_cases hnew : c ∈ b :: seen
      · exact inl hnew
      · exact inr (inl ⟨hcl, hnew⟩)
    · rcases h.closed b hb c hc with hseen | hstg
      · exact inl (mem_cons_of_mem _ hseen)
      · rcases mem_cons.mp hstg with rfl | hstg
        · exact inl mem_cons_self
        · exact inr (inr hstg)

theorem Walking.reached_step (x : α) :
    (x ∈ a :: seen ∨ ∃ b ∈ neighbours.filter (· ∉ a :: seen) ∪ stage, ReflTransGen (Edge next) b x) ↔
      x ∈ seen ∨ ∃ b ∈ a :: stage, ReflTransGen (Edge next) b x := by
  constructor
  · rintro (hx | ⟨b, hb, hrch⟩)
    · rcases mem_cons.mp hx with rfl | hx
      · exact inr ⟨x, mem_cons_self, .refl⟩
      · exact inl hx
    · rcases mem_stage.mp hb with ⟨hb, -⟩ | hb
      · exact inr ⟨a, mem_cons_self, ReflTransGen.head ⟨neighbours, hnext, hb⟩ hrch⟩
      · exact inr ⟨b, mem_cons_of_mem _ hb, hrch⟩
  · rintro (hx | ⟨b, hb, hrch⟩)
    · exact inl (mem_cons_of_mem _ hx)
    · rcases mem_cons.mp hb with rfl | hb
      · exact reached_of_closed (h.step hnext hin).closed mem_cons_self hrch
      · exact inr ⟨b, mem_stage.mpr (inr hb), hrch⟩

end

/-- The walk, with enough turns for the nodes that are not seen yet. -/
theorem walk_spec (hnext : ∀ a ∈ nodes, ∃ neighbours, next a = some neighbours ∧
    ∀ b ∈ neighbours, b ∈ nodes)
    {turns : ℕ} (h : Walking next nodes stage seen) (hturns : (nodes \ seen.toFinset).card ≤ turns) :
    ∃ out, walk next turns stage seen = some out ∧ out.Nodup ∧
      ∀ x, x ∈ out ↔ x ∈ seen ∨ ∃ a ∈ stage, ReflTransGen (Edge next) a x := by
  induction turns generalizing stage seen with
  | zero =>
    cases stage with
    | nil => exact ⟨seen, rfl, h.seen_nodup, by simp⟩
    | cons a stage =>
      have hemp : nodes \ seen.toFinset = ∅ := Finset.card_eq_zero.mp (Nat.le_zero.mp hturns)
      have hmem : a ∈ nodes \ seen.toFinset :=
        Finset.mem_sdiff.mpr ⟨h.inside a mem_cons_self, by simpa using h.new a mem_cons_self⟩
      exact absurd hmem (by simp [hemp])
  | succ turns ih =>
    cases stage with
    | nil => exact ⟨seen, rfl, h.seen_nodup, by simp⟩
    | cons a stage =>
      have ha := h.inside a mem_cons_self
      have hnew := h.new a mem_cons_self
      obtain ⟨neighbours, hnb, hin⟩ := hnext a ha
      have hfewer : (nodes \ (a :: seen).toFinset).card ≤ turns := by
        have hsub : nodes \ (a :: seen).toFinset ⊂ nodes \ seen.toFinset := by
          rw [Finset.ssubset_iff_of_subset (Finset.sdiff_subset_sdiff le_rfl (by simp))]
          exact ⟨a, by simp [ha, hnew], by simp⟩
        have := Finset.card_lt_card hsub
        omega
      obtain ⟨out, hout, hnd, hrch⟩ := ih (h.step hnb hin) hfewer
      refine ⟨out, ?_, hnd, fun x => ?_⟩
      · rw [walk, hnb, Option.bind_some, hout]
      · rw [hrch, h.reached_step hnb hin]

end FloweeHub.Lib.Worklist
