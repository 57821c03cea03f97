import Mathlib.Data.List.Basic
import Mathlib.Data.List.Chain
import Disasm.Proofs.DepthFirst.Search

/-! # Paths of a search

A search comes to each vertex that it finds along a path of edges, and a vertex
is listed before all that is found from it. The path therefore stands in the
result in its own order.
-/

namespace Disasm.DepthFirst

open scoped List

variable {α : Type} {successors : α → List α} {seen vs found path : List α}
  {groups : List (List α)} {a b c u v : α}

structure IsPath (successors : α → List α) (a b : α) (path : List α) : Prop where
  first : path.head? = some a
  last : path.getLast? = some b
  linked : path.IsChain (Link successors)

namespace IsPath

theorem single (a : α) : IsPath successors a a [a] := ⟨rfl, rfl, .singleton a⟩

theorem cons (hab : Link successors a b) (h : IsPath successors b c path) :
    IsPath successors a c (a :: path) := by
  obtain ⟨others, rfl⟩ := List.head?_eq_some_iff.mp h.first
  exact ⟨rfl, h.last, List.isChain_cons_cons.mpr ⟨hab, h.linked⟩⟩

theorem reaches (h : IsPath successors a b path) : Reaches successors a b := by
  obtain ⟨others, rfl⟩ := List.head?_eq_some_iff.mp h.first
  have hlast : (a :: others).getLast (List.cons_ne_nil _ _) = b := by
    rw [← Option.some_inj, ← List.getLast?_eq_some_getLast, h.last]
  exact List.relationReflTransGen_of_exists_isChain_cons others h.linked hlast

/-- A path ends with an edge, unless it leads nowhere. -/
theorem last_edge (h : IsPath successors a b path) (hn : b ≠ a) :
    ∃ u, Link successors u b ∧ [u, b] <:+ path := by
  obtain ⟨front, rfl⟩ := List.getLast?_eq_some_iff.mp h.last
  cases front using List.reverseRecOn with
  | nil => exact absurd (Option.some.inj h.first) hn
  | append_singleton front u =>
    refine ⟨u, ?_, front, by simp⟩
    simpa using (List.isChain_append.mp h.linked).2.2

/-- What lies on a path stands before its end. -/
theorem pair_sublist (h : IsPath successors a b path) (hu : u ∈ path) (hn : u ≠ b) :
    [u, b] <+ path := by
  obtain ⟨front, rfl⟩ := List.getLast?_eq_some_iff.mp h.last
  have hu : u ∈ front := by simpa [hn] using hu
  exact (List.singleton_sublist.mpr hu).append_right [b]

end IsPath

/-- A vertex lies on all paths from one vertex to another. -/
def Dominates (successors : α → List α) (a u b : α) : Prop :=
  ∀ path, IsPath successors a b path → u ∈ path

/-- What a sweep finds is found along a path that stands in the result. -/
theorem Sweep.exists_path (h : Sweep successors seen vs found) :
    ∀ a ∈ found, ∃ v ∈ vs, ∃ path, IsPath successors v a path ∧ path <+ found := by
  induction h with
  | nil => simp
  | known _ _ ih =>
    intro a ha
    obtain ⟨u, hu, hp⟩ := ih a ha
    exact ⟨u, List.mem_cons_of_mem _ hu, hp⟩
  | @fresh seen vs inner outer v _ _ _ ihi iho =>
    intro a ha
    rcases List.mem_append.mp ha with ha | ha
    · obtain ⟨u, hu, path, hp, hs⟩ := iho a ha
      exact ⟨u, List.mem_cons_of_mem _ hu, path, hp, hs.trans (List.sublist_append_left ..)⟩
    · refine ⟨v, List.mem_cons_self, ?_⟩
      have ho : v :: inner <+ outer ++ v :: inner := List.sublist_append_right ..
      rcases List.mem_cons.mp ha with rfl | ha
      · exact ⟨[a], .single a, (List.singleton_sublist.mpr List.mem_cons_self).trans ho⟩
      · -- The path inside the inner sweep goes on behind `v`, which is listed in front of it.
        obtain ⟨u, hu, path, hp, hs⟩ := ihi a ha
        exact ⟨v :: path, hp.cons hu, (hs.cons_cons v).trans ho⟩

/-- What a group holds is found from its first vertex along a path that stands in the group. -/
theorem Forest.exists_path (h : Forest successors seen vs groups) :
    ∀ group ∈ groups, ∃ v, group.head? = some v ∧
      ∀ a ∈ group, ∃ path, IsPath successors v a path ∧ path <+ group := by
  induction h with
  | nil => simp
  | known _ _ ih => exact ih
  | @fresh seen vs inner groups v hn hi _ ih =>
    refine List.forall_mem_cons.mpr ⟨⟨v, rfl, fun a ha => ?_⟩, ih⟩
    obtain ⟨u, hu, hp⟩ := (Sweep.single hn hi).exists_path a ha
    rwa [List.mem_singleton.mp hu] at hp

end Disasm.DepthFirst
