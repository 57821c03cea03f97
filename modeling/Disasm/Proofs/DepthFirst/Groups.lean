import Mathlib.Data.List.Basic
import Disasm.Proofs.DepthFirst.Paths

/-! # What searches find

A sweep finds each vertex that it reaches and has not seen, once. An edge that
leads backwards in the result closes a cycle. The groups of a forest divide the
reached vertices, and no path leads from a group to a later one.
-/

namespace Disasm.DepthFirst

variable {α : Type} {successors : α → List α} {seen vs found : List α}
  {groups earlier : List (List α)} {a b v : α}

/-- No edge leads out of a list of vertices. -/
def Closed (successors : α → List α) (s : List α) : Prop :=
  ∀ a ∈ s, ∀ b, Link successors a b → b ∈ s

theorem Closed.mem_of_reaches (hc : Closed successors seen) (ha : a ∈ seen)
    (h : Reaches successors a b) : b ∈ seen := by
  induction h with
  | refl => exact ha
  | tail _ he ih => exact hc _ ih _ he

theorem Sweep.not_mem_seen (h : Sweep successors seen vs found) : ∀ a ∈ found, a ∉ seen := by
  induction h with
  | nil => simp
  | known _ _ ih => exact ih
  | fresh hn _ _ ihi iho =>
    intro a ha
    rcases List.mem_append.mp ha with ha | ha
    · exact fun hs => iho a ha (List.mem_append_right _ hs)
    · rcases List.mem_cons.mp ha with rfl | ha
      · exact hn
      · exact fun hs => ihi a ha (List.mem_cons_of_mem _ hs)

theorem Sweep.nodup (h : Sweep successors seen vs found) : found.Nodup := by
  induction h with
  | nil => exact .nil
  | known _ _ ih => exact ih
  | fresh _ hi ho ihi iho =>
    have hv := fun hm => hi.not_mem_seen _ hm List.mem_cons_self
    refine List.nodup_append.mpr ⟨iho, List.nodup_cons.mpr ⟨hv, ihi⟩, fun a ha b hb => ?_⟩
    rintro rfl
    exact ho.not_mem_seen a ha (List.mem_append_left _ hb)

theorem Sweep.covers (h : Sweep successors seen vs found) : ∀ v ∈ vs, v ∈ found ++ seen := by
  induction h with
  | nil => simp
  | known hv _ ih =>
    rintro u (_ | ⟨_, hu⟩)
    · exact List.mem_append_right _ hv
    · exact ih u hu
  | fresh _ _ _ _ iho =>
    rintro u (_ | ⟨_, hu⟩)
    · simp
    · simpa [or_assoc] using iho u hu

theorem Sweep.successors_mem (h : Sweep successors seen vs found) :
    ∀ a ∈ found, ∀ b, Link successors a b → b ∈ found ++ seen := by
  induction h with
  | nil => simp
  | known _ _ ih => exact ih
  | fresh _ hi _ ihi iho =>
    intro a ha b hb
    rcases List.mem_append.mp ha with ha | ha
    · simpa [or_assoc] using iho a ha b hb
    · rcases List.mem_cons.mp ha with rfl | ha
      · have := hi.covers b hb
        simp only [List.mem_append, List.mem_cons] at this ⊢
        tauto
      · have := ihi a ha b hb
        simp only [List.mem_append, List.mem_cons] at this ⊢
        tauto

theorem Sweep.closed (h : Sweep successors seen vs found) (hc : Closed successors seen) :
    Closed successors (found ++ seen) := by
  intro a ha b hb
  rcases List.mem_append.mp ha with ha | ha
  · exact h.successors_mem a ha b hb
  · exact List.mem_append_right _ (hc a ha b hb)

theorem Sweep.reached (h : Sweep successors seen vs found) :
    ∀ a ∈ found, ∃ v ∈ vs, Reaches successors v a := by
  intro a ha
  obtain ⟨v, hv, path, hp, -⟩ := h.exists_path a ha
  exact ⟨v, hv, hp.reaches⟩

theorem Sweep.mem_found_iff (h : Sweep successors seen vs found) (hc : Closed successors seen) :
    a ∈ found ↔ a ∉ seen ∧ ∃ v ∈ vs, Reaches successors v a := by
  constructor
  · exact fun ha => ⟨h.not_mem_seen a ha, h.reached a ha⟩
  · rintro ⟨hn, v, hv, hr⟩
    have ha := (h.closed hc).mem_of_reaches (h.covers v hv) hr
    exact (List.mem_append.mp ha).resolve_right hn

theorem Sweep.mem_group_iff (hn : v ∉ seen)
    (h : Sweep successors (v :: seen) (successors v) found) (hc : Closed successors seen) :
    a ∈ v :: found ↔ a ∉ seen ∧ Reaches successors v a := by
  simpa using (Sweep.single hn h).mem_found_iff hc

/-- An edge that leads backwards in the result of a sweep closes a cycle. -/
theorem Sweep.back_edges (h : Sweep successors seen vs found) :
    found.Pairwise fun b a => Link successors a b → Reaches successors b a := by
  induction h with
  | nil => exact .nil
  | known _ _ ih => exact ih
  | fresh hn hi ho ihi iho =>
    have hg := Sweep.single hn hi
    refine List.pairwise_append.mpr ⟨iho, List.pairwise_cons.mpr ⟨fun a ha _ => ?_, ihi⟩, ?_⟩
    · obtain ⟨u, hu, hr⟩ := hi.reached a ha
      exact .head hu hr
    · intro b hb a ha hab
      exact absurd (hg.successors_mem a ha b hab) (ho.not_mem_seen b hb)

theorem Forest.not_mem_seen (h : Forest successors seen vs groups) :
    ∀ a ∈ groups.flatten, a ∉ seen := by
  induction h with
  | nil => simp
  | known _ _ ih => exact ih
  | fresh hn hi _ ih =>
    intro a ha
    rcases List.mem_append.mp (List.flatten_cons ▸ ha) with ha | ha
    · exact (Sweep.single hn hi).not_mem_seen a ha
    · exact fun hs => ih a ha (List.mem_append_right _ hs)

theorem Forest.nodup (h : Forest successors seen vs groups) : groups.flatten.Nodup := by
  induction h with
  | nil => exact .nil
  | known _ _ ih => exact ih
  | fresh hn hi hg ih =>
    rw [List.flatten_cons]
    refine List.nodup_append.mpr ⟨(Sweep.single hn hi).nodup, ih, fun a ha b hb => ?_⟩
    rintro rfl
    exact hg.not_mem_seen a hb (List.mem_append_left _ ha)

theorem Forest.ne_nil (h : Forest successors seen vs groups) : ∀ group ∈ groups, group ≠ [] := by
  induction h with
  | nil => simp
  | known _ _ ih => exact ih
  | fresh _ _ _ ih => exact List.forall_mem_cons.mpr ⟨List.cons_ne_nil _ _, ih⟩

theorem Forest.mem_flatten_iff (h : Forest successors seen vs groups)
    (hc : Closed successors seen) :
    a ∈ groups.flatten ↔ a ∉ seen ∧ ∃ v ∈ vs, Reaches successors v a := by
  induction h with
  | nil => simp
  | known hv _ ih =>
    rw [ih hc, List.exists_mem_cons_iff]
    have := fun hr => hc.mem_of_reaches (b := a) hv hr
    tauto
  | fresh hn hi _ ih =>
    rw [List.flatten_cons, List.mem_append, ih ((Sweep.single hn hi).closed hc),
      List.mem_append, Sweep.mem_group_iff hn hi hc, List.exists_mem_cons_iff]
    tauto

/-- No path leads from a group to a later one. -/
theorem Forest.no_path (h : Forest successors seen vs groups) (hc : Closed successors seen) :
    groups.Pairwise fun former latter =>
      ∀ a ∈ former, ∀ b ∈ latter, ¬ Reaches successors a b := by
  induction h with
  | nil => exact .nil
  | known _ _ ih => exact ih hc
  | fresh hn hi hg ih =>
    have hc' := (Sweep.single hn hi).closed hc
    refine List.pairwise_cons.mpr ⟨fun latter hl a ha b hb hr => ?_, ih hc'⟩
    exact hg.not_mem_seen b (List.mem_flatten_of_mem hl hb)
      (hc'.mem_of_reaches (List.mem_append_left _ ha) hr)

theorem Forest.back_edges (h : Forest successors seen vs groups) :
    ∀ group ∈ groups, group.Pairwise fun b a => Link successors a b → Reaches successors b a := by
  induction h with
  | nil => simp
  | known _ _ ih => exact ih
  | fresh hn hi _ ih => exact List.forall_mem_cons.mpr ⟨(Sweep.single hn hi).back_edges, ih⟩

/-- The groups of vertices taken in turn, behind earlier groups: a vertex of an earlier group
gets none, and any other one leads the group of what it reaches and no earlier leader reaches. -/
inductive Grouped (successors : α → List α) : List (List α) → List α → List (List α) → Prop where
  | nil (earlier : List (List α)) : Grouped successors earlier [] []
  | skip {earlier groups : List (List α)} {vs : List α} {v : α} : v ∈ earlier.flatten →
      Grouped successors earlier vs groups → Grouped successors earlier (v :: vs) groups
  | lead {earlier groups : List (List α)} {vs others : List α} {v : α} : v ∉ earlier.flatten →
      (∀ a, a ∈ v :: others ↔ Reaches successors v a ∧
        ∀ u us, u :: us ∈ earlier → ¬ Reaches successors u a) →
      Grouped successors (earlier ++ [v :: others]) vs groups →
      Grouped successors earlier (v :: vs) ((v :: others) :: groups)

/-- The leaders of groups reach exactly the vertices in them. -/
def Complete (successors : α → List α) (groups : List (List α)) : Prop :=
  ∀ a, a ∈ groups.flatten ↔ ∃ u us, u :: us ∈ groups ∧ Reaches successors u a

theorem Complete.closed (h : Complete successors groups) : Closed successors groups.flatten := by
  intro a ha b hb
  obtain ⟨u, us, hu, hr⟩ := (h a).mp ha
  exact (h b).mpr ⟨u, us, hu, hr.tail hb⟩

theorem Complete.append {others : List α} (h : Complete successors groups)
    (hv : ∀ a, a ∈ v :: others ↔ Reaches successors v a ∧
      ∀ u us, u :: us ∈ groups → ¬ Reaches successors u a) :
    Complete successors (groups ++ [v :: others]) := by
  intro a
  rw [List.flatten_append, List.mem_append, h a, List.flatten_singleton, hv a]
  constructor
  · rintro (⟨u, us, hu, hr⟩ | ⟨hr, _⟩)
    · exact ⟨u, us, List.mem_append_left _ hu, hr⟩
    · exact ⟨v, others, by simp, hr⟩
  · rintro ⟨u, us, hu, hr⟩
    by_cases he : ∃ u us, u :: us ∈ groups ∧ Reaches successors u a
    · exact .inl he
    · simp only [not_exists, not_and] at he
      rcases List.mem_append.mp hu with hu | hu
      · exact absurd hr (he u us hu)
      · obtain ⟨rfl, rfl⟩ := List.cons.inj (List.mem_singleton.mp hu)
        exact .inr ⟨hr, he⟩

theorem Forest.grouped (h : Forest successors seen vs groups)
    (hs : ∀ a, a ∈ seen ↔ a ∈ earlier.flatten) (he : Complete successors earlier) :
    Grouped successors earlier vs groups := by
  induction h generalizing earlier with
  | nil => exact .nil _
  | known hv _ ih => exact .skip ((hs _).mp hv) (ih hs he)
  | @fresh seen vs inner groups v hn hi _ ih =>
    have hc : Closed successors seen := fun a ha b hb =>
      (hs b).mpr (he.closed a ((hs a).mp ha) b hb)
    have hg : ∀ a, a ∈ v :: inner ↔ Reaches successors v a ∧
        ∀ u us, u :: us ∈ earlier → ¬ Reaches successors u a := by
      intro a
      rw [Sweep.mem_group_iff hn hi hc, hs, he a]
      simp only [not_exists, not_and]
      exact and_comm
    refine .lead (mt (hs v).mpr hn) hg (ih (fun a => ?_) (he.append hg))
    rw [List.mem_append, hs, List.flatten_append, List.mem_append, List.flatten_singleton]
    exact or_comm

theorem Forest.flatten_of_isolated [DecidableEq α] (h : Forest successors seen vs groups)
    (hi : ∀ a, successors a = []) (hn : vs.Nodup) :
    groups.flatten = vs.filter (· ∉ seen) := by
  induction h with
  | nil => rfl
  | known hv _ ih => simp [ih hn.of_cons, hv]
  | @fresh seen vs inner groups v hv hs _ ih =>
    obtain ⟨hvs, hn⟩ := List.nodup_cons.mp hn
    rw [hi v] at hs
    cases hs
    have hf : ∀ a ∈ vs, (a ∉ [v] ++ seen) = (a ∉ seen) := fun a ha => by
      have : a ≠ v := fun he => hvs (he ▸ ha)
      simp [this]
    rw [List.flatten_cons, ih hn, List.filter_cons_of_pos (by simpa using hv)]
    simp only [List.singleton_append, List.cons.injEq, true_and]
    exact List.filter_congr fun a ha => by simpa using hf a ha

end Disasm.DepthFirst
