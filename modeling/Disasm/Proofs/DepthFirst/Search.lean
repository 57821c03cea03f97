import Mathlib.Data.Finset.Card
import Mathlib.Data.Finset.Dedup
import Mathlib.Logic.Relation
import Disasm.FlowGraph.DepthFirst

/-! # Searches without a depth limit

`Sweep` and `Forest` describe finished searches by derivations, without a limit
on the length of a search path. They have at most one outcome, and a limit that
leaves room for the vertices not yet seen gives that outcome. Visits to vertices
that were seen before can be left out.
-/

namespace Disasm.DepthFirst

variable {α : Type} {successors : α → List α}

def Link (successors : α → List α) (a b : α) : Prop := b ∈ successors a

/-- A path of edges, possibly empty, leads from one vertex to another. -/
def Reaches (successors : α → List α) : α → α → Prop := Relation.ReflTransGen (Link successors)

/-- Visiting vertices in turn, with some seen before, finds a list of vertices. -/
inductive Sweep (successors : α → List α) : List α → List α → List α → Prop where
  | nil (seen : List α) : Sweep successors seen [] []
  | known {seen vs found : List α} {v : α} : v ∈ seen →
      Sweep successors seen vs found → Sweep successors seen (v :: vs) found
  | fresh {seen vs inner outer : List α} {v : α} : v ∉ seen →
      Sweep successors (v :: seen) (successors v) inner →
      Sweep successors (v :: inner ++ seen) vs outer →
      Sweep successors seen (v :: vs) (outer ++ v :: inner)

/-- Growing a group from each vertex not yet seen, with some seen before. -/
inductive Forest (successors : α → List α) : List α → List α → List (List α) → Prop where
  | nil (seen : List α) : Forest successors seen [] []
  | known {seen vs : List α} {groups : List (List α)} {v : α} : v ∈ seen →
      Forest successors seen vs groups → Forest successors seen (v :: vs) groups
  | fresh {seen vs inner : List α} {groups : List (List α)} {v : α} : v ∉ seen →
      Sweep successors (v :: seen) (successors v) inner →
      Forest successors (v :: inner ++ seen) vs groups →
      Forest successors seen (v :: vs) ((v :: inner) :: groups)

variable {seen vs found : List α} {groups : List (List α)} {v : α}

theorem Sweep.single (hv : v ∉ seen) (h : Sweep successors (v :: seen) (successors v) found) :
    Sweep successors seen [v] (v :: found) := .fresh hv h (.nil _)

theorem Sweep.unique {found' : List α} (h : Sweep successors seen vs found)
    (h' : Sweep successors seen vs found') : found = found' := by
  induction h generalizing found' with
  | nil => cases h'; rfl
  | known hv _ ih =>
    cases h' with
    | known _ h' => exact ih h'
    | fresh hn => exact absurd hv hn
  | fresh hn _ _ ih ih' =>
    cases h' with
    | known hv => exact absurd hv hn
    | fresh _ hi ho =>
      obtain rfl := ih hi
      rw [ih' ho]

/-- A sweep depends only on the successors of what it reaches. -/
theorem Sweep.congr {successors' : α → List α} (h : Sweep successors seen vs found)
    (hs : ∀ v ∈ vs, ∀ a, Reaches successors v a → successors a = successors' a) :
    Sweep successors' seen vs found := by
  induction h with
  | nil => exact .nil _
  | known hv _ ih => exact .known hv (ih fun u hu => hs u (List.mem_cons_of_mem _ hu))
  | @fresh seen vs inner outer v hn _ _ ihi iho =>
    have hv : successors v = successors' v := hs v List.mem_cons_self v .refl
    have hi : Sweep successors' (v :: seen) (successors' v) inner := by
      rw [← hv]
      apply ihi
      intro u hu a ha
      exact hs v List.mem_cons_self a (.head hu ha)
    exact .fresh hn hi (iho fun u hu => hs u (List.mem_cons_of_mem _ hu))

/-- What was seen before makes no difference to a sweep. -/
theorem Sweep.filter {p : α → Bool} (h : Sweep successors seen vs found)
    (hp : ∀ v ∈ vs, v ∈ seen ∨ p v) : Sweep successors seen (vs.filter p) found := by
  induction h with
  | nil => exact .nil _
  | @known seen vs found v hv _ ih =>
    have ih := ih fun u hu => hp u (List.mem_cons_of_mem _ hu)
    by_cases hpv : p v
    · rw [List.filter_cons_of_pos hpv]
      exact .known hv ih
    · rwa [List.filter_cons_of_neg hpv]
  | @fresh seen vs inner outer v hn hi _ _ iho =>
    have hpv : p v := (hp v List.mem_cons_self).resolve_left hn
    rw [List.filter_cons_of_pos hpv]
    apply Sweep.fresh hn hi
    apply iho
    intro u hu
    exact (hp u (List.mem_cons_of_mem _ hu)).imp_left (List.mem_append_right _)

/-- Only the first visit to a vertex makes a difference. -/
theorem Sweep.eraseDups [DecidableEq α] (h : Sweep successors seen vs found) :
    Sweep successors seen vs.eraseDups found := by
  induction hl : vs.length using Nat.strongRecOn generalizing seen vs found with
  | _ _ ih =>
    subst hl
    -- A vertex is seen once it was visited, so it can be left out of the rest.
    have hrest {seen vs' found : List α} {v : α} (hv : v ∈ seen) (hl : vs'.length < vs.length)
        (h : Sweep successors seen vs' found) :
        Sweep successors seen (vs'.filter fun u => !u == v).eraseDups found := by
      refine ih _ ((List.length_filter_le _ _).trans_lt hl) (h.filter fun u _ => ?_) rfl
      by_cases hu : u = v
      · exact .inl (hu ▸ hv)
      · exact .inr (by simp [hu])
    cases h with
    | nil => exact .nil _
    | known hv h =>
      rw [List.eraseDups_cons]
      exact .known hv (hrest hv (Nat.lt_succ_self _) h)
    | fresh hn hi ho =>
      rw [List.eraseDups_cons]
      exact .fresh hn hi (hrest (by simp) (Nat.lt_succ_self _) ho)

/-- The successors of a vertex without itself, each at its first place. -/
def essential [DecidableEq α] (successors : α → List α) (v : α) : List α :=
  ((successors v).filter (· ≠ v)).eraseDups

theorem Sweep.condense [DecidableEq α] (h : Sweep successors (v :: seen) vs found) :
    Sweep successors (v :: seen) (vs.filter (· ≠ v)).eraseDups found := by
  apply Sweep.eraseDups
  apply h.filter
  intro u _
  by_cases hu : u = v
  · exact .inl (hu ▸ List.mem_cons_self)
  · exact .inr (decide_eq_true hu)

/-- A sweep needs neither repeated successors nor a vertex among its own successors. -/
theorem Sweep.essential [DecidableEq α] (h : Sweep successors seen vs found) :
    Sweep (essential successors) seen vs found := by
  induction h with
  | nil => exact .nil _
  | known hv _ ih => exact .known hv ih
  | fresh hn _ _ ihi iho => exact .fresh hn ihi.condense iho

theorem Forest.essential [DecidableEq α] (h : Forest successors seen vs groups) :
    Forest (essential successors) seen vs groups := by
  induction h with
  | nil => exact .nil _
  | known hv _ ih => exact .known hv ih
  | fresh hn hi _ ih => exact .fresh hn hi.essential.condense ih

theorem Forest.unique {groups' : List (List α)} (h : Forest successors seen vs groups)
    (h' : Forest successors seen vs groups') : groups = groups' := by
  induction h generalizing groups' with
  | nil => cases h'; rfl
  | known hv _ ih =>
    cases h' with
    | known _ h' => exact ih h'
    | fresh hn => exact absurd hv hn
  | fresh hn hi _ ih =>
    cases h' with
    | known hv => exact absurd hv hn
    | fresh _ hi' hg =>
      obtain rfl := hi.unique hi'
      rw [ih hg]

section Run

variable [DecidableEq α] {vertices : Finset α}

def unseen (vertices : Finset α) (seen : List α) : Finset α := vertices.filter (· ∉ seen)

theorem unseen_append_le (vertices : Finset α) (found seen : List α) :
    (unseen vertices (found ++ seen)).card ≤ (unseen vertices seen).card := by
  refine Finset.card_le_card fun a ha => ?_
  simp only [unseen, Finset.mem_filter, List.mem_append, not_or] at ha ⊢
  exact ⟨ha.1, ha.2.2⟩

theorem unseen_cons_lt (hu : v ∈ vertices) (hn : v ∉ seen) :
    (unseen vertices (v :: seen)).card < (unseen vertices seen).card := by
  refine Finset.card_lt_card (Finset.ssubset_iff_subset_ne.mpr ⟨fun a ha => ?_, fun he => ?_⟩)
  · simp only [unseen, Finset.mem_filter, List.mem_cons, not_or] at ha ⊢
    exact ⟨ha.1, ha.2.2⟩
  · have hv : v ∈ unseen vertices seen := Finset.mem_filter.mpr ⟨hu, hn⟩
    rw [← he] at hv
    exact (Finset.mem_filter.mp hv).2 List.mem_cons_self

theorem visit_of_mem (depth : ℕ) (hv : v ∈ seen) : visit successors depth seen v = [] := by
  cases depth with
  | zero => rfl
  | succ depth => simp [visit, hv]

/-- A limit that leaves room for the unseen vertices does not cut a sweep short. -/
theorem sweep_spec (hc : ∀ a ∈ vertices, ∀ b ∈ successors a, b ∈ vertices) {depth : ℕ}
    (hd : (unseen vertices seen).card ≤ depth) (hvs : ∀ v ∈ vs, v ∈ vertices) :
    Sweep successors seen vs (sweep (visit successors depth) seen vs) := by
  induction depth generalizing seen vs with
  | zero =>
    have hs : ∀ a ∈ vertices, a ∈ seen := by
      simpa [unseen, Finset.filter_eq_empty_iff] using hd
    induction vs with
    | nil => exact .nil _
    | cons v vs ih =>
      obtain ⟨hv, hvs⟩ := List.forall_mem_cons.mp hvs
      simpa [sweep, visit] using Sweep.known (hs v hv) (ih hvs)
  | succ depth ih =>
    induction vs generalizing seen with
    | nil => exact .nil _
    | cons v vs ih' =>
      obtain ⟨hv, hvs⟩ := List.forall_mem_cons.mp hvs
      by_cases hn : v ∈ seen
      · rw [sweep, visit_of_mem _ hn]
        simpa using Sweep.known hn (ih' hd hvs)
      · have hi := ih (Nat.le_of_lt_succ ((unseen_cons_lt hv hn).trans_le hd)) (hc v hv)
        rw [sweep, visit, if_neg hn]
        exact .fresh hn hi (ih' ((unseen_append_le ..).trans hd) hvs)

theorem forest_spec (hc : ∀ a ∈ vertices, ∀ b ∈ successors a, b ∈ vertices) {depth : ℕ}
    (hd : (unseen vertices seen).card ≤ depth) (hvs : ∀ v ∈ vs, v ∈ vertices) :
    Forest successors seen vs (forest successors depth seen vs) := by
  induction vs generalizing seen with
  | nil => exact .nil _
  | cons v vs ih =>
    obtain ⟨hv, hvs⟩ := List.forall_mem_cons.mp hvs
    by_cases hn : v ∈ seen
    · simpa [forest, hn] using Forest.known hn (ih hd hvs)
    · cases depth with
      | zero => exact absurd (unseen_cons_lt hv hn) (by omega)
      | succ depth =>
        have hi := sweep_spec hc (Nat.le_of_lt_succ ((unseen_cons_lt hv hn).trans_le hd)) (hc v hv)
        rw [forest, if_neg hn, visit, if_neg hn]
        exact .fresh hn hi (ih ((unseen_append_le ..).trans hd) hvs)

end Run

end Disasm.DepthFirst
