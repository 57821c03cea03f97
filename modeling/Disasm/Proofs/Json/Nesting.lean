import Mathlib.Data.Nat.Notation
import Mathlib.Tactic.Basic
import Disasm.Json

/-! # Nesting of JSON values

How many arrays and objects a value nests, and whether it holds no cut, for the forms in
which values are stored.
-/

namespace Disasm.Json

mutual

/-- How many arrays and objects a value nests. -/
def depth : Json → ℕ
  | array items => depthItems items + 1
  | object members => depthMembers members + 1
  | _ => 0

def depthItems : List Json → ℕ
  | [] => 0
  | v :: vs => max v.depth (depthItems vs)

def depthMembers : List (Option String × Json) → ℕ
  | [] => 0
  | (_, v) :: ms => max v.depth (depthMembers ms)

end

theorem depthItems_le_iff {vs : List Json} {room : ℕ} :
    depthItems vs ≤ room ↔ ∀ v ∈ vs, v.depth ≤ room := by
  induction vs with
  | nil => simp [depthItems]
  | cons v vs ih => rw [depthItems, Nat.max_le, ih, List.forall_mem_cons]

theorem depthMembers_le_iff {ms : List Member} {room : ℕ} :
    depthMembers ms ≤ room ↔ ∀ m ∈ ms, m.2.depth ≤ room := by
  induction ms with
  | nil => simp [depthMembers]
  | cons m ms ih => rw [depthMembers, Nat.max_le, ih, List.forall_mem_cons]

theorem intactItems_iff {vs : List Json} : intactItems vs ↔ ∀ v ∈ vs, v.intact := by
  induction vs with
  | nil => simp [intactItems]
  | cons v vs ih => simp [intactItems, ih]

theorem intactMembers_iff {ms : List Member} : intactMembers ms ↔ ∀ m ∈ ms, m.2.intact := by
  induction ms with
  | nil => simp [intactMembers]
  | cons m ms ih => simp [intactMembers, ih]

/-! ## Stored forms -/

variable {s tag : String} {v : Json} {n room : ℕ}

@[simp] theorem depth_null : null.depth = 0 := rfl

@[simp] theorem depth_text : (text s).depth = 0 := rfl

@[simp] theorem depth_nat : (nat n).depth = 0 := rfl

@[simp] theorem depth_array_le {vs : List Json} :
    (array vs).depth ≤ room + 1 ↔ ∀ v ∈ vs, v.depth ≤ room := by
  rw [depth, Nat.add_le_add_iff_right, depthItems_le_iff]

@[simp] theorem depth_record_le {fields : List (String × Json)} :
    (record fields).depth ≤ room + 1 ↔ ∀ f ∈ fields, f.2.depth ≤ room := by
  rw [record, depth, Nat.add_le_add_iff_right, depthMembers_le_iff, List.forall_mem_map]

theorem exists_of_depth_record_le {fields : List (String × Json)}
    (h : (record fields).depth ≤ room) :
    ∃ inner, room = inner + 1 ∧ ∀ f ∈ fields, f.2.depth ≤ inner := by
  cases room with
  | zero => simp [record, depth] at h
  | succ inner => exact ⟨inner, rfl, depth_record_le.mp h⟩

theorem exists_of_depth_array_le {vs : List Json} (h : (array vs).depth ≤ room) :
    ∃ inner, room = inner + 1 ∧ ∀ v ∈ vs, v.depth ≤ inner := by
  cases room with
  | zero => simp [depth] at h
  | succ inner => exact ⟨inner, rfl, depth_array_le.mp h⟩

@[simp] theorem depth_tagged : (tagged tag v).depth = v.depth + 1 := by
  simp [tagged, depth, depthMembers]

theorem exists_of_depth_tagged_le (h : (tagged tag v).depth ≤ room) :
    ∃ inner, room = inner + 1 ∧ v.depth ≤ inner := by
  rw [depth_tagged] at h
  exact ⟨room - 1, by omega, by omega⟩

theorem exists_of_depth_tagged_record_le {fields : List (String × Json)}
    (h : (tagged tag (record fields)).depth ≤ room) :
    ∃ inner, room = inner + 2 ∧ ∀ f ∈ fields, f.2.depth ≤ inner := by
  obtain ⟨outer, rfl, ho⟩ := exists_of_depth_tagged_le h
  obtain ⟨inner, rfl, hi⟩ := exists_of_depth_record_le ho
  exact ⟨inner, rfl, hi⟩

@[simp] theorem intact_text : (text s).intact := rfl

@[simp] theorem intact_nat : (nat n).intact := rfl

@[simp] theorem intact_null : null.intact := rfl

@[simp] theorem intact_array {vs : List Json} : (array vs).intact ↔ ∀ v ∈ vs, v.intact := by
  rw [intact, intactItems_iff]

@[simp] theorem intact_record {fields : List (String × Json)} :
    (record fields).intact ↔ ∀ f ∈ fields, f.2.intact := by
  rw [record, intact, intactMembers_iff, List.forall_mem_map]

@[simp] theorem intact_tagged : (tagged tag v).intact ↔ v.intact := by
  simp [tagged, intact, intactMembers]

end Disasm.Json
