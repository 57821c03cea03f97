import Disasm.Log

/-! # Outcomes of attempts

The outcome of an attempt is its value or its error, without the records. An attempt
in steps succeeds exactly when every step does, and fails with the error of its first
step that fails. If each step reports its own failure, only that one is recorded.
-/

namespace Disasm.Attempt

variable {ε α β : Type}

theorem ok_bind (a : α) (f : α → Except ε β) : .ok a >>= f = f a := rfl

theorem bind_eq_ok_iff {x : Except ε α} {f : α → Except ε β} {b : β} :
    x >>= f = .ok b ↔ ∃ a, x = .ok a ∧ f a = .ok b := by
  cases x <;> simp [bind, Except.bind]

theorem bind_eq_error_iff {x : Except ε α} {f : α → Except ε β} {e : ε} :
    x >>= f = .error e ↔ x = .error e ∨ ∃ a, x = .ok a ∧ f a = .error e := by
  cases x <;> simp [bind, Except.bind]

theorem map_eq_ok_iff {x : Except ε α} {f : α → β} {b : β} :
    x.map f = .ok b ↔ ∃ a, x = .ok a ∧ f a = b := by
  cases x <;> simp [Except.map]

theorem map_eq_error_iff {x : Except ε α} {f : α → β} {e : ε} :
    x.map f = .error e ↔ x = .error e := by
  cases x <;> simp [Except.map]

/-- What fails with the first item of a list succeeds exactly if there is none. -/
theorem exists_ok_iff_of_head? {x : Except ε α} {l : List ε}
    (h : ∀ e, x = .error e ↔ l.head? = some e) : (∃ a, x = .ok a) ↔ l = [] := by
  cases x with
  | ok a =>
    have hn : ∀ e, l.head? ≠ some e := fun e he => by cases (h e).mpr he
    simpa using Option.eq_none_iff_forall_ne_some.mpr hn
  | error e =>
    have he : l.head? = some e := (h e).mp rfl
    have hn : l ≠ [] := by rintro rfl; cases he
    simp [hn]

def outcome (x : Attempt ε α) : Except ε α := x.run.value

@[simp] theorem outcome_pure (a : α) : outcome (pure a : Attempt ε α) = .ok a := rfl

theorem outcome_bind (x : Attempt ε α) (f : α → Attempt ε β) :
    outcome (x >>= f) = outcome x >>= fun a => outcome (f a) := by
  unfold outcome
  rw [ExceptT.run_bind, Logged.value_bind]
  cases x.run.value <;> rfl

theorem outcome_bind_eq_ok {x : Attempt ε α} {f : α → Attempt ε β} {b : β} :
    outcome (x >>= f) = .ok b ↔ ∃ a, outcome x = .ok a ∧ outcome (f a) = .ok b := by
  rw [outcome_bind, bind_eq_ok_iff]

theorem outcome_map_eq_ok {x : Attempt ε α} {f : α → β} {b : β} :
    outcome (f <$> x) = .ok b ↔ ∃ a, outcome x = .ok a ∧ f a = b := by
  rw [map_eq_pure_bind, outcome_bind_eq_ok]
  simp

def failure? (x : Attempt ε α) : Option ε :=
  match outcome x with
  | .ok _ => none
  | .error e => some e

theorem failure?_eq_none_iff {x : Attempt ε α} : failure? x = none ↔ ∃ a, outcome x = .ok a := by
  unfold failure?
  cases outcome x <;> simp

theorem failure?_eq_some_iff {x : Attempt ε α} {e : ε} :
    failure? x = some e ↔ outcome x = .error e := by
  unfold failure?
  cases outcome x <;> simp

@[simp] theorem failure?_pure (a : α) : failure? (pure a : Attempt ε α) = none := rfl

theorem failure?_bind {x : Attempt ε α} {f : α → Attempt ε β} {r : Option ε}
    (h : ∀ a, failure? (f a) = r) : failure? (x >>= f) = (failure? x).or r := by
  unfold failure? at h ⊢
  rw [outcome_bind]
  cases outcome x with
  | error e => rfl
  | ok a => exact h a

@[simp] theorem failure?_map (f : α → β) (x : Attempt ε α) : failure? (f <$> x) = failure? x := by
  rw [map_eq_pure_bind, failure?_bind fun _ => failure?_pure _]
  exact Option.or_none

theorem outcome_adapt {ε' : Type} (f : ε → ε') (x : Attempt ε α) :
    outcome (x.adapt f) = (outcome x).mapError f := rfl

theorem outcome_adapt_eq_ok {ε' : Type} {f : ε → ε'} {x : Attempt ε α} {a : α} :
    outcome (x.adapt f) = .ok a ↔ outcome x = .ok a := by
  rw [outcome_adapt]
  cases outcome x with
  | ok b =>
    constructor <;> intro h <;> cases h <;> rfl
  | error e =>
    constructor <;> intro h <;> cases h

theorem failure?_adapt {ε' : Type} (f : ε → ε') (x : Attempt ε α) :
    failure? (x.adapt f) = (failure? x).map f := by
  unfold failure?
  rw [outcome_adapt]
  cases outcome x <;> rfl

/-! ## Records -/

def records (x : Attempt ε α) : List LogRecord := x.run.records

theorem records_bind (x : Attempt ε α) (f : α → Attempt ε β) : records (x >>= f) =
    records x ++ match outcome x with | .ok a => records (f a) | .error _ => [] := by
  unfold records outcome
  rw [ExceptT.run_bind, Logged.records_bind]
  cases x.run.value <;> rfl

/-- An attempt leaves one record of the error that it fails with, and no other record. -/
def Reports (note : ε → LogRecord) (x : Attempt ε α) : Prop :=
  records x = (failure? x).toList.map note

variable {note : ε → LogRecord}

/-- Attempts that record their own failures are the same if their outcomes are. -/
theorem Reports.ext {x y : Attempt ε α} (hx : Reports note x) (hy : Reports note y)
    (h : outcome x = outcome y) : x = y := by
  have hr : records x = records y := by
    unfold Reports failure? at hx hy
    rw [hx, hy, h]
  cases x
  cases y
  cases h
  cases hr
  rfl

theorem reports_pure (a : α) : Reports note (pure a : Attempt ε α) := rfl

theorem Reports.bind {x : Attempt ε α} {f : α → Attempt ε β} (hx : Reports note x)
    (hf : ∀ a, Reports note (f a)) : Reports note (x >>= f) := by
  unfold Reports failure? at hx hf ⊢
  rw [records_bind, hx, outcome_bind]
  cases outcome x with
  | error e => rfl
  | ok a => exact hf a

end Disasm.Attempt
