import Disasm.Operand.Masm
import Disasm.Proofs.Attempt

/-! # Expressions without MASM text

An expression fails on the first part that has no MASM text, whatever registers
and addresses are called, and leaves a record of that part alone. Segments are not
looked at, and an indexed address has no such part.
-/

namespace Disasm.Expression

open Attempt

/-- The kinds of the parts that have no MASM text, in reading order, segments left out. -/
def unsupported : Expression → List Kind
  | add l r | subtract l r | multiply l r => l.unsupported ++ r.unsupported
  | shiftLeft l r => .shiftLeft :: (l.unsupported ++ r.unsupported)
  | negate e => .negate :: e.unsupported
  | memory a _ | segmented _ a _ => a.unsupported
  | float _ _ => [.floatValue]
  | registerList _ => [.registerList]
  | register _ | indirect _ _ | integer _ => []

/-- The nodes of a tree, each in front of those below it and the left in front of the right.
Segments are left out. -/
def nodes (e : Expression) : List Expression :=
  e :: match e with
    | add l r | subtract l r | multiply l r | shiftLeft l r => l.nodes ++ r.nodes
    | negate a | memory a _ | segmented _ a _ => a.nodes
    | register _ | indirect _ _ | integer _ | float _ _ | registerList _ => []

def unsupportedKinds : List Kind := [.negate, .shiftLeft, .floatValue, .registerList]

variable {e a b c : Expression}

theorem unsupported_eq_filter (e : Expression) :
    e.unsupported = (e.nodes.map kind).filter (· ∈ unsupportedKinds) := by
  induction e with
  | add l r ihl ihr | subtract l r ihl ihr | multiply l r ihl ihr | shiftLeft l r ihl ihr =>
    simp [unsupported, nodes, kind, unsupportedKinds, ihl, ihr]
  | negate a ih | memory a type ih | segmented s a type _ ih =>
    simp [unsupported, nodes, kind, unsupportedKinds, ih]
  | _ => rfl

theorem unsupported_of_term {t : IndexedAddress.Term}
    (h : IndexedAddress.Term.ofExpression? e = some t) : e.unsupported = [] := by
  unfold IndexedAddress.Term.ofExpression? at h
  split at h
  · rfl
  · rfl
  · rfl
  · rfl
  · cases h

theorem unsupported_of_threeTerms (h : IndexedAddress.threeTerms? e = some (a, b, c)) :
    e.unsupported = a.unsupported ++ b.unsupported ++ c.unsupported := by
  unfold IndexedAddress.threeTerms? at h
  split at h
  · cases h
    rfl
  · cases h
    exact (List.append_assoc ..).symm
  · cases h

theorem unsupported_of_indexed {i : IndexedAddress}
    (h : IndexedAddress.ofExpression? e = some i) : e.unsupported = [] := by
  unfold IndexedAddress.ofExpression? at h
  simp only [Option.bind_eq_bind, Option.bind_eq_some_iff] at h
  obtain ⟨⟨a, b, c⟩, habc, t, ha, u, hb, v, hc, _⟩ := h
  rw [unsupported_of_threeTerms habc, unsupported_of_term ha, unsupported_of_term hb,
    unsupported_of_term hc]
  rfl

/-- Two parts and what is made of both fail as the first part does, or else as the second. -/
theorem failure?_masm_pair {names : Naming} {l r : Expression} {f : String → String → String}
    (hl : failure? (l.masm names false) = l.unsupported.head?)
    (hr : failure? (r.masm names false) = r.unsupported.head?) :
    failure? (do
      let u ← l.masm names false
      let v ← r.masm names false
      pure (f u v)) = (l.unsupported ++ r.unsupported).head? := by
  rw [List.head?_append, ← hl, ← hr]
  refine failure?_bind fun u => ?_
  rw [bind_pure_comp]
  exact failure?_map _ _

/-- An address and what is made of its text fail as the address does. -/
theorem failure?_masm_address {names : Naming} {f : String → String}
    (ha : failure? (a.masm names false) = a.unsupported.head?) :
    failure? (match IndexedAddress.ofExpression? a with
      | some i => pure (i.text names.register)
      | none => do
        let u ← a.masm names false
        pure (f u)) = a.unsupported.head? := by
  cases hi : IndexedAddress.ofExpression? a with
  | some i =>
    rw [unsupported_of_indexed hi]
    rfl
  | none =>
    rw [← ha, bind_pure_comp]
    exact failure?_map _ _

theorem failure?_masm (names : Naming) (e : Expression) (lea : Bool) :
    failure? (e.masm names lea) = e.unsupported.head? := by
  induction e generalizing lea with
  | add l r ihl ihr => exact failure?_masm_pair (ihl false) (ihr false)
  | subtract l r ihl ihr => exact failure?_masm_pair (ihl false) (ihr false)
  | multiply l r ihl ihr => exact failure?_masm_pair (ihl false) (ihr false)
  | memory a type ih => exact failure?_masm_address (ih false)
  | segmented s a type _ ih => exact failure?_masm_address (ih false)
  | _ => rfl

/-! ## Records -/

theorem reports_unhandled (k : Kind) : Reports .unhandled (unhandled k) := rfl

theorem reports_masm_pair {names : Naming} {l r : Expression} {f : String → String → String}
    (hl : Reports .unhandled (l.masm names false)) (hr : Reports .unhandled (r.masm names false)) :
    Reports .unhandled (do
      let u ← l.masm names false
      let v ← r.masm names false
      pure (f u v)) :=
  hl.bind fun _ => hr.bind fun _ => reports_pure _

theorem reports_masm_address {names : Naming} {f : String → String}
    (ha : Reports .unhandled (a.masm names false)) :
    Reports .unhandled (match IndexedAddress.ofExpression? a with
      | some i => pure (i.text names.register)
      | none => do
        let u ← a.masm names false
        pure (f u)) := by
  cases IndexedAddress.ofExpression? a with
  | some i => exact reports_pure _
  | none => exact ha.bind fun _ => reports_pure _

theorem reports_masm (names : Naming) (e : Expression) (lea : Bool) :
    Reports .unhandled (e.masm names lea) := by
  induction e generalizing lea with
  | add l r ihl ihr => exact reports_masm_pair (ihl false) (ihr false)
  | subtract l r ihl ihr => exact reports_masm_pair (ihl false) (ihr false)
  | multiply l r ihl ihr => exact reports_masm_pair (ihl false) (ihr false)
  | memory a type ih => exact reports_masm_address (ih false)
  | segmented s a type _ ih => exact reports_masm_address (ih false)
  | negate | shiftLeft | float | registerList => exact reports_unhandled _
  | register | indirect | integer => exact reports_pure _

/-- An expression has no MASM text exactly if a node of its tree, segments left out, is of a kind
without one. The first such node in reading order is the error, and it alone is recorded. -/
theorem masm_fails_on_first_unsupported (names : Naming) (e : Expression) (lea : Bool) :
    ((∃ k, outcome (e.masm names lea) = .error k) ↔
      ∃ n ∈ e.nodes, n.kind ∈ unsupportedKinds) ∧
    (∀ k, outcome (e.masm names lea) = .error k ↔
      (e.nodes.map kind).find? (· ∈ unsupportedKinds) = some k) ∧
    (∀ k, outcome (e.masm names lea) = .error k →
      (records (e.masm names lea)).map LogRecord.text =
        ["ERROR unhandled expression kind " ++ k.name]) ∧
    ∀ text, outcome (e.masm names lea) = .ok text → records (e.masm names lea) = [] := by
  have hf (k : Kind) : outcome (e.masm names lea) = .error k ↔
      (e.nodes.map kind).find? (· ∈ unsupportedKinds) = some k := by
    rw [← failure?_eq_some_iff, failure?_masm, unsupported_eq_filter, List.head?_filter]
  have hr : records (e.masm names lea) =
    (failure? (e.masm names lea)).toList.map .unhandled := reports_masm names e lea
  refine ⟨?_, hf, fun k hk => ?_, fun text ht => ?_⟩
  · simp only [hf, ← Option.isSome_iff_exists, List.find?_isSome, List.mem_map]
    constructor
    · rintro ⟨_, ⟨n, hn, rfl⟩, hk⟩
      exact ⟨n, hn, of_decide_eq_true hk⟩
    · rintro ⟨n, hn, hk⟩
      exact ⟨_, ⟨n, hn, rfl⟩, decide_eq_true hk⟩
  · rw [hr, failure?_eq_some_iff.mpr hk]
    rfl
  · rw [hr, failure?_eq_none_iff.mpr ⟨text, ht⟩]
    rfl

def shaded (address : Expression) : Expression :=
  segmented (negate (register (.gpr32 0))) address (.integer 32)

def listAndShift : Expression :=
  add (registerList []) (shiftLeft (register (.gpr32 1)) (integer (.ofNat .w8 2)))

theorem shaded_fails_on_registerList :
    (outcome ((shaded listAndShift).masm (.standard .empty) false) = .error .registerList ∧
      (records ((shaded listAndShift).masm (.standard .empty) false)).map LogRecord.text =
        ["ERROR unhandled expression kind RegisterList"]) ∧
    outcome ((shaded (register (.gpr32 1))).masm (.standard .empty) false) = .ok "[ecx]" ∧
    records ((shaded (register (.gpr32 1))).masm (.standard .empty) false) = [] := by
  obtain ⟨-, herror, hrecord, -⟩ :=
    masm_fails_on_first_unsupported (.standard .empty) (shaded listAndShift) false
  obtain ⟨-, -, -, hnone⟩ :=
    masm_fails_on_first_unsupported (.standard .empty) (shaded (register (.gpr32 1))) false
  have he : outcome ((shaded listAndShift).masm (.standard .empty) false) =
    .error .registerList := (herror _).mpr rfl
  have ht : outcome ((shaded (register (.gpr32 1))).masm (.standard .empty) false) =
    .ok "[ecx]" := rfl
  exact ⟨⟨he, hrecord _ he⟩, ht, hnone _ ht⟩

end Disasm.Expression
