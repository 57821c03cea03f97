import Mathlib.Data.List.Basic
import Disasm.Proofs.Operand.Meaning
import Disasm.Proofs.Operand.Unsupported

/-! # Arithmetic in one row

MASM text has no parentheses, so the text of arithmetic is that of a row of operands
with operators between them. A plus sign is left out in front of an operand that shows
a minus sign. The grouping does not matter unless the text of an operand is empty.
-/

namespace Disasm

open Arithmetic Attempt

namespace Arithmetic

/-- A row of things with operators between them. -/
structure Row (α : Type) where
  first : α
  others : List (Operator × α)

/-- An operator in front of a text: a plus sign is left out before a minus sign. -/
def Operator.mark (o : Operator) (t : String) : String :=
  if o = .plus ∧ t.toList.head? = some '-' then "" else String.singleton o.char

namespace Row

variable {α β : Type}

def join (o : Operator) (x y : Row α) : Row α :=
  ⟨x.first, x.others ++ (o, y.first) :: y.others⟩

def toList (x : Row α) : List α := x.first :: x.others.map Prod.snd

def map (f : α → β) (x : Row α) : Row β := ⟨f x.first, x.others.map (Prod.map id f)⟩

def text (x : Row String) : String :=
  x.first ++ String.join (x.others.map fun i => i.1.mark i.2 ++ i.2)

theorem toList_join (o : Operator) (x y : Row α) :
    (x.join o y).toList = x.toList ++ y.toList := by
  simp [join, toList]

theorem map_join (f : α → β) (o : Operator) (x y : Row α) :
    (x.join o y).map f = (x.map f).join o (y.map f) := by
  simp [join, map]

theorem join_assoc (o p : Operator) (x y z : Row α) :
    (x.join o y).join p z = x.join o (y.join p z) := by
  simp [join]

theorem head?_text {x : Row String} (h : x.first ≠ "") :
    x.text.toList.head? = x.first.toList.head? := by
  have hn : x.first.toList ≠ [] := mt String.toList_eq_nil_iff.mp h
  rw [text, String.toList_append, List.head?_append_of_ne_nil _ hn]

/-- Whether a plus sign is left out depends on the operand behind it alone. -/
theorem text_join (o : Operator) (x : Row String) {y : Row String} (h : y.first ≠ "") :
    (x.join o y).text = x.text ++ o.mark y.text ++ y.text := by
  have hm : o.mark y.text = o.mark y.first := by rw [Operator.mark, head?_text h, Operator.mark]
  rw [hm]
  simp [text, join, String.join_append, String.join_cons, String.append_assoc]

end Row

end Arithmetic

namespace Expression

def binary : Operator → Expression → Expression → Expression
  | .plus => add
  | .minus => subtract
  | .times => multiply

/-- The operands of nested sums, differences and products, from left to right. -/
def row : Expression → Row Expression
  | add l r => l.row.join .plus r.row
  | subtract l r => l.row.join .minus r.row
  | multiply l r => l.row.join .times r.row
  | e => ⟨e, []⟩

variable {names : Naming} {e l r : Expression} {lea : Bool} {t : String} {o : Operator}

theorem row_binary (o : Operator) (l r : Expression) :
    (binary o l r).row = l.row.join o r.row := by
  cases o <;> rfl

theorem eq_binary_of_row (h : e.row.others ≠ []) : ∃ o l r, e = binary o l r := by
  cases e with
  | add l r => exact ⟨.plus, l, r, rfl⟩
  | subtract l r => exact ⟨.minus, l, r, rfl⟩
  | multiply l r => exact ⟨.times, l, r, rfl⟩
  | _ => exact absurd rfl h

theorem masm_binary_lea (o : Operator) (l r : Expression) (lea lea' : Bool) :
    (binary o l r).masm names lea = (binary o l r).masm names lea' := by
  cases o <;> rfl

theorem joinSum_eq (u v : String) : joinSum u v = u ++ Operator.plus.mark v ++ v := by
  unfold joinSum Operator.mark
  by_cases hm : v.toList.head? = some '-'
  · simp [hm]
  · simp [hm, Operator.char]

theorem outcome_masm_binary : outcome ((binary o l r).masm names lea) = .ok t ↔
    ∃ u v, outcome (l.masm names false) = .ok u ∧ outcome (r.masm names false) = .ok v ∧
      u ++ o.mark v ++ v = t := by
  cases o with
  | plus =>
    simp only [← joinSum_eq]
    exact outcome_masm_add
  | minus => exact outcome_masm_subtract
  | times => exact outcome_masm_multiply

/-! ## The text of a row -/

/-- Outside a lea, an expression has a text that is not empty. -/
def HasText (names : Naming) (e : Expression) : Prop :=
  ∃ t ≠ "", outcome (e.masm names false) = .ok t

def rowText (names : Naming) (e : Expression) : String :=
  (e.row.map fun a => a.masmText names false).text

theorem HasText.masmText_ne_empty (h : e.HasText names) : e.masmText names false ≠ "" := by
  obtain ⟨t, hn, ht⟩ := h
  rwa [masmText_eq ht]

/-- If all operands have texts, these make the text of an expression. -/
def ReadsAsRow (names : Naming) (e : Expression) : Prop :=
  (∀ a ∈ e.row.toList, a.HasText names) → outcome (e.masm names false) = .ok (e.rowText names)

theorem ReadsAsRow.binary (o : Operator) (hl : l.ReadsAsRow names) (hr : r.ReadsAsRow names) :
    (binary o l r).ReadsAsRow names := by
  intro h
  rw [row_binary, Row.toList_join] at h
  obtain ⟨hal, har⟩ := List.forall_mem_append.mp h
  have hf : r.row.first.masmText names false ≠ "" :=
    (har _ (List.mem_cons_self ..)).masmText_ne_empty
  refine outcome_masm_binary.mpr ⟨_, _, hl hal, hr har, ?_⟩
  rw [rowText, rowText, rowText, row_binary, Row.map_join, Row.text_join _ _ hf]

theorem ReadsAsRow.of_operand (he : e.row = ⟨e, []⟩) : e.ReadsAsRow names := by
  intro h
  obtain ⟨t, -, ht⟩ := h e (by simp [he, Row.toList])
  simp [rowText, he, Row.map, Row.text, masmText_eq ht, ht]

theorem readsAsRow (names : Naming) (e : Expression) : e.ReadsAsRow names := by
  induction e with
  | add l r ihl ihr => exact .binary .plus ihl ihr
  | subtract l r ihl ihr => exact .binary .minus ihl ihr
  | multiply l r ihl ihr => exact .binary .times ihl ihr
  | _ => exact .of_operand rfl

/-! ## The first operand without text -/

theorem unsupported_eq_flatMap (e : Expression) :
    e.unsupported = e.row.toList.flatMap unsupported := by
  have hj (o : Operator) (l r : Expression) (hl : l.unsupported = l.row.toList.flatMap unsupported)
      (hr : r.unsupported = r.row.toList.flatMap unsupported) :
      l.unsupported ++ r.unsupported = (l.row.join o r.row).toList.flatMap unsupported := by
    rw [Row.toList_join, List.flatMap_append, ← hl, ← hr]
  induction e with
  | add l r ihl ihr => exact hj .plus l r ihl ihr
  | subtract l r ihl ihr => exact hj .minus l r ihl ihr
  | multiply l r ihl ihr => exact hj .times l r ihl ihr
  | _ => simp [row, Row.toList]

theorem failure?_masm_row (names : Naming) (e : Expression) (lea : Bool) :
    failure? (e.masm names lea) =
      e.row.toList.findSome? fun a => failure? (a.masm names false) := by
  simp only [failure?_masm, unsupported_eq_flatMap e, List.head?_flatMap]

/-! ## Grouping -/

theorem row_rotate (o p : Operator) (a b c : Expression) :
    (binary p (binary o a b) c).row = (binary o a (binary p b c)).row := by
  simp only [row_binary, Row.join_assoc]

theorem masm_eq_of_row_eq {e' : Expression} (hr : e'.row = e.row)
    (h : (∀ a ∈ e.row.toList, a.HasText names) ∨
      ∃ a ∈ e.row.toList, ∃ k, outcome (a.masm names false) = .error k) :
    e'.masm names false = e.masm names false := by
  refine (reports_masm names e' false).ext (reports_masm names e false) ?_
  rcases h with h | ⟨a, ha, k, hk⟩
  · rw [readsAsRow names e h, readsAsRow names e' (hr ▸ h), rowText, rowText, hr]
  · have hs : (e.row.toList.findSome? fun a => failure? (a.masm names false)).isSome :=
      List.findSome?_isSome_iff.mpr ⟨a, ha, by rw [failure?_eq_some_iff.mpr hk]; rfl⟩
    obtain ⟨k', hk'⟩ := Option.isSome_iff_exists.mp hs
    have he := failure?_eq_some_iff.mp ((failure?_masm_row names e false).trans hk')
    have he' := failure?_eq_some_iff.mp ((failure?_masm_row names e' false).trans (hr ▸ hk'))
    rw [he, he']

/-- The text of arithmetic is made of the texts of its operands from left to right and of the
operators between them, where a plus sign before a minus sign is left out. If operands have no
text, the first of them is the error. So neither a lea nor the grouping makes a difference, and
turning a group around leaves the row as it is. -/
theorem masm_of_row (names : Naming) (e : Expression) (he : e.row.others ≠ []) (lea : Bool) :
    ((∀ a ∈ e.row.toList, a.HasText names) →
      outcome (e.masm names lea) = .ok (e.row.map fun a => a.masmText names false).text) ∧
    (∀ k, outcome (e.masm names lea) = .error k ↔
      e.row.toList.findSome? (fun a => failure? (a.masm names false)) = some k) ∧
    (∀ (e' : Expression) (lea' : Bool), e'.row = e.row →
      ((∀ a ∈ e.row.toList, a.HasText names) ∨
        ∃ a ∈ e.row.toList, ∃ k, outcome (a.masm names false) = .error k) →
      e'.masm names lea' = e.masm names lea) ∧
    (∀ o p a b c, e = binary p (binary o a b) c → (binary o a (binary p b c)).row = e.row) ∧
    ∀ lea', e.masm names lea' = e.masm names lea := by
  have hlea {e : Expression} (he : e.row.others ≠ []) (lea lea' : Bool) :
      e.masm names lea = e.masm names lea' := by
    obtain ⟨o, l, r, rfl⟩ := eq_binary_of_row he
    exact masm_binary_lea o l r lea lea'
  refine ⟨fun h => ?_, fun k => ?_, fun e' lea' hr h => ?_, ?_, fun lea' => hlea he lea' lea⟩
  · rw [hlea he lea false]
    exact readsAsRow names e h
  · rw [← failure?_eq_some_iff, failure?_masm_row]
  · rw [hlea (hr ▸ he) lea' false, hlea he lea false]
    exact masm_eq_of_row_eq hr h
  · rintro o p a b c rfl
    exact (row_rotate o p a b c).symm

/-- A product behind a negative term and a memory reference, grouped to the left. -/
def leftward : Expression :=
  multiply
    (subtract
      (add (add (register (.gpr32 0)) (integer (.ofInt .w8 (-2))))
        (memory (register (.gpr32 1)) (.integer 32)))
      (register (.gpr32 2)))
    (integer (.ofNat .w8 4))

def rightward : Expression :=
  add (register (.gpr32 0))
    (add (integer (.ofInt .w8 (-2)))
      (subtract (memory (register (.gpr32 1)) (.integer 32))
        (multiply (register (.gpr32 2)) (integer (.ofNat .w8 4)))))

theorem leftward_of_row :
    (leftward.row.others ≠ [] ∧ (∀ a ∈ leftward.row.toList, a.HasText (.standard .empty)) ∧
      rightward.row = leftward.row) ∧
    outcome (leftward.masm (.standard .empty) true) = .ok "eax-0x2+[ecx]-edx*0x4" ∧
    rightward.masm (.standard .empty) false = leftward.masm (.standard .empty) true ∧
    outcome ((add leftward listAndShift).masm (.standard .empty) false) = .error .registerList := by
  have he : leftward.row.others ≠ [] := List.cons_ne_nil _ _
  have ha : ∀ a ∈ leftward.row.toList, a.HasText (.standard .empty) := by
    have hall : List.Forall (HasText (.standard .empty)) leftward.row.toList :=
      ⟨⟨"eax", by decide, rfl⟩, ⟨"-0x2", by decide, rfl⟩, ⟨"[ecx]", by decide, rfl⟩,
        ⟨"edx", by decide, rfl⟩, ⟨"0x4", by decide, rfl⟩⟩
    exact List.forall_iff_forall_mem.mp hall
  have hr : rightward.row = leftward.row := rfl
  obtain ⟨htext, -, hgroup, -, -⟩ := masm_of_row (.standard .empty) leftward he true
  obtain ⟨-, herror, -, -, -⟩ :=
    masm_of_row (.standard .empty) (add leftward listAndShift) (List.cons_ne_nil _ _) false
  exact ⟨⟨he, ha, hr⟩, htext ha, hgroup _ _ hr (.inl ha), (herror _).mpr rfl⟩

end Expression

end Disasm
