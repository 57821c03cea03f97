import Mathlib.Data.List.Forall2
import Mathlib.Data.List.TakeWhile
import Disasm.Listing
import Disasm.Proofs.Instruction.Line

/-! # Listings line by line

A block shows as lines: those above its statements, one for each statement, and one
below. A listing is the lines of its blocks. The first statement that has no line
ends it with an error, behind all lines that come before that statement.
-/

namespace Disasm

open Attempt

def unlines (lines : List String) : String := String.join (lines.map (· ++ "\n"))

@[simp] theorem unlines_nil : unlines [] = "" := rfl

@[simp] theorem unlines_cons (line : String) (lines : List String) :
    unlines (line :: lines) = line ++ "\n" ++ unlines lines := String.join_cons

@[simp] theorem unlines_append (lines lines' : List String) :
    unlines (lines ++ lines') = unlines lines ++ unlines lines' := by
  simp [unlines, String.join_append]

variable {s : LineStyle} {names : Naming} {labels : Labels} {o : ListingOptions} {id : BlockId}
  {st : Statement} {b : Block} {bs : List Block} {e : ListingError} {out line : String}

/-! ## Statements -/

/-- A statement shows as the line of the instruction that it is. -/
inductive Statement.HasLine (s : LineStyle) : Statement → String → Prop where
  | instruction {i : Instruction} {line : String} : outcome (i.line s) = .ok line →
      HasLine s (.instruction i) line

/-- Why a statement of a block has no line: it is data, or an operand is rejected. -/
def Statement.fault? (names : Naming) (id : BlockId) : Statement → Option ListingError
  | .data a _ => some (.data id a)
  | .instruction i => (i.rejection? names).map .line

theorem Statement.fault?_names (names names' : Naming) (id : BlockId) (st : Statement) :
    st.fault? names id = st.fault? names' id := by
  cases st with
  | data a bytes => rfl
  | instruction i => simp only [fault?, i.rejection?_names names names']

theorem Statement.fault?_eq_none_iff :
    st.fault? s.names id = none ↔ ∃ line, st.HasLine s line := by
  cases st with
  | data a bytes =>
    constructor
    · intro h
      cases h
    · rintro ⟨line, ⟨⟩⟩
  | instruction i =>
    simp only [fault?, Option.map_eq_none_iff, ← i.failure?_line s, failure?_eq_none_iff]
    constructor
    · rintro ⟨line, h⟩
      exact ⟨line, .instruction h⟩
    · rintro ⟨line, ⟨h⟩⟩
      exact ⟨line, h⟩

theorem Statement.HasLine.unique {line' : String} (h : st.HasLine s line)
    (h' : st.HasLine s line') : line = line' := by
  obtain ⟨h⟩ := h
  obtain ⟨h'⟩ := h'
  exact Except.ok.inj (h.symm.trans h')

namespace Listing

theorem value_appendStatements_instruction (s : LineStyle) (id : BlockId) (out : String)
    (i : Instruction) (rest : List Statement) :
    (appendStatements s id out (.instruction i :: rest)).value =
      match outcome (i.line s) with
      | .ok line => (appendStatements s id (out ++ line ++ "\n") rest).value
      | .error e => ⟨out, some (.line e)⟩ := by
  rw [appendStatements, Logged.value_bind, outcome]
  cases (i.line s).run.value <;> rfl

theorem appendStatements_of_hasLine {rest : List Statement} (h : st.HasLine s line) :
    (appendStatements s id out (st :: rest)).value =
      (appendStatements s id (out ++ line ++ "\n") rest).value := by
  obtain ⟨h⟩ := h
  rw [value_appendStatements_instruction, h]

theorem appendStatements_of_fault {rest : List Statement} (h : st.fault? s.names id = some e) :
    (appendStatements s id out (st :: rest)).value = ⟨out, some e⟩ := by
  cases st with
  | data a bytes =>
    cases h
    rfl
  | instruction i =>
    obtain ⟨k, hk, rfl⟩ := Option.map_eq_some_iff.mp h
    rw [← i.failure?_line s, failure?_eq_some_iff] at hk
    rw [value_appendStatements_instruction, hk]

theorem value_appendStatements (s : LineStyle) (id : BlockId) (out : String)
    (sts : List Statement) : ∃ lines,
      List.Forall₂ (Statement.HasLine s) (sts.takeWhile fun st => (st.fault? s.names id).isNone)
        lines ∧
      (appendStatements s id out sts).value =
        ⟨out ++ unlines lines, sts.findSome? (·.fault? s.names id)⟩ := by
  -- the text so far grows by a line for each statement without a fault
  induction sts generalizing out with
  | nil => exact ⟨[], .nil, by simp [appendStatements]⟩
  | cons st rest ih =>
    cases hf : st.fault? s.names id with
    | some e => exact ⟨[], by simp [hf], by simp [appendStatements_of_fault hf, hf]⟩
    | none =>
      obtain ⟨line, hl⟩ := Statement.fault?_eq_none_iff.mp hf
      obtain ⟨lines, hls, hv⟩ := ih (out ++ line ++ "\n")
      refine ⟨line :: lines, by simpa [hf] using ⟨hl, hls⟩, ?_⟩
      rw [appendStatements_of_hasLine hl, hv]
      simp [hf, String.append_assoc]

end Listing

/-! ## Blocks -/

namespace Block

def fault? (names : Naming) (b : Block) : Option ListingError :=
  b.statements.findSome? (·.fault? names b.id)

/-- The statements of a block before the first that has no line. -/
def sound (names : Naming) (b : Block) : List Statement :=
  b.statements.takeWhile fun st => (st.fault? names b.id).isNone

def headLines (o : ListingOptions) (b : Block) : List String :=
  (if o.showReasons then ["; block reason: " ++ b.reasonText] else []) ++
    if b.staticData then [Listing.staticMarker] else []

def footLines (o : ListingOptions) : List String := if o.blockLines then [""] else []

/-- The lines of a block whose statements all have one. -/
def HasLines (labels : Labels) (o : ListingOptions) (b : Block) (lines : List String) : Prop :=
  ∃ body, List.Forall₂ (Statement.HasLine (.standard labels o.maxBytes)) b.statements body ∧
    lines = b.headLines o ++ body ++ footLines o

theorem fault?_names (names names' : Naming) (b : Block) : b.fault? names = b.fault? names' := by
  simp only [fault?, Statement.fault?_names names names']

theorem sound_eq_statements (h : b.fault? names = none) : b.sound names = b.statements := by
  rw [fault?, List.findSome?_eq_none_iff] at h
  exact List.takeWhile_eq_self_iff.mpr fun st hst => by simp [h st hst]

theorem HasLines.unique {lines lines' : List String} (h : b.HasLines labels o lines)
    (h' : b.HasLines labels o lines') : lines = lines' := by
  obtain ⟨body, hb, rfl⟩ := h
  obtain ⟨body', hb', rfl⟩ := h'
  rw [List.right_unique_forall₂' (fun _ _ _ h h' => h.unique h') hb hb']

theorem HasLines.fault?_eq_none {lines : List String} (h : b.HasLines labels o lines) :
    b.fault? (.standard labels) = none := by
  obtain ⟨body, hb, -⟩ := h
  have hb := hb.imp fun st line hl =>
    And.intro (Statement.fault?_eq_none_iff.mpr ⟨line, hl⟩ : st.fault? _ b.id = none) hl
  exact List.findSome?_eq_none_iff.mpr ((List.forall₂_and_left _ _).mp hb).1

theorem unlines_headLines (o : ListingOptions) (b : Block) :
    unlines (b.headLines o) = Listing.header o b := by
  unfold headLines Listing.header
  cases o.showReasons <;> cases b.staticData <;> simp

theorem unlines_footLines (o : ListingOptions) : unlines (footLines o) = Listing.footer o := by
  unfold footLines Listing.footer
  cases o.blockLines <;> simp

end Block

namespace Listing

theorem value_appendBlock (labels : Labels) (o : ListingOptions) (out : String) (b : Block) :
    ∃ body, List.Forall₂ (Statement.HasLine (.standard labels o.maxBytes))
        (b.sound (.standard labels)) body ∧
      (appendBlock labels o out b).value =
        match b.fault? (.standard labels) with
        | none => ⟨out ++ unlines (b.headLines o ++ body ++ Block.footLines o), none⟩
        | some e => ⟨out ++ unlines (b.headLines o ++ body), some e⟩ := by
  obtain ⟨body, hb, hv⟩ :=
    value_appendStatements (.standard labels o.maxBytes) b.id (out ++ header o b) b.statements
  -- the standard style has the standard names, whatever the limit on bytes is
  have hv : (appendStatements (.standard labels o.maxBytes) b.id (out ++ header o b)
      b.statements).value =
    ⟨out ++ header o b ++ unlines body, b.fault? (.standard labels)⟩ := hv
  refine ⟨body, hb, ?_⟩
  rw [appendBlock, Logged.value_bind, hv]
  cases b.fault? (.standard labels) with
  | none => simp [b.unlines_headLines, Block.unlines_footLines, String.append_assoc]
  | some e => simp [b.unlines_headLines, String.append_assoc]

theorem error_appendBlock (labels : Labels) (o : ListingOptions) (out : String) (b : Block) :
    (appendBlock labels o out b).value.error = b.fault? (.standard labels) := by
  obtain ⟨body, -, hv⟩ := value_appendBlock labels o out b
  rw [hv]
  cases b.fault? (.standard labels) <;> rfl

theorem appendBlock_of_sound (out : String) (h : b.fault? (.standard labels) = none) :
    ∃ lines, b.HasLines labels o lines ∧
      (appendBlock labels o out b).value = ⟨out ++ unlines lines, none⟩ := by
  obtain ⟨body, hb, hv⟩ := value_appendBlock labels o out b
  rw [Block.sound_eq_statements h] at hb
  rw [h] at hv
  exact ⟨_, ⟨body, hb, rfl⟩, hv⟩

/-! ## Listings -/

theorem value_appendBlocks_cons (labels : Labels) (o : ListingOptions) (out : String) (b : Block)
    (bs : List Block) : (appendBlocks labels o out (b :: bs)).value =
      match (appendBlock labels o out b).value.error with
      | none => (appendBlocks labels o (appendBlock labels o out b).value.text bs).value
      | some _ => (appendBlock labels o out b).value := by
  rw [appendBlocks, Logged.value_bind]
  cases (appendBlock labels o out b).value.error <;> rfl

theorem error_appendBlocks (labels : Labels) (o : ListingOptions) (out : String)
    (bs : List Block) : (appendBlocks labels o out bs).value.error =
      bs.findSome? (·.fault? (.standard labels)) := by
  induction bs generalizing out with
  | nil => rfl
  | cons b bs ih =>
    have he := error_appendBlock labels o out b
    rw [value_appendBlocks_cons, List.findSome?_cons, he]
    cases hf : b.fault? (.standard labels) with
    | none => exact ih _
    | some e => exact he.trans hf

theorem appendBlocks_of_sound (out : String)
    (h : ∀ b ∈ bs, b.fault? (.standard labels) = none) :
    ∃ pages, List.Forall₂ (Block.HasLines labels o) bs pages ∧
      (appendBlocks labels o out bs).value = ⟨out ++ unlines pages.flatten, none⟩ := by
  induction bs generalizing out with
  | nil => exact ⟨[], .nil, by simp [appendBlocks]⟩
  | cons b bs ih =>
    obtain ⟨hb, hbs⟩ := List.forall_mem_cons.mp h
    obtain ⟨lines, hl, hv⟩ := appendBlock_of_sound out hb
    obtain ⟨pages, hp, hvs⟩ := ih (out ++ unlines lines) hbs
    refine ⟨lines :: pages, .cons hl hp, ?_⟩
    rw [value_appendBlocks_cons, hv]
    simp [hvs, String.append_assoc]

theorem outcome_ofBlocks (labels : Labels) (o : ListingOptions) (bs : List Block) :
    outcome (ofBlocks labels o bs) = (appendBlocks labels o "" bs).value.finish := rfl

theorem failure?_ofBlocks (labels : Labels) (o : ListingOptions) (bs : List Block) :
    failure? (ofBlocks labels o bs) = bs.findSome? (·.fault? (.standard labels)) := by
  rw [failure?, outcome_ofBlocks, Draft.finish, error_appendBlocks]
  cases bs.findSome? (·.fault? (.standard labels)) <;> rfl

theorem sound_of_outcome_ofBlocks {text : String}
    (h : outcome (ofBlocks labels o bs) = .ok text) :
    ∀ b ∈ bs, b.fault? (.standard labels) = none := by
  rw [← List.findSome?_eq_none_iff, ← failure?_ofBlocks labels o, failure?_eq_none_iff]
  exact ⟨text, h⟩

/-- A listing is made exactly of the lines that its blocks have. -/
theorem outcome_ofBlocks_eq_ok_iff {text : String} :
    outcome (ofBlocks labels o bs) = .ok text ↔
      ∃ pages, List.Forall₂ (Block.HasLines labels o) bs pages ∧ text = unlines pages.flatten := by
  constructor
  · intro h
    obtain ⟨pages, hp, hv⟩ := appendBlocks_of_sound "" (sound_of_outcome_ofBlocks h)
    refine ⟨pages, hp, ?_⟩
    rw [outcome_ofBlocks, hv] at h
    simpa [Draft.finish] using h.symm
  · rintro ⟨pages, hp, rfl⟩
    have hs := hp.imp fun b lines hl => And.intro hl.fault?_eq_none hl
    obtain ⟨pages', hp', hv⟩ := appendBlocks_of_sound "" ((List.forall₂_and_left _ _).mp hs).1
    obtain rfl := List.right_unique_forall₂' (fun _ _ _ h h' => h.unique h') hp hp'
    rw [outcome_ofBlocks, hv]
    simp [Draft.finish]

/-- A listing of blocks, of a graph in flow order or of any list, fails with the first fault
among their statements and with nothing else. A block keeps the text before it and appends all
lines before its first fault. Neither the labels nor the options decide what the fault is. -/
theorem listing_stops_at_first_fault (labels : Labels) (o : ListingOptions) :
    (∀ bs, failure? (ofBlocks labels o bs) = bs.findSome? (·.fault? (.standard labels))) ∧
    (∀ out b, ∃ body, List.Forall₂ (Statement.HasLine (.standard labels o.maxBytes))
        (b.sound (.standard labels)) body ∧
      (appendBlock labels o out b).value =
        match b.fault? (.standard labels) with
        | none => ⟨out ++ unlines (b.headLines o ++ body ++ Block.footLines o), none⟩
        | some e => ⟨out ++ unlines (b.headLines o ++ body), some e⟩) ∧
    (∀ labels' o',
      (∀ bs, failure? (ofBlocks labels o bs) = failure? (ofBlocks labels' o' bs)) ∧
      ∀ out out' b, (appendBlock labels o out b).value.error =
        (appendBlock labels' o' out' b).value.error) := by
  refine ⟨failure?_ofBlocks labels o, value_appendBlock labels o, fun labels' o' => ⟨?_, ?_⟩⟩
  · intro bs
    simp only [failure?_ofBlocks, Block.fault?_names (.standard labels) (.standard labels')]
  · intro out out' b
    rw [error_appendBlock, error_appendBlock]
    exact b.fault?_names _ _

end Listing

end Disasm
