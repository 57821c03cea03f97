import Disasm.Proofs.FunctionFile.Graph
import Disasm.Proofs.Instruction.OneLine
import Disasm.Proofs.Listing.Lines

/-! # Splitting a listing into blocks

The line of an instruction is neither empty nor a comment. So an empty line of a listing
ends a block, and the comments that a block begins with are the lines above its
instructions. Each other line is one instruction.
-/

namespace Disasm

open Attempt

/-- The lines of a text. What stands behind the last line feed is not one of them. -/
def lines (text : String) : List String :=
  (text.toList.splitOn '\n').dropLast.map String.ofList

def isComment (line : String) : Bool := line.toList.head? == some ';'

/-- Some lines show a block: comments for its reasons where wanted and for static data, and behind
them a line for each instruction. -/
structure Block.ShownAs (labels : Labels) (o : ListingOptions) (b : Block) (page : List String) :
    Prop where
  comments : page.takeWhile isComment =
    (if o.showReasons then ["; block reason: " ++ b.reasonText] else []) ++
      if b.staticData then [Listing.staticMarker] else []
  body : List.Forall₂ (Statement.HasLine (.standard labels o.maxBytes)) b.statements
    (page.dropWhile isComment)
  length_body : (page.dropWhile isComment).length = b.instructions.length
  no_empty : "" ∉ page

variable {s : LineStyle} {labels : Labels} {o : ListingOptions} {b : Block} {bs : List Block}
  {sts : List Statement} {body page : List String} {line : String}

/-! ## Lines of a text -/

theorem splitOn_flatMap_append {α : Type} [BEq α] [LawfulBEq α] {x : α} {ls : List (List α)}
    (h : ∀ l ∈ ls, x ∉ l) : (ls.flatMap (· ++ [x])).splitOn x = ls ++ [[]] := by
  induction ls with
  | nil => exact List.splitOn_nil x
  | cons l ls ih =>
    obtain ⟨hl, hls⟩ := List.forall_mem_cons.mp h
    rw [List.flatMap_cons, List.append_assoc, List.singleton_append,
      List.splitOn_append_cons_self_of_not_mem hl, ih hls, List.cons_append]

theorem count_flatMap_append {α : Type} [BEq α] [LawfulBEq α] {x : α} {ls : List (List α)}
    (h : ∀ l ∈ ls, x ∉ l) : (ls.flatMap (· ++ [x])).count x = ls.length := by
  induction ls with
  | nil => rfl
  | cons l ls ih =>
    obtain ⟨hl, hls⟩ := List.forall_mem_cons.mp h
    simp [List.count_append, List.count_eq_zero.mpr hl, ih hls]

theorem toList_unlines (ls : List String) :
    (unlines ls).toList = (ls.map String.toList).flatMap (· ++ ['\n']) := by
  induction ls with
  | nil => rfl
  | cons l ls ih => simp [ih]

theorem lines_unlines {ls : List String} (h : ∀ l ∈ ls, IsOneLine l) : lines (unlines ls) = ls := by
  have hn : ∀ l ∈ ls.map String.toList, '\n' ∉ l := by simpa [IsOneLine] using h
  rw [lines, toList_unlines, splitOn_flatMap_append hn]
  simp

theorem takeWhile_append_of_forall {α : Type} {p : α → Bool} {l r : List α} (hl : ∀ a ∈ l, p a)
    (hr : ∀ a ∈ r, p a = false) : (l ++ r).takeWhile p = l ∧ (l ++ r).dropWhile p = r := by
  rw [List.takeWhile_append_of_pos hl, List.dropWhile_append_of_pos hl]
  cases r with
  | nil => simp
  | cons a r => simp [hr a List.mem_cons_self]

/-! ## Lines of a block -/

theorem Instruction.line_visible {i : Instruction} (h : outcome (i.line s) = .ok line) :
    line ≠ "" ∧ isComment line = false := by
  obtain ⟨rest, rfl⟩ := line_begins h
  obtain ⟨c, cs, hc⟩ := List.exists_cons_of_ne_nil i.toList_addressText_ne_nil
  have hn : c ≠ ';' := by
    rintro rfl
    exact not_mem_addressText (by decide) (by decide) i (hc ▸ List.mem_cons_self)
  constructor
  · intro he
    have hl := congrArg String.toList he
    simp [hc] at hl
  · simp [isComment, hc, hn]

theorem exists_instruction_of_mem (h : List.Forall₂ (Statement.HasLine s) sts body) :
    ∀ line ∈ body, ∃ i, .instruction i ∈ sts ∧ outcome (i.line s) = .ok line := by
  induction h with
  | nil => simp
  | cons hl _ ih =>
    obtain ⟨hl⟩ := hl
    refine List.forall_mem_cons.mpr ⟨⟨_, List.mem_cons_self, hl⟩, fun line hm => ?_⟩
    obtain ⟨i, hi, hl⟩ := ih line hm
    exact ⟨i, List.mem_cons_of_mem _ hi, hl⟩

theorem length_of_hasLine (h : List.Forall₂ (Statement.HasLine s) sts body) :
    body.length = (sts.filterMap Statement.instruction?).length := by
  induction h with
  | nil => rfl
  | cons hl _ ih =>
    obtain ⟨hl⟩ := hl
    simp [Statement.instruction?, ih]

namespace Block

theorem mem_headLines : line ∈ b.headLines o ↔
    (o.showReasons = true ∧ line = "; block reason: " ++ b.reasonText) ∨
      (b.staticData = true ∧ line = Listing.staticMarker) := by
  simp only [headLines, List.mem_append, List.mem_ite_nil_right, List.mem_singleton]

theorem isComment_of_mem_headLines (h : line ∈ b.headLines o) : isComment line := by
  rcases mem_headLines.mp h with ⟨-, rfl⟩ | ⟨-, rfl⟩
  · simp [isComment]
  · decide

theorem isOneLine_reasonText (b : Block) : IsOneLine b.reasonText := by
  unfold reasonText
  split
  · decide
  · refine isOneLine_intercalate (by decide) (List.forall_mem_map.mpr fun r _ => ?_)
    cases r <;> decide

theorem isOneLine_of_mem_headLines (h : line ∈ b.headLines o) : IsOneLine line := by
  rcases mem_headLines.mp h with ⟨-, rfl⟩ | ⟨-, rfl⟩
  · exact isOneLine_append.mpr ⟨by decide, b.isOneLine_reasonText⟩
  · decide

theorem shownAs (h : List.Forall₂ (Statement.HasLine (.standard labels o.maxBytes)) b.statements
    body) : b.ShownAs labels o (b.headLines o ++ body) := by
  have hbody : ∀ line ∈ body, line ≠ "" ∧ isComment line = false := fun line hm => by
    obtain ⟨i, -, hl⟩ := exists_instruction_of_mem h line hm
    exact Instruction.line_visible hl
  obtain ⟨htake, hdrop⟩ := takeWhile_append_of_forall
    (fun _ (hm : _ ∈ b.headLines o) => isComment_of_mem_headLines hm)
    (fun line hm => (hbody line hm).2)
  refine ⟨htake, by rwa [hdrop], by rw [hdrop]; exact length_of_hasLine h, fun hm => ?_⟩
  rcases List.mem_append.mp hm with hm | hm
  · exact absurd (isComment_of_mem_headLines hm) (by decide)
  · exact (hbody "" hm).1 rfl

end Block

/-! ## Pages -/

theorem isOneLine_of_mem_pages {full : List (List String)}
    (hl : ∀ e ∈ labels.entries, IsOneLine e.2)
    (hm : ∀ b ∈ bs, ∀ i ∈ b.instructions, IsOneLine i.mnemonic)
    (h : List.Forall₂ (Block.HasLines labels o) bs full) :
    ∀ line ∈ full.flatten, IsOneLine line := by
  induction h with
  | nil => simp
  | @cons b page bs full hb _ ih =>
    obtain ⟨hmb, hm⟩ := List.forall_mem_cons.mp hm
    obtain ⟨body, hbody, rfl⟩ := hb
    simp only [List.flatten_cons, List.mem_append]
    rintro line (((h | h) | h) | h)
    · exact Block.isOneLine_of_mem_headLines h
    · obtain ⟨i, hi, hline⟩ := exists_instruction_of_mem hbody line h
      exact Instruction.isOneLine_line hl (hmb i (Block.mem_instructions.mpr hi)) hline
    · have hf : ∀ line ∈ Block.footLines o, IsOneLine line := by
        unfold Block.footLines
        split <;> decide
      exact hf line h
    · exact ih hm line h

theorem exists_pages {full : List (List String)}
    (h : List.Forall₂ (Block.HasLines labels o) bs full) :
    ∃ pages, List.Forall₂ (Block.ShownAs labels o) bs pages ∧
      full = pages.map (· ++ Block.footLines o) := by
  induction h with
  | nil => exact ⟨[], .nil, rfl⟩
  | cons hb _ ih =>
    obtain ⟨body, hbody, rfl⟩ := hb
    obtain ⟨pages, hp, rfl⟩ := ih
    exact ⟨_ :: pages, .cons (Block.shownAs hbody) hp, rfl⟩

theorem empty_not_mem_of_shownAs {pages : List (List String)}
    (h : List.Forall₂ (Block.ShownAs labels o) bs pages) : ∀ page ∈ pages, "" ∉ page := by
  induction h with
  | nil => simp
  | cons hb _ ih => exact List.forall_mem_cons.mpr ⟨hb.no_empty, ih⟩

theorem lines_of_outcome_ofBlocks {text : String} (hl : ∀ e ∈ labels.entries, IsOneLine e.2)
    (hm : ∀ b ∈ bs, ∀ i ∈ b.instructions, IsOneLine i.mnemonic)
    (ht : outcome (Listing.ofBlocks labels o bs) = .ok text) :
    ∃ pages, List.Forall₂ (Block.ShownAs labels o) bs pages ∧
      lines text = pages.flatMap (· ++ Block.footLines o) ∧ text = unlines (lines text) := by
  obtain ⟨full, hf, rfl⟩ := Listing.outcome_ofBlocks_eq_ok_iff.mp ht
  have ho : ∀ line ∈ full.flatten, IsOneLine line := isOneLine_of_mem_pages hl hm hf
  obtain ⟨pages, hp, rfl⟩ := exists_pages hf
  refine ⟨pages, hp, ?_, ?_⟩
  · rw [lines_unlines ho, List.flatMap_def]
  · rw [lines_unlines ho]

/-- A listing of blocks, of a graph in flow order or of any list, splits into these blocks. The line
of an instruction is neither empty nor a comment. With block lines each block ends with the one
empty line that it has, and without them no line is empty. What else a block shows are its comments
and as many lines as it has instructions. -/
theorem listing_splits_into_blocks (labels : Labels) (o : ListingOptions) (bs : List Block)
    (text : String) (hl : ∀ e ∈ labels.entries, IsOneLine e.2)
    (hm : ∀ b ∈ bs, ∀ i ∈ b.instructions, IsOneLine i.mnemonic)
    (ht : outcome (Listing.ofBlocks labels o bs) = .ok text) :
    (∀ b ∈ bs, ∀ i ∈ b.instructions, ∃ line,
      outcome (i.line (.standard labels o.maxBytes)) = .ok line ∧
        line ≠ "" ∧ isComment line = false) ∧
    text = unlines (lines text) ∧
    ∃ pages, List.Forall₂ (Block.ShownAs labels o) bs pages ∧
      (o.blockLines = true → (lines text).splitOn "" = pages ++ [[]] ∧
        (lines text).count "" = bs.length) ∧
      (o.blockLines = false → lines text = pages.flatten ∧ "" ∉ lines text) := by
  obtain ⟨pages, hp, hlines, htext⟩ := lines_of_outcome_ofBlocks hl hm ht
  refine ⟨fun b hb i hi => ?_, htext, pages, hp, fun hf => ?_, fun hf => ?_⟩
  · have hn := List.findSome?_eq_none_iff.mp (Listing.sound_of_outcome_ofBlocks ht b hb) _
      (Block.mem_instructions.mp hi)
    obtain ⟨line, ⟨hline⟩⟩ :=
      (Statement.fault?_eq_none_iff (s := .standard labels o.maxBytes)).mp hn
    exact ⟨line, hline, Instruction.line_visible hline⟩
  · have he : ∀ page ∈ pages, "" ∉ page := empty_not_mem_of_shownAs hp
    simp only [Block.footLines, hf, if_true] at hlines
    rw [hlines, splitOn_flatMap_append he, count_flatMap_append he, hp.length_eq]
    exact ⟨rfl, rfl⟩
  · have he : ∀ page ∈ pages, "" ∉ page := empty_not_mem_of_shownAs hp
    simp only [Block.footLines, hf] at hlines
    have hlines : lines text = pages.flatten := by simpa [List.flatMap_def] using hlines
    rw [hlines]
    refine ⟨rfl, fun hm => ?_⟩
    obtain ⟨page, hpage, hm⟩ := List.mem_flatten.mp hm
    exact he page hpage hm

/-- A block with a mnemonic and a label that look like comments, and one without statements. -/
def commentLike : List Block := [
  { id := ⟨0⟩, start := 0x1000, reasons := [.entryPoint],
    statements := [
      .instruction ⟨0x1000, .x86, "; ret", [], [0xc3]⟩,
      .instruction ⟨0x1001, .arm64, "bl", [.integer (.ofNat .w64 0x2000)], []⟩] },
  { id := ⟨1⟩, start := 0x1005, staticData := true }]

def commentLabels : Labels := .ofList [(0x2000, "; block reason: none")]

def commentLikeText : String :=
  "; block reason: entry point\n1000: ; ret     \n0x00001001 bl ; block reason: none\n\n" ++
  "; block reason: none\n; hey, this block is static data!\n\n"

theorem commentLike_splits_into_blocks :
    ((∀ e ∈ commentLabels.entries, IsOneLine e.2) ∧
      (∀ b ∈ commentLike, ∀ i ∈ b.instructions, IsOneLine i.mnemonic) ∧
      outcome (Listing.ofBlocks commentLabels ⟨0, true, true⟩ commentLike) =
        .ok commentLikeText) ∧
    ∃ pages, List.Forall₂ (Block.ShownAs commentLabels ⟨0, true, true⟩) commentLike pages ∧
      (lines commentLikeText).splitOn "" = pages ++ [[]] ∧
      (lines commentLikeText).count "" = 2 := by
  have hl : ∀ e ∈ commentLabels.entries, IsOneLine e.2 := by decide +kernel
  have hm : ∀ b ∈ commentLike, ∀ i ∈ b.instructions, IsOneLine i.mnemonic := by decide +kernel
  have ht : outcome (Listing.ofBlocks commentLabels ⟨0, true, true⟩ commentLike) =
    .ok commentLikeText := by decide +kernel
  obtain ⟨-, -, pages, hp, hon, -⟩ := listing_splits_into_blocks _ _ _ _ hl hm ht
  exact ⟨⟨hl, hm, ht⟩, pages, hp, hon rfl⟩

end Disasm
