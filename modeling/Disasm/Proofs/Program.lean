import Disasm.Program
import Disasm.Proofs.FunctionFile.Listing

/-! # What a run prints

A run whose command line is understood prints all of the text that is asked for, or
fails and prints nothing. Data in a function file stops it before a listing begins.
-/

namespace Disasm

open Attempt

variable {files : Files} {r : Request} {f : FunctionFile} {labels : Labels} {text : String}

/-! ## Files -/

theorem Files.load_eq_ok_iff {α : Type} {kind : FileKind} {parse : String → Decoded α}
    {path : String} {a : α} : files.load kind parse path = .ok a ↔
      ∃ text, files path = .ok text ∧ parse text = .ok a := by
  unfold load
  cases files path with
  | error e => simp
  | ok text => cases hp : parse text <;> simp [hp]

theorem Files.load_ne_listing {α : Type} (kind : FileKind) (parse : String → Decoded α)
    (path title : String) (e : ListingError) :
    files.load kind parse path ≠ .error (.listing title e) := by
  unfold load
  cases files path with
  | error e => simp
  | ok text => cases hp : parse text <;> simp [hp]

def Files.LabelsRead (files : Files) (f : FunctionFile) (labels : Labels) : Option String → Prop
  | none => labels = f.labels
  | some path => ∃ text own, files path = .ok text ∧ Labels.parse text = .ok own ∧
      labels = f.labels.override own

theorem Files.mergedLabels_eq_ok_iff {path : Option String} :
    files.mergedLabels f path = .ok labels ↔ files.LabelsRead f labels path := by
  cases path with
  | none => simp [mergedLabels, LabelsRead, eq_comm]
  | some path =>
    simp only [mergedLabels, LabelsRead, map_eq_ok_iff, load_eq_ok_iff]
    constructor
    · rintro ⟨own, ⟨text, ht, hp⟩, rfl⟩
      exact ⟨text, own, ht, hp, rfl⟩
    · rintro ⟨text, own, ht, hp, rfl⟩
      exact ⟨own, ⟨text, ht, hp⟩, rfl⟩

theorem Files.mergedLabels_ne_listing (path : Option String) (title : String) (e : ListingError) :
    files.mergedLabels f path ≠ .error (.listing title e) := by
  cases path with
  | none => nofun
  | some path => exact fun h => files.load_ne_listing _ _ _ _ _ (map_eq_error_iff.mp h)

/-- What the files of a request hold: a function, and the labels that go with it. -/
structure Request.Reads (r : Request) (files : Files) (f : FunctionFile) (labels : Labels) :
    Prop where
  function : ∃ text, files r.input = .ok text ∧ FunctionFile.parse text = .ok f
  labels : files.LabelsRead f labels r.labels

/-! ## Answers -/

/-- An instruction at an address that has no other one at that address before it. -/
def FunctionFile.FirstAt (f : FunctionFile) (a : Address) (i : Instruction) : Prop :=
  i.address = a ∧ ∃ before after, f.instructions = before ++ i :: after ∧
    ∀ j ∈ before, j.address ≠ a

theorem FunctionFile.instructionAt?_eq_some_iff {a : Address} {i : Instruction} :
    f.instructionAt? a = some i ↔ f.FirstAt a i := by
  simp [instructionAt?, FirstAt, List.find?_eq_some_iff_append]

/-- The text that a request asks for: the line of one instruction, or the lines of all blocks
in flow order. -/
def Request.Asks (r : Request) (f : FunctionFile) (labels : Labels) (text : String) : Prop :=
  match r.address with
  | some a => ∃ i line, f.FirstAt a i ∧
      outcome (i.line (.standard labels r.options.maxBytes)) = .ok line ∧ text = line ++ "\n"
  | none => ∃ g pages, f.graph = .ok g ∧
      List.Forall₂ (Block.HasLines labels r.options) g.flowOrder pages ∧
      text = unlines pages.flatten

theorem FunctionFile.lineAt_eq_ok_iff {maxBytes : Nat} {a : Address} :
    f.lineAt labels maxBytes a = .ok text ↔ ∃ i line, f.FirstAt a i ∧
      outcome (i.line (.standard labels maxBytes)) = .ok line ∧ text = line ++ "\n" := by
  constructor
  · intro h
    unfold lineAt at h
    split at h
    · cases h
    · next i hi =>
      split at h
      · next line hl =>
        cases h
        exact ⟨i, line, instructionAt?_eq_some_iff.mp hi, hl, rfl⟩
      · cases h
  · rintro ⟨i, line, hi, hl, rfl⟩
    unfold outcome at hl
    simp [lineAt, instructionAt?_eq_some_iff.mpr hi, hl]

theorem FunctionFile.lineAt_ne_listing (maxBytes : Nat) (a : Address) (title : String)
    (e : ListingError) : f.lineAt labels maxBytes a ≠ .error (.listing title e) := by
  unfold lineAt
  split
  · nofun
  · split <;> nofun

theorem FunctionFile.listing_eq_ok_iff {o : ListingOptions} :
    f.listing labels o = .ok text ↔ ∃ g pages, f.graph = .ok g ∧
      List.Forall₂ (Block.HasLines labels o) g.flowOrder pages ∧ text = unlines pages.flatten := by
  constructor
  · intro h
    unfold listing at h
    split at h
    · cases h
    · next g hg =>
      split at h
      · next hl =>
        cases h
        obtain ⟨pages, hp⟩ := Listing.outcome_ofBlocks_eq_ok_iff.mp hl
        exact ⟨g, pages, hg, hp⟩
      · cases h
  · rintro ⟨g, pages, hg, hp⟩
    have hl := Listing.outcome_ofBlocks_eq_ok_iff.mpr ⟨pages, hp⟩
    unfold outcome at hl
    simp [listing, hg, hl]

theorem FunctionFile.listing_ne_data (o : ListingOptions) (title : String) (id : BlockId)
    (a : Address) : f.listing labels o ≠ .error (.listing title (.data id a)) := by
  unfold listing
  split
  · nofun
  · next g hg =>
    split
    · nofun
    · next e he =>
      rintro ⟨⟩
      exact (describes_of_graph hg).outcome_ne_data id a he

theorem Request.answer_eq_ok_iff : r.answer files = .ok text ↔
    ∃ f labels, r.Reads files f labels ∧ r.Asks f labels text := by
  unfold answer
  simp only [bind_eq_ok_iff, Files.function, Files.load_eq_ok_iff, Files.mergedLabels_eq_ok_iff]
  constructor
  · rintro ⟨f, hf, labels, hl, h⟩
    refine ⟨f, labels, ⟨hf, hl⟩, ?_⟩
    unfold Asks
    cases ha : r.address with
    | some a => exact FunctionFile.lineAt_eq_ok_iff.mp (by simpa [ha] using h)
    | none => exact FunctionFile.listing_eq_ok_iff.mp (by simpa [ha] using h)
  · rintro ⟨f, labels, ⟨hf, hl⟩, h⟩
    refine ⟨f, hf, labels, hl, ?_⟩
    unfold Asks at h
    cases ha : r.address with
    | some a => exact FunctionFile.lineAt_eq_ok_iff.mpr (by simpa [ha] using h)
    | none => exact FunctionFile.listing_eq_ok_iff.mpr (by simpa [ha] using h)

theorem Request.answer_ne_data (title : String) (id : BlockId) (a : Address) :
    r.answer files ≠ .error (.listing title (.data id a)) := by
  intro h
  rcases bind_eq_error_iff.mp h with h | ⟨f, -, h⟩
  · exact files.load_ne_listing _ _ _ _ _ h
  · rcases bind_eq_error_iff.mp h with h | ⟨labels, -, h⟩
    · exact files.mergedLabels_ne_listing _ _ _ h
    · split at h
      · exact f.lineAt_ne_listing _ _ _ _ h
      · exact f.listing_ne_data _ _ _ _ h

/-! ## Runs -/

/-- The instruction that a request names is there and has a line, or else the function has a
graph and all its x86 instructions have a line. -/
def Request.Feasible (r : Request) (f : FunctionFile) (labels : Labels) : Prop :=
  match r.address with
  | some a => ∃ i line, f.FirstAt a i ∧
      outcome (i.line (.standard labels r.options.maxBytes)) = .ok line
  | none => (∃ g, f.graph = .ok g) ∧ ∀ i ∈ f.instructions, i.isX86 →
      ∃ line, outcome (i.line (.standard labels r.options.maxBytes)) = .ok line

/-- The files of a request can be read, and the function has what the request asks for. -/
def Request.Answerable (r : Request) (files : Files) : Prop :=
  ∃ f labels, r.Reads files f labels ∧ r.Feasible f labels

theorem Request.exists_asks_iff : (∃ text, r.Asks f labels text) ↔ r.Feasible f labels := by
  unfold Asks Feasible
  cases r.address with
  | some a =>
    constructor
    · rintro ⟨_, i, line, hi, hl, -⟩
      exact ⟨i, line, hi, hl⟩
    · rintro ⟨i, line, hi, hl⟩
      exact ⟨_, i, line, hi, hl, rfl⟩
  | none =>
    constructor
    · rintro ⟨_, g, pages, hg, hp, -⟩
      exact ⟨⟨g, hg⟩, (FunctionFile.describes_of_graph hg).exists_pages_iff.mp ⟨pages, hp⟩⟩
    · rintro ⟨⟨g, hg⟩, hl⟩
      obtain ⟨pages, hp⟩ := (FunctionFile.describes_of_graph hg).exists_pages_iff.mpr hl
      exact ⟨_, g, pages, hg, hp, rfl⟩

theorem Request.answerable_iff : r.Answerable files ↔ ∃ text, r.answer files = .ok text := by
  simp only [Answerable, answer_eq_ok_iff, ← exists_asks_iff]
  constructor
  · rintro ⟨f, labels, hr, text, ht⟩
    exact ⟨text, f, labels, hr, ht⟩
  · rintro ⟨text, f, labels, hr, ht⟩
    exact ⟨f, labels, hr, text, ht⟩

/-- A run prints exactly the text that is asked for, or nothing and reports a failure, which is
never that a listing meets data. It succeeds exactly if the request has an answer. -/
theorem run_prints_all_or_nothing (args : List String) (files : Files) (r : Request)
    (hr : CommandLine.parse args = .ok r) :
    ((∃ f labels text, r.Reads files f labels ∧ r.Asks f labels text ∧
        run args files = ⟨0, text, ""⟩) ∨
      ∃ e, r.answer files = .error e ∧ run args files = ⟨1, "", e.report⟩ ∧
        ∀ title id a, e ≠ .listing title (.data id a)) ∧
    ((run args files).exitCode = 0 ↔ r.Answerable files) := by
  rw [Request.answerable_iff]
  cases ha : r.answer files with
  | ok text =>
    have hrun : run args files = ⟨0, text, ""⟩ := by simp [run, hr, ha]
    obtain ⟨f, labels, hf, ht⟩ := Request.answer_eq_ok_iff.mp ha
    exact ⟨.inl ⟨f, labels, text, hf, ht, hrun⟩, by simp [hrun]⟩
  | error e =>
    have hrun : run args files = ⟨1, "", e.report⟩ := by simp [run, hr, ha]
    refine ⟨.inr ⟨e, rfl, hrun, ?_⟩, by simp [hrun]⟩
    rintro title id a rfl
    exact Request.answer_ne_data title id a ha

/-- One function file, with data in front of an instruction. -/
def dataFiles : Files := fun _ => .ok <|
  "[\"f\",0,[[0,4096,[\x7b\"Data\":[4096,[204]]\x7d," ++
    "\x7b\"Instruction\":[4097,\"X86\",\"ret\",[],[195]]\x7d]]]]"

/-- One function file: a table, and in front of it in flow order a call of its address, which
has a label. -/
def tableFiles : Files := fun _ => .ok <|
  "[\"f\",7,[[1,4101,[],[],true],[7,4096,[\x7b\"Instruction\":[4096,\"X86\",\"call\"," ++
    "[\x7b\"IntegerValue\":[\"W32\",4101]\x7d],[232,0,0,0,0]]\x7d],[\"EntryPoint\"]]]," ++
    "[[7,1]],\x7b\"0x1005\":\"table\"\x7d]"

def tableListing : String :=
  "; block reason: entry point\n1000: call      table ; BYTES: E800+\n\n" ++
    "; block reason: none\n; hey, this block is static data!\n\n"

theorem dataFiles_line_tableFiles_listing :
    (CommandLine.parse ["f.json", "-a", "1001"] =
        .ok { input := "f.json", address := some 0x1001 } ∧
      run ["f.json", "-a", "1001"] dataFiles = ⟨0, "1001: ret        ; BYTES: C3\n", ""⟩ ∧
      Request.Answerable { input := "f.json", address := some 0x1001 } dataFiles) ∧
    (CommandLine.parse ["f.json"] = .ok { input := "f.json" } ∧
      run ["f.json"] dataFiles =
        ⟨1, "", "Error: block bb0 holds undecoded data at 0x1000\n"⟩ ∧
      ¬ Request.Answerable { input := "f.json" } dataFiles) ∧
    (CommandLine.parse ["f.json", "-rb", "2"] =
        .ok { input := "f.json", options := ⟨2, true, true⟩ } ∧
      run ["f.json", "-rb", "2"] tableFiles = ⟨0, tableListing, ""⟩ ∧
      ∃ f labels g pages,
        Request.Reads { input := "f.json", options := ⟨2, true, true⟩ } tableFiles f labels ∧
        f.graph = .ok g ∧ List.Forall₂ (Block.HasLines labels ⟨2, true, true⟩) g.flowOrder pages ∧
        tableListing = unlines pages.flatten) := by
  have hl : CommandLine.parse ["f.json", "-a", "1001"] =
    .ok { input := "f.json", address := some 0x1001 } := by decide +kernel
  have hn : CommandLine.parse ["f.json"] = .ok { input := "f.json" } := by decide +kernel
  have hr : CommandLine.parse ["f.json", "-rb", "2"] =
    .ok { input := "f.json", options := ⟨2, true, true⟩ } := by decide +kernel
  have ht : run ["f.json", "-rb", "2"] tableFiles = ⟨0, tableListing, ""⟩ := by decide +kernel
  refine ⟨⟨hl, by decide +kernel, ?_⟩, ⟨hn, by decide +kernel, ?_⟩, hr, ht, ?_⟩
  · exact (run_prints_all_or_nothing _ dataFiles _ hl).2.mp (by decide +kernel)
  · exact mt (run_prints_all_or_nothing _ dataFiles _ hn).2.mpr (by decide +kernel)
  · rcases (run_prints_all_or_nothing _ tableFiles _ hr).1 with
      ⟨f, labels, text, hf, ⟨g, pages, hg, hp, rfl⟩, h⟩ | ⟨e, -, h, -⟩
    · rw [ht] at h
      exact ⟨f, labels, g, pages, hf, hg, hp, congrArg Outcome.output h⟩
    · simp [ht] at h

end Disasm
