import Disasm.Proofs.Literal
import Disasm.Proofs.Operand.Influence
import Disasm.Proofs.Program
import Disasm.Proofs.Storage.Labels

/-! # Labels of a label file over those of a function

The table of a run binds what the function or the label file binds. The name in the
label file counts, and the one in the function counts where the file has none. The
order in which the entries of the file are taken makes no difference.
-/

namespace Disasm

namespace Labels

variable {s t : Labels} {a : Address} {es : List (Address × String)}

def addresses (t : Labels) : List Address := t.entries.map Prod.fst

theorem mem_addresses : a ∈ t.addresses ↔ (t.find? a).isSome := by
  rw [Option.isSome_iff_exists, addresses, List.mem_map]
  constructor
  · rintro ⟨⟨_, name⟩, he, rfl⟩
    exact ⟨name, find?_eq_some_iff.mpr he⟩
  · rintro ⟨name, h⟩
    exact ⟨(a, name), find?_eq_some_iff.mp h, rfl⟩

theorem find?_insertAll_of_perm (h : es.Perm s.entries) (t : Labels) (a : Address) :
    (t.insertAll es).find? a = (s.find? a).or (t.find? a) := by
  have hs : s.entries.Perm es.reverse := h.symm.trans es.reverse_perm.symm
  rw [find?_insertAll, ← lookup_eq_of_perm hs s.nodup_addresses, ← find?]

theorem find?_override (t s : Labels) (a : Address) :
    (t.override s).find? a = (s.find? a).or (t.find? a) :=
  find?_insertAll_of_perm (List.Perm.refl _) t a

theorem insertAll_eq_override (h : es.Perm s.entries) (t : Labels) :
    t.insertAll es = t.override s := by
  apply ext_find?
  intro a
  rw [find?_insertAll_of_perm h, find?_override]

theorem get?_override (t s : Labels) (a : Address) :
    (t.override s).get? a = if a = 0 then none else (s.find? a).or (t.find? a) := by
  unfold get?
  rw [find?_override]

theorem mem_addresses_override :
    a ∈ (t.override s).addresses ↔ a ∈ s.addresses ∨ a ∈ t.addresses := by
  simp only [mem_addresses, find?_override, Option.isSome_or, Bool.or_eq_true]

end Labels

theorem Literal.IsAddress.label? {v : Literal} (h : v.IsAddress) (t : Labels) :
    v.label? t = t.find? v.address := by
  obtain ⟨hw, hz⟩ := h
  have hwidth : v.width.holdsAddress := by
    rcases hw with hw | hw <;> rw [hw] <;> rfl
  have haddress : v.address ≠ 0 := by
    intro h
    have hn : v.address.toNat = v.unsigned := UInt64.toNat_ofNat_of_lt v.unsigned_lt_size
    rw [h] at hn
    exact hz hn.symm
  rw [Literal.label?, if_pos hwidth]
  exact t.get?_of_ne_zero haddress

/-- With a label file that can be read, a run has a table in which the name in the file counts,
and else the one in the function; address zero names nothing. It binds the addresses of both, and
any order in which the entries of the file are inserted gives this table. So an address in an
operand shows as its name in the file, or else in the function, or else as a number. -/
theorem Files.label_file_takes_precedence (files : Files) (f : FunctionFile) (path text : String)
    (own : Labels) (hread : files path = .ok text) (hparse : Labels.parse text = .ok own) :
    ∃ table, files.mergedLabels f (some path) = .ok table ∧
      (∀ a, table.get? a = if a = 0 then none else (own.find? a).or (f.labels.find? a)) ∧
      (∀ a, a ∈ table.addresses ↔ a ∈ own.addresses ∨ a ∈ f.labels.addresses) ∧
      (∀ es : List (Address × String), es.Perm own.entries → f.labels.insertAll es = table) ∧
      ∀ v : Literal, v.IsAddress → v.text table =
        ((own.find? v.address).or (f.labels.find? v.address)).getD v.hex := by
  refine ⟨f.labels.override own, ?_, f.labels.get?_override own, ?_, ?_, ?_⟩
  · rw [mergedLabels_eq_ok_iff]
    exact ⟨text, own, hread, hparse, rfl⟩
  · intro a
    exact Labels.mem_addresses_override
  · intro es h
    exact Labels.insertAll_eq_override h f.labels
  · intro v hv
    rw [Literal.text, hv.label?, Labels.find?_override]

/-- A function with names for zero and for two other addresses. -/
def namedFunction : FunctionFile where
  blocks := []
  labels := .ofList [(0, "null"), (0x401000, "start"), (0x402000, "table")]

def namedFile : Labels := .ofList [(0x402000, "g_table"), (0x403000, "exit")]

theorem namedFile_takes_precedence :
    Labels.parse namedFile.toJson.write = .ok namedFile ∧
    ∃ table, Files.mergedLabels (fun _ => .ok namedFile.toJson.write) namedFunction
        (some "labels.json") = .ok table ∧
      table.get? 0 = none ∧ table.get? 0x401000 = some "start" ∧
      table.get? 0x402000 = some "g_table" ∧ 0 ∈ table.addresses ∧
      namedFunction.labels.insertAll [(0x403000, "exit"), (0x402000, "g_table")] = table ∧
      ((Literal.ofNat .w32 0x402000).IsAddress ∧
        (Literal.ofNat .w32 0x402000).text table = "g_table") ∧
      (Literal.ofNat .w64 0x404000).text table = "0x404000" := by
  have hparse : Labels.parse namedFile.toJson.write = .ok namedFile := namedFile.parse_write
  obtain ⟨table, ht, hget, hbound, horder, htext⟩ :=
    Files.label_file_takes_precedence (fun _ => .ok namedFile.toJson.write) namedFunction
      "labels.json" namedFile.toJson.write namedFile rfl hparse
  have h32 : (Literal.ofNat .w32 0x402000).IsAddress := by decide
  have h64 : (Literal.ofNat .w64 0x404000).IsAddress := by decide
  refine ⟨hparse, table, ht, hget 0, ?_, ?_, ?_, horder _ ?_, ⟨h32, ?_⟩, ?_⟩
  · exact (hget 0x401000).trans (by decide)
  · exact (hget 0x402000).trans (by decide)
  · exact (hbound 0).mpr (.inr (by decide))
  · exact List.Perm.swap ..
  · exact (htext _ h32).trans (by decide)
  · exact (htext _ h64).trans (by decide)

end Disasm
