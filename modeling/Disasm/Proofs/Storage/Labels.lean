import Disasm.Proofs.Address
import Disasm.Proofs.Json.Nesting
import Disasm.Proofs.Labels
import Disasm.Proofs.Storage.Decode

/-! # Stored label tables read back

A stored table has an entry for each bound address, in ascending order, and reads back as
itself. An object of names reads as a table if all its keys are addresses; if no two keys
are one address, the order of its entries does not matter.
-/

namespace Disasm.Labels

open Attempt

/-! ## Bindings -/

theorem binding_eq_ok_iff {e : String × String} {d : Address × String} :
    binding e = .ok d ↔ Address.parse? e.1 = some d.1 ∧ e.2 = d.2 := by
  unfold binding
  cases Address.parse? e.1 with
  | none => simp
  | some a => simp [Prod.ext_iff]

theorem exists_bindings_iff {raw : List (String × String)} :
    (∃ bindings, raw.mapM binding = .ok bindings) ↔
      ∀ e ∈ raw, ∃ a, Address.parse? e.1 = some a := by
  rw [exists_mapM_eq_ok_iff]
  refine forall₂_congr fun e _ => ?_
  simp [binding_eq_ok_iff, Prod.exists]

/-- No two keys of some entries are the same address. -/
def Unambiguous (raw : List (String × String)) : Prop :=
  ∀ d ∈ raw, ∀ e ∈ raw, Address.parse? d.1 = Address.parse? e.1 → d.1 = e.1

theorem lookup_bindings {raw : List (String × String)} {bindings : List (Address × String)}
    (h : List.Forall₂ (fun e d => binding e = .ok d) raw bindings) (hu : Unambiguous raw)
    (a : Address) (name : String) : bindings.lookup a = some name ↔
      ∃ key, Address.parse? key = some a ∧ raw.lookup key = some name := by
  induction h with
  | nil => simp
  | @cons e d raw bindings hd _ ih =>
    obtain ⟨first, w⟩ := e
    have hb := binding_eq_ok_iff.mp hd
    dsimp only at hb
    obtain ⟨ha, rfl⟩ := hb
    have hu' : Unambiguous raw := fun d hd e he =>
      hu d (List.mem_cons_of_mem _ hd) e (List.mem_cons_of_mem _ he)
    rw [lookup_entry]
    by_cases hda : a = d.1
    · subst hda
      rw [if_pos rfl]
      constructor
      · intro h
        exact ⟨first, ha, List.lookup_cons_self.trans h⟩
      · rintro ⟨key, hp, hl⟩
        -- every key of this address is the first one, so its name is the one that counts
        obtain ⟨before, after, hm, -⟩ := List.lookup_eq_some_iff.mp hl
        have hk : (key, name) ∈ (first, d.2) :: raw := by simp [hm]
        obtain rfl : key = first := hu _ hk _ List.mem_cons_self (hp.trans ha.symm)
        rw [List.lookup_cons_self] at hl
        exact hl
    · rw [if_neg hda, ih hu']
      refine exists_congr fun key => and_congr_right fun hp => ?_
      have hk : key ≠ first := by
        rintro rfl
        exact hda (Option.some.inj (hp.symm.trans ha))
      rw [List.lookup_cons, beq_false_of_ne hk]

/-! ## Tables -/

def stored (raw : List (String × String)) : Json := .record (raw.map fun e => (e.1, .text e.2))

theorem intact_stored (raw : List (String × String)) : (stored raw).intact := by
  rw [stored, Json.intact_record, List.forall_mem_map]
  exact fun _ _ => Json.intact_text

theorem mapM_textMember (raw : List (String × String)) :
    (raw.map fun e => (some e.1, Json.text e.2)).mapM textMember = .ok raw := by
  rw [mapM_eq_ok_iff, List.forall₂_map_left_iff, List.forall₂_same]
  exact fun e _ => rfl

theorem ofJson_stored (room : ℕ) (raw : List (String × String)) :
    ofJson (room + 1) (stored raw) = (raw.mapM binding).map ofList := by
  have hr : stored raw = .object (raw.map fun e => (some e.1, Json.text e.2)) := by
    simp [stored, Json.record]
  rw [hr, ofJson, mapM_textMember]
  cases h : raw.mapM binding <;> simp [bind, Except.bind, h, Except.map, pure, Except.pure]

theorem toJson_eq_stored (t : Labels) :
    t.toJson = stored (t.entries.map fun e => (e.1.text, e.2)) := by
  simp [toJson, stored, Function.comp_def]

theorem mapM_binding_entries (t : Labels) :
    (t.entries.map fun e => (e.1.text, e.2)).mapM binding = .ok t.entries := by
  rw [mapM_eq_ok_iff, List.forall₂_map_left_iff, List.forall₂_same]
  exact fun e _ => binding_eq_ok_iff.mpr ⟨Address.parse?_text e.1, rfl⟩

theorem ofList_entries (t : Labels) : ofList t.entries = t := by
  apply ext_find?
  intro a
  rw [find?_ofList, ← lookup_eq_of_perm t.entries.reverse_perm.symm t.nodup_addresses, ← find?]

theorem parse_write (t : Labels) : Labels.parse t.toJson.write = .ok t := by
  rw [toJson_eq_stored, Labels.parse, decodeText_write (intact_stored _), nestingLimit,
    ofJson_stored, mapM_binding_entries]
  exact congrArg Except.ok t.ofList_entries

theorem parse_of_read {text : String} {raw : List (String × String)}
    (h : Json.read text = ⟨stored raw, true⟩) :
    Labels.parse text = (raw.mapM binding).map ofList := by
  rw [Labels.parse, decodeText_of_read h, nestingLimit, ofJson_stored]

theorem find?_ofList_bindings {raw : List (String × String)} {bindings : List (Address × String)}
    (h : raw.mapM binding = .ok bindings) (hu : Unambiguous raw) (a : Address) (name : String) :
    (ofList bindings).find? a = some name ↔
      ∃ key, Address.parse? key = some a ∧ raw.reverse.lookup key = some name := by
  have hr : Unambiguous raw.reverse := by simpa [Unambiguous] using hu
  rw [find?_ofList, lookup_bindings (List.rel_reverse (mapM_eq_ok_iff.mp h)) hr]

/-! ## Orders of iteration -/

/-- Entries with the keys of others, each once and with the last of its names. -/
structure Latest (raw entries : List (String × String)) : Prop where
  nodup_keys : (entries.map Prod.fst).Nodup
  mem_iff : ∀ key name, (key, name) ∈ entries ↔ raw.reverse.lookup key = some name

namespace Latest

variable {raw entries : List (String × String)}

theorem mem_raw (h : Latest raw entries) {e : String × String} (he : e ∈ entries) :
    e ∈ raw := by
  obtain ⟨before, after, hm, -⟩ := List.lookup_eq_some_iff.mp ((h.mem_iff e.1 e.2).mp he)
  have hr : e ∈ raw.reverse := by simp [hm]
  exact List.mem_reverse.mp hr

theorem lookup_reverse (h : Latest raw entries) (key : String) :
    entries.reverse.lookup key = raw.reverse.lookup key := by
  have hn : (entries.reverse.map Prod.fst).Nodup := by
    rw [List.map_reverse, List.nodup_reverse]
    exact h.nodup_keys
  refine Option.ext fun name => ?_
  rw [lookup_eq_some_iff_mem hn, List.mem_reverse, h.mem_iff]

/-- An unambiguous object gives the same table in every order of its entries. -/
theorem ofList_bindings (h : Latest raw entries) (hu : Unambiguous raw)
    {bindings : List (Address × String)} (hb : raw.mapM binding = .ok bindings) :
    ∃ bindings', entries.mapM binding = .ok bindings' ∧ ofList bindings' = ofList bindings := by
  have hp := exists_bindings_iff.mp ⟨bindings, hb⟩
  obtain ⟨bindings', hb'⟩ := exists_bindings_iff.mpr fun e he => hp e (h.mem_raw he)
  have hu' : Unambiguous entries := fun d hd e he => hu d (h.mem_raw hd) e (h.mem_raw he)
  refine ⟨bindings', hb', ext_find? fun a => Option.ext fun name => ?_⟩
  rw [find?_ofList_bindings hb' hu', find?_ofList_bindings hb hu]
  simp only [h.lookup_reverse]

end Latest

/-- Tables read back from what is stored for them, an entry for each bound address in
ascending order. An object of names reads as a table exactly if all its keys are addresses,
and an unambiguous one binds those addresses, in whatever order its entries are taken. -/
theorem stored_tables_read_back :
    (∀ t : Labels, ∃ entries : List (Address × String),
      t.toJson = stored (entries.map fun e => (e.1.text, e.2)) ∧
      entries.Pairwise (fun d e => d.1 < e.1) ∧
      (∀ a name, (a, name) ∈ entries ↔ t.find? a = some name) ∧
      Labels.parse t.toJson.write = .ok t) ∧
    ∀ (text : String) (raw : List (String × String)), Json.read text = ⟨stored raw, true⟩ →
      ((∃ t, Labels.parse text = .ok t) ↔ ∀ e ∈ raw, ∃ a, Address.parse? e.1 = some a) ∧
      ((∀ e ∈ raw, ∃ a, Address.parse? e.1 = some a) → Unambiguous raw →
        ∃ t, Labels.parse text = .ok t ∧
          (∀ a name, t.find? a = some name ↔
            ∃ key, Address.parse? key = some a ∧ raw.reverse.lookup key = some name) ∧
          ∀ entries, Latest raw entries →
            ∃ bindings, entries.mapM binding = .ok bindings ∧ ofList bindings = t) := by
  constructor
  · intro t
    exact ⟨t.entries, t.toJson_eq_stored, t.ascending, fun a name => find?_eq_some_iff.symm,
      t.parse_write⟩
  · intro text raw h
    rw [parse_of_read h]
    constructor
    · rw [← exists_bindings_iff]
      simp [map_eq_ok_iff]
    · intro hp hu
      obtain ⟨bindings, hb⟩ := exists_bindings_iff.mpr hp
      exact ⟨ofList bindings, congrArg (Except.map ofList) hb, find?_ofList_bindings hb hu,
        fun entries he => he.ofList_bindings hu hb⟩

/-- Two addresses in different spellings. The first key comes again with another name. -/
def repeatedKey : List (String × String) :=
  [("0x10", "first"), ("0020", "second"), ("0x10", "third")]

def repeatedKeyText : String :=
  "\x7b\"0x10\":\"first\", \"0020\":\"second\", \"0x10\":\"third\"\x7d"

theorem repeatedKey_reads_back :
    Json.read repeatedKeyText = ⟨stored repeatedKey, true⟩ ∧
      ∃ t, Labels.parse repeatedKeyText = .ok t ∧
        t.find? 16 = some "third" ∧ t.find? 32 = some "second" ∧
        ∃ bindings, [("0020", "second"), ("0x10", "third")].mapM binding = .ok bindings ∧
          ofList bindings = t := by
  have hr : Json.read repeatedKeyText = ⟨stored repeatedKey, true⟩ := rfl
  have h16 : Address.parse? "0x10" = some 16 := by decide
  have h32 : Address.parse? "0020" = some 32 := by decide
  have hp : ∀ e ∈ repeatedKey, ∃ a, Address.parse? e.1 = some a := by
    simp [repeatedKey, h16, h32]
  have hu : Unambiguous repeatedKey := by simp [Unambiguous, repeatedKey, h16, h32]
  obtain ⟨t, ht, hf, hl⟩ := (stored_tables_read_back.2 repeatedKeyText repeatedKey hr).2 hp hu
  refine ⟨hr, t, ht, (hf _ _).mpr ⟨"0x10", h16, by decide⟩,
    (hf _ _).mpr ⟨"0020", h32, by decide⟩, hl _ ⟨by decide, fun key name => ?_⟩⟩
  by_cases hk : key = "0x10"
  · simp [repeatedKey, hk, eq_comm]
  · by_cases hk' : key = "0020" <;>
      simp [repeatedKey, List.lookup_cons, beq_false_of_ne, hk, hk', eq_comm]

end Disasm.Labels
