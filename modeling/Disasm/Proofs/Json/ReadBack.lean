import Disasm.Json.Reader
import Disasm.Proofs.Json.Scan

/-! # Reading written JSON

A written value reads back as itself: numbers with their digits, strings with or without
a text, objects with the order of their keys.
-/

namespace Disasm.Json

variable {frames : List Frame} {rest : List Char}

/-! ## Steps -/

theorem readFrom_cons {state next : State} {c : Char} (h : step? state c = some next) :
    readFrom state (c :: rest) = readFrom next rest := by
  simp [readFrom, h]

theorem readFrom_number {n m : NumberScan} {cs : List Char} (h : n.run? cs = some m) :
    readFrom (.number n, frames) (cs ++ rest) = readFrom (.number m, frames) rest := by
  induction cs generalizing n with
  | nil =>
    cases h
    rfl
  | cons c cs ih =>
    rw [NumberScan.run?_cons] at h
    obtain ⟨n', hn, h⟩ := Option.bind_eq_some_iff.mp h
    have hs : step? (.number n, frames) c = some (.number n', frames) := by simp [step?, hn]
    rw [List.cons_append, readFrom_cons hs, ih h]

theorem readFrom_string {place : Place} {s t : StringScan} {cs : List Char}
    (h : s.run? cs = some t) :
    readFrom (.string place s, frames) (cs ++ rest) = readFrom (.string place t, frames) rest := by
  induction cs generalizing s with
  | nil =>
    cases h
    rfl
  | cons c cs ih =>
    rw [StringScan.run?_cons] at h
    obtain ⟨s', hs, h⟩ := Option.bind_eq_some_iff.mp h
    unfold StringScan.take? at hs
    split at hs
    · cases hs
    · next hc =>
      have hs : step? (.string place s, frames) c = some (.string place s', frames) := by
        simp [step?, hc, hs]
      rw [List.cons_append, readFrom_cons hs, ih h]

/-! ## Values -/

/-- What may stand behind a value: nothing outside all frames, a comma or the closing bracket
of the innermost frame within them. -/
inductive Follows : List Frame → List Char → Prop
  | nothing : Follows [] []
  | item {done : List Json} {frames : List Frame} {c : Char} {rest : List Char} :
      c = ',' ∨ c = ']' → Follows (.array done :: frames) (c :: rest)
  | member {done : List Member} {key : Option String} {frames : List Frame} {c : Char}
      {rest : List Char} : c = ',' ∨ c = '\x7d' → Follows (.object done key :: frames) (c :: rest)

theorem readFrom_number_end (n : Numeral) (h : Follows frames rest) :
    readFrom (.number (.ofNumeral n), frames) rest =
      readFrom (.after (.number n), frames) rest := by
  cases h with
  | nothing => simp [readFrom, finish]
  | item hc =>
    have hs := NumberScan.step?_ofNumeral_eq_none n (hc.imp_right .inl)
    rcases hc with rfl | rfl <;> simp [readFrom, step?, hs, afterValue?, isBlank]
  | member hc =>
    have hs := NumberScan.step?_ofNumeral_eq_none n (hc.imp_right .inr)
    rcases hc with rfl | rfl <;> simp [readFrom, step?, hs, afterValue?, isBlank]

theorem readFrom_quote_value (s : Option String) :
    readFrom (.value, frames) ((quote s).toList ++ rest) =
      readFrom (.after (.string s), frames) rest := by
  obtain ⟨t, ht, hc, hs⟩ := StringScan.run?_quotedText s
  rw [StringScan.toList_quote, List.append_assoc, List.cons_append, readFrom_cons rfl,
    readFrom_string ht]
  simp [readFrom, step?, hc, hs]

theorem readFrom_quote_key (done : List Member) (s : Option String) :
    readFrom (.nextKey done, frames) ((quote s).toList ++ rest) =
      readFrom (.colon done s, frames) rest := by
  obtain ⟨t, ht, hc, hs⟩ := StringScan.run?_quotedText s
  rw [StringScan.toList_quote, List.append_assoc, List.cons_append, readFrom_cons rfl,
    readFrom_string ht]
  simp [readFrom, step?, hc, hs]

def BeginsValue (c : Char) : Prop := isBlank c = false ∧ c ≠ ']'

theorem beginsValue_of_start? {c : Char} {n : NumberScan} (h : NumberScan.start? c = some n) :
    BeginsValue c := by
  constructor
  · simp only [isBlank, Bool.or_eq_false_iff, beq_eq_false_iff_ne]
    refine ⟨⟨⟨?_, ?_⟩, ?_⟩, ?_⟩ <;> rintro rfl <;> cases h
  · rintro rfl
    cases h

theorem beginValue?_of_start? {c : Char} {n : NumberScan} (h : NumberScan.start? c = some n) :
    beginValue? c frames = some (.number n, frames) := by
  unfold beginValue?
  split
  case h_7 => rw [h, Option.map_some]
  all_goals cases h

theorem readFrom_text_number (n : Numeral) (hr : Follows frames rest) :
    readFrom (.value, frames) (n.text.toList ++ rest) =
      readFrom (.after (.number n), frames) rest := by
  obtain ⟨c, cs, first, ht, hs, hn⟩ := NumberScan.scan_text n
  have hb : step? (.value, frames) c = some (.number first, frames) := by
    simp [step?, (beginsValue_of_start? hs).1, beginValue?_of_start? hs]
  rw [ht, List.cons_append, readFrom_cons hb, readFrom_number hn, readFrom_number_end n hr]

theorem write_begins (v : Json) (h : v.intact) :
    ∃ c cs, v.write.toList = c :: cs ∧ BeginsValue c := by
  cases v with
  | null => exact ⟨_, _, rfl, rfl, by decide⟩
  | bool b => cases b <;> exact ⟨_, _, rfl, rfl, by decide⟩
  | number n =>
    obtain ⟨c, cs, first, ht, hs, -⟩ := NumberScan.scan_text n
    exact ⟨c, cs, ht, beginsValue_of_start? hs⟩
  | string s => exact ⟨_, _, StringScan.toList_quote s, rfl, by decide⟩
  | array items =>
    cases items <;> exact ⟨'[', _, by simp [write]; rfl, rfl, by decide⟩
  | object members =>
    cases members <;> exact ⟨'\x7b', _, by simp [write]; rfl, rfl, by decide⟩
  | cut => cases h

theorem readFrom_firstItem (v : Json) (h : v.intact) :
    readFrom (.firstItem, frames) (v.write.toList ++ rest) =
      readFrom (.value, .array [] :: frames) (v.write.toList ++ rest) := by
  obtain ⟨c, cs, hc, hb, hne⟩ := write_begins v h
  simp only [hc, List.cons_append, readFrom, step?, hb, hne, if_false]
  cases beginValue? c (.array [] :: frames) <;> rfl

theorem readFrom_firstKey (key : Option String) :
    readFrom (.firstKey, frames) ((quote key).toList ++ rest) =
      readFrom (.nextKey [], frames) ((quote key).toList ++ rest) := by
  rw [StringScan.toList_quote]
  rfl

theorem follows_writeItems (done : List Json) (vs : List Json) :
    Follows (.array done :: frames) ((writeItems vs).toList ++ ']' :: rest) := by
  cases vs with
  | nil => exact .item (.inr rfl)
  | cons v vs =>
    have hw : (writeItems (v :: vs)).toList ++ ']' :: rest =
        ',' :: (v.write.toList ++ ((writeItems vs).toList ++ ']' :: rest)) := by
      simp [writeItems]
    rw [hw]
    exact .item (.inl rfl)

theorem follows_writeMembers (done : List Member) (key : Option String) (ms : List Member) :
    Follows (.object done key :: frames) ((writeMembers ms).toList ++ '\x7d' :: rest) := by
  cases ms with
  | nil => exact .member (.inr rfl)
  | cons m ms =>
    have hw : (writeMembers (m :: ms)).toList ++ '\x7d' :: rest =
        ',' :: ((quote m.1).toList ++ ':' :: (m.2.write.toList ++
          ((writeMembers ms).toList ++ '\x7d' :: rest))) := by
      simp [writeMembers]
    rw [hw]
    exact .member (.inl rfl)

/-! A value is followed by the rest of its list, which is read with the items before it done,
so the induction is over values together with what is left of their lists. -/

mutual

theorem readFrom_write {frames : List Frame} {rest : List Char} (hr : Follows frames rest) :
    ∀ v : Json, v.intact →
      readFrom (.value, frames) (v.write.toList ++ rest) = readFrom (.after v, frames) rest
  | .null, _ => rfl
  | .bool true, _ => rfl
  | .bool false, _ => rfl
  | .number n, _ => readFrom_text_number n hr
  | .string s, _ => readFrom_quote_value s
  | .array [], _ => rfl
  | .array (v :: vs), h => by
    simp only [intact, intactItems, Bool.and_eq_true] at h
    have hw : (Json.array (v :: vs)).write.toList ++ rest =
        '[' :: (v.write.toList ++ ((writeItems vs).toList ++ ']' :: rest)) := by
      simp [write]
    rw [hw, readFrom_cons rfl, readFrom_firstItem v h.1,
      readFrom_write (follows_writeItems [] vs) v h.1, readFrom_writeItems [] v vs h.2]
    rfl
  | .object [], _ => rfl
  | .object ((k, v) :: ms), h => by
    simp only [intact, intactMembers, Bool.and_eq_true] at h
    have hw : (Json.object ((k, v) :: ms)).write.toList ++ rest =
        '\x7b' :: ((quote k).toList ++ ':' :: (v.write.toList ++
          ((writeMembers ms).toList ++ '\x7d' :: rest))) := by
      simp [write]
    rw [hw, readFrom_cons rfl, readFrom_firstKey, readFrom_quote_key, readFrom_cons rfl,
      readFrom_write (follows_writeMembers [] k ms) v h.1, readFrom_writeMembers [] k v ms h.2]
    rfl

theorem readFrom_writeItems {frames : List Frame} {rest : List Char} (done : List Json)
    (v : Json) : ∀ vs : List Json, intactItems vs →
      readFrom (.after v, .array done :: frames) ((writeItems vs).toList ++ ']' :: rest) =
        readFrom (.after (.array ((v :: done).reverse ++ vs)), frames) rest
  | [], _ => by simp [writeItems, readFrom, step?, afterValue?, isBlank]
  | w :: ws, h => by
    simp only [intactItems, Bool.and_eq_true] at h
    have hw : (writeItems (w :: ws)).toList ++ ']' :: rest =
        ',' :: (w.write.toList ++ ((writeItems ws).toList ++ ']' :: rest)) := by
      simp [writeItems]
    rw [hw, readFrom_cons rfl, readFrom_write (follows_writeItems (v :: done) ws) w h.1,
      readFrom_writeItems (v :: done) w ws h.2]
    simp

theorem readFrom_writeMembers {frames : List Frame} {rest : List Char} (done : List Member)
    (key : Option String) (v : Json) : ∀ ms : List Member, intactMembers ms →
      readFrom (.after v, .object done key :: frames)
          ((writeMembers ms).toList ++ '\x7d' :: rest) =
        readFrom (.after (.object (((key, v) :: done).reverse ++ ms)), frames) rest
  | [], _ => by simp [writeMembers, readFrom, step?, afterValue?, isBlank]
  | (k, w) :: ms, h => by
    simp only [intactMembers, Bool.and_eq_true] at h
    have hw : (writeMembers ((k, w) :: ms)).toList ++ '\x7d' :: rest =
        ',' :: ((quote k).toList ++ ':' :: (w.write.toList ++
          ((writeMembers ms).toList ++ '\x7d' :: rest))) := by
      simp [writeMembers]
    rw [hw, readFrom_cons rfl, readFrom_quote_key, readFrom_cons rfl,
      readFrom_write (follows_writeMembers ((key, v) :: done) k ms) w h.1,
      readFrom_writeMembers ((key, v) :: done) k w ms h.2]
    simp

end

/-- A written value reads back as itself. -/
theorem read_write (v : Json) (h : v.intact) : read v.write = ⟨v, true⟩ := by
  have hr := readFrom_write .nothing v h
  rw [List.append_nil] at hr
  exact hr

end Disasm.Json
