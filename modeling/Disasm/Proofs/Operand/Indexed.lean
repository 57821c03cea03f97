import Mathlib.Data.List.Permutation
import Disasm.Proofs.Literal
import Disasm.Operand.Masm

/-! # The canonical text of an indexed address

The three terms of an indexed address are added in any order and grouped either
way, and the index is multiplied from either side. Every such arrangement is
recognised and nothing else is, and all of them have one text as the address of a
memory reference.
-/

namespace Disasm

namespace IndexedAddress

open Expression
open scoped List

/-- The index register times its scale, from either side. -/
inductive Product (i : IndexedAddress) : Expression → Prop where
  | scaleLast : Product i (multiply (register i.index) (integer i.scale))
  | scaleFirst : Product i (multiply (integer i.scale) (register i.index))

/-- Some terms are those of an indexed address, in some order. -/
def Terms (i : IndexedAddress) (terms : List Expression) : Prop :=
  ∃ product, i.Product product ∧
    terms ~ [register i.base, product, integer i.displacement]

/-- An expression adds the terms of an indexed address, grouped either way. -/
inductive Arrangement (i : IndexedAddress) : Expression → Prop where
  | groupLeft {a b c : Expression} : i.Terms [a, b, c] → Arrangement i (add (add a b) c)
  | groupRight {a b c : Expression} : i.Terms [a, b, c] → Arrangement i (add a (add b c))

/-- The terms of nested sums, from left to right. -/
def summands : Expression → List Expression
  | add l r => summands l ++ summands r
  | e => [e]

/-- The parts that the terms of an indexed address play. -/
def roles (i : IndexedAddress) : List Term :=
  [.base i.base, .index i.index i.scale, .displacement i.displacement]

variable {i j : IndexedAddress} {a b c e : Expression} {t u v : Term}

/-! ## Terms -/

theorem orders_of_perm {α : Type} {a b c x y z : α} (h : [a, b, c] ~ [x, y, z]) :
    (a, b, c) ∈ [(x, y, z), (y, x, z), (y, z, x), (x, z, y), (z, x, y), (z, y, x)] := by
  simpa [List.permutations', List.permutations'Aux] using List.mem_permutations'.mpr h

theorem ofTerms?_eq_some_iff : ofTerms? t u v = some i ↔ [t, u, v] ~ i.roles := by
  constructor
  · intro h
    unfold ofTerms? at h
    split at h <;> cases h <;> simp only [roles]
    · exact .rfl
    · exact .cons _ (.swap ..)
    · exact .swap ..
    · exact (List.Perm.cons _ (.swap ..)).trans (.swap ..)
    · exact (List.Perm.swap ..).trans (.cons _ (.swap ..))
    · exact (List.Perm.swap ..).trans ((List.Perm.cons _ (.swap ..)).trans (.swap ..))
  · intro h
    have ho := orders_of_perm h
    simp only [List.mem_cons, Prod.mk.injEq, List.not_mem_nil, or_false] at ho
    rcases ho with ⟨rfl, rfl, rfl⟩ | ⟨rfl, rfl, rfl⟩ | ⟨rfl, rfl, rfl⟩ | ⟨rfl, rfl, rfl⟩ |
      ⟨rfl, rfl, rfl⟩ | ⟨rfl, rfl, rfl⟩ <;> rfl

theorem term_eq_base_iff {r : Register} :
    Term.ofExpression? e = some (.base r) ↔ e = register r := by
  constructor
  · intro h
    unfold Term.ofExpression? at h
    split at h <;> cases h
    rfl
  · rintro rfl
    rfl

theorem term_eq_displacement_iff {d : Literal} :
    Term.ofExpression? e = some (.displacement d) ↔ e = integer d := by
  constructor
  · intro h
    unfold Term.ofExpression? at h
    split at h <;> cases h
    rfl
  · rintro rfl
    rfl

theorem term_eq_index_iff :
    Term.ofExpression? e = some (.index i.index i.scale) ↔ i.Product e := by
  constructor
  · intro h
    unfold Term.ofExpression? at h
    split at h
    · cases h
    · cases h
    · obtain ⟨rfl, rfl⟩ := Term.index.inj (Option.some.inj h)
      exact .scaleLast
    · obtain ⟨rfl, rfl⟩ := Term.index.inj (Option.some.inj h)
      exact .scaleFirst
    · cases h
  · rintro (_ | _) <;> rfl

theorem forall₂_roles_iff {terms : List Expression} :
    List.Forall₂ (fun e t => Term.ofExpression? e = some t) terms i.roles ↔
      ∃ product, i.Product product ∧
        terms = [register i.base, product, integer i.displacement] := by
  simp only [roles, List.forall₂_cons_right_iff, List.forall₂_nil_right_iff, term_eq_base_iff,
    term_eq_displacement_iff, term_eq_index_iff]
  constructor
  · rintro ⟨_, _, rfl, ⟨product, _, hp, ⟨_, _, rfl, rfl, rfl⟩, rfl⟩, rfl⟩
    exact ⟨product, hp, rfl⟩
  · rintro ⟨product, hp, rfl⟩
    exact ⟨_, _, rfl, ⟨product, _, hp, ⟨_, _, rfl, rfl, rfl⟩, rfl⟩, rfl⟩

/-- Terms are those of an indexed address exactly if the parts that they play are its parts. -/
theorem terms_iff_roles {terms : List Expression} : i.Terms terms ↔ ∃ parts,
    List.Forall₂ (fun e t => Term.ofExpression? e = some t) terms parts ∧ parts ~ i.roles := by
  -- it is the same to reorder first and to look at the parts first
  have hc := congrFun₂ (List.forall₂_comp_perm_eq_perm_comp_forall₂
    (r := fun e t => Term.ofExpression? e = some t)) terms i.roles
  simp only [Relation.Comp, forall₂_roles_iff] at hc
  rw [hc]
  constructor
  · rintro ⟨product, hp, h⟩
    exact ⟨_, h, product, hp, rfl⟩
  · rintro ⟨_, h, product, hp, rfl⟩
    exact ⟨product, hp, h⟩

theorem terms_iff_ofTerms? : i.Terms [a, b, c] ↔ ∃ t u v, Term.ofExpression? a = some t ∧
    Term.ofExpression? b = some u ∧ Term.ofExpression? c = some v ∧ ofTerms? t u v = some i := by
  simp only [terms_iff_roles, ofTerms?_eq_some_iff, List.forall₂_cons_left_iff,
    List.forall₂_nil_left_iff]
  constructor
  · rintro ⟨_, ⟨t, _, ht, ⟨u, _, hu, ⟨v, _, hv, rfl, rfl⟩, rfl⟩, rfl⟩, h⟩
    exact ⟨t, u, v, ht, hu, hv, h⟩
  · rintro ⟨t, u, v, ht, hu, hv, h⟩
    exact ⟨_, ⟨t, _, ht, ⟨u, _, hu, ⟨v, _, hv, rfl, rfl⟩, rfl⟩, rfl⟩, h⟩

/-! ## Arrangements -/

theorem threeTerms?_groupRight (h : Term.ofExpression? a = some t) :
    threeTerms? (add a (add b c)) = some (a, b, c) := by
  -- a sum on the left would be split first, but a sum plays no part
  cases a with
  | add l r => cases h
  | _ => rfl

theorem arrangement_iff_threeTerms? :
    i.Arrangement e ↔ ∃ a b c, threeTerms? e = some (a, b, c) ∧ i.Terms [a, b, c] := by
  constructor
  · rintro (h | h)
    · exact ⟨_, _, _, rfl, h⟩
    · obtain ⟨t, _, _, ha, -⟩ := terms_iff_ofTerms?.mp h
      exact ⟨_, _, _, threeTerms?_groupRight ha, h⟩
  · rintro ⟨a, b, c, he, h⟩
    unfold threeTerms? at he
    split at he
    · cases he
      exact .groupLeft h
    · cases he
      exact .groupRight h
    · cases he

theorem ofExpression?_eq_some_iff :
    ofExpression? e = some i ↔ i.Arrangement e ∧ i.scale.unsigned ≠ 0 := by
  simp only [arrangement_iff_threeTerms?, terms_iff_ofTerms?]
  constructor
  · intro h
    simp only [ofExpression?, Option.bind_eq_bind, Option.bind_eq_some_iff] at h
    obtain ⟨⟨a, b, c⟩, he, t, ha, u, hb, v, hc, j, hj, h⟩ := h
    split at h
    · cases h
    · next hs =>
      cases h
      exact ⟨⟨a, b, c, he, t, u, v, ha, hb, hc, hj⟩, hs⟩
  · rintro ⟨⟨a, b, c, he, t, u, v, ha, hb, hc, hi⟩, hs⟩
    simp [ofExpression?, he, ha, hb, hc, hi, hs]

theorem Arrangement.ofExpression? (h : i.Arrangement e) (hs : i.scale.unsigned ≠ 0) :
    IndexedAddress.ofExpression? e = some i := ofExpression?_eq_some_iff.mpr ⟨h, hs⟩

theorem ofExpression?_eq_none_iff :
    ofExpression? e = none ↔ ∀ i : IndexedAddress, i.Arrangement e → i.scale.unsigned = 0 := by
  simp only [Option.eq_none_iff_forall_ne_some, ne_eq, ofExpression?_eq_some_iff, not_and,
    not_not]

theorem Arrangement.unique (h : i.Arrangement e) (h' : j.Arrangement e) : i = j := by
  simp only [arrangement_iff_threeTerms?, terms_iff_ofTerms?] at h h'
  obtain ⟨a, b, c, he, t, u, v, ha, hb, hc, hi⟩ := h
  obtain ⟨a', b', c', he', t', u', v', ha', hb', hc', hj⟩ := h'
  cases he.symm.trans he'
  cases ha.symm.trans ha'
  cases hb.symm.trans hb'
  cases hc.symm.trans hc'
  exact Option.some.inj (hi.symm.trans hj)

/-! ## Summands -/

theorem summands_ne_nil (e : Expression) : summands e ≠ [] := by
  induction e with
  | add l r ihl _ => simp [summands, ihl]
  | _ => simp [summands]

theorem summands_of_term (h : Term.ofExpression? e = some t) : summands e = [e] := by
  cases e with
  | add l r => cases h
  | _ => rfl

theorem eq_of_summands_eq_one (h : summands e = [a]) : e = a := by
  cases e with
  | add l r =>
    have hl := List.length_pos_iff.mpr (summands_ne_nil l)
    have hr := List.length_pos_iff.mpr (summands_ne_nil r)
    have hn := congrArg List.length h
    simp only [summands, List.length_append, List.length_singleton] at hn
    omega
  | _ => exact List.singleton_inj.mp h

theorem eq_of_summands_eq_two (h : summands e = [a, b]) : e = add a b := by
  cases e with
  | add l r =>
    rcases List.append_eq_cons_iff.mp h with ⟨hl, -⟩ | ⟨as, hl, hb⟩
    · exact absurd hl (summands_ne_nil l)
    · rcases List.append_eq_singleton_iff.mp hb.symm with ⟨rfl, hr⟩ | ⟨-, hr⟩
      · rw [eq_of_summands_eq_one hl, eq_of_summands_eq_one hr]
      · exact absurd hr (summands_ne_nil r)
  | _ => simp [summands] at h

theorem eq_of_summands_eq_three (h : summands e = [a, b, c]) :
    e = add (add a b) c ∨ e = add a (add b c) := by
  cases e with
  | add l r =>
    rcases List.append_eq_cons_iff.mp h with ⟨hl, -⟩ | ⟨as, hl, hbc⟩
    · exact absurd hl (summands_ne_nil l)
    · rcases List.append_eq_cons_iff.mp hbc.symm with ⟨rfl, hr⟩ | ⟨bs, rfl, hc⟩
      · rw [eq_of_summands_eq_one hl, eq_of_summands_eq_two hr]
        exact .inr rfl
      · rcases List.append_eq_singleton_iff.mp hc.symm with ⟨rfl, hr⟩ | ⟨-, hr⟩
        · rw [eq_of_summands_eq_two hl, eq_of_summands_eq_one hr]
          exact .inl rfl
        · exact absurd hr (summands_ne_nil r)
  | _ => simp [summands] at h

theorem Terms.summands (h : i.Terms [a, b, c]) :
    summands a = [a] ∧ summands b = [b] ∧ summands c = [c] := by
  obtain ⟨t, u, v, ha, hb, hc, -⟩ := terms_iff_ofTerms?.mp h
  exact ⟨summands_of_term ha, summands_of_term hb, summands_of_term hc⟩

/-- An arrangement is a sum of the three terms and of no others, however it is grouped. -/
theorem arrangement_iff_summands : i.Arrangement e ↔ i.Terms (summands e) := by
  constructor
  · rintro (h | h)
    · obtain ⟨ha, hb, hc⟩ := h.summands
      simpa [IndexedAddress.summands, ha, hb, hc] using h
    · obtain ⟨ha, hb, hc⟩ := h.summands
      simpa [IndexedAddress.summands, ha, hb, hc] using h
  · intro h
    have ⟨product, _, hp⟩ := h
    obtain ⟨a, b, c, he⟩ := List.length_eq_three.mp hp.length_eq
    rw [he] at h
    rcases eq_of_summands_eq_three he with rfl | rfl
    · exact .groupLeft h
    · exact .groupRight h

/-- Exactly the sums of a register, a register times a literal other than zero and a literal are
indexed addresses, in every order and grouping, and no other tree is one. The tree determines the
registers and the literals. -/
theorem recognises_exactly_arrangements (e : Expression) :
    (∀ i, ofExpression? e = some i ↔ i.Arrangement e ∧ i.scale.unsigned ≠ 0) ∧
    (ofExpression? e = none ↔ ∀ i : IndexedAddress, i.Arrangement e → i.scale.unsigned = 0) ∧
    (∀ i : IndexedAddress, i.Arrangement e ↔ i.Terms (summands e)) ∧
    ∀ i j : IndexedAddress, i.Arrangement e → j.Arrangement e → i = j :=
  ⟨fun _ => ofExpression?_eq_some_iff, ofExpression?_eq_none_iff,
    fun _ => arrangement_iff_summands, fun _ _ h h' => h.unique h'⟩

def element (scale : Literal) : Expression :=
  add (multiply (integer scale) (register (.gpr32 1)))
    (add (integer (.ofInt .w16 (-8))) (register (.gpr32 0)))

/-- An array element and one more term, so that there are sums on both sides. -/
def fourTerms : Expression :=
  add (add (register (.gpr32 0)) (multiply (register (.gpr32 1)) (integer (.ofNat .w8 4))))
    (add (integer (.ofNat .w8 8)) (integer (.ofNat .w8 0)))

theorem recognises_elements :
    ofExpression? (element (.ofNat .w8 4)) =
        some ⟨.gpr32 0, .gpr32 1, .ofNat .w8 4, .ofInt .w16 (-8)⟩ ∧
      (Arrangement ⟨.gpr32 0, .gpr32 1, .ofNat .w8 0, .ofInt .w16 (-8)⟩
          (element (.ofNat .w8 0x100)) ∧
        ofExpression? (element (.ofNat .w8 0x100)) = none) ∧
      ofExpression? fourTerms = none := by
  have harr (scale : Literal) :
      Arrangement ⟨.gpr32 0, .gpr32 1, scale, .ofInt .w16 (-8)⟩ (element scale) :=
    .groupRight ⟨_, .scaleFirst, List.perm_append_singleton _ [_, _]⟩
  obtain ⟨hsome, -, -, -⟩ := recognises_exactly_arrangements (element (.ofNat .w8 4))
  obtain ⟨-, hnone, -, hone⟩ := recognises_exactly_arrangements (element (.ofNat .w8 0x100))
  obtain ⟨-, hfour, hterms, -⟩ := recognises_exactly_arrangements fourTerms
  refine ⟨(hsome _).mpr ⟨harr _, by decide⟩, ⟨harr _, hnone.mpr fun i hi => ?_⟩,
    hfour.mpr fun i hi => ?_⟩
  · rw [hone i _ hi (harr _)]
    decide
  · obtain ⟨product, -, hp⟩ := (hterms i).mp hi
    exact absurd hp.length_eq (by simp [summands, fourTerms])

/-! ## Text -/

theorem displacementText_eq (d : Literal) : displacementText d =
    if d.unsigned.testBit (d.width.size - 1) then
      "-0x" ++ Hex.lower (2 ^ d.width.size - d.unsigned)
    else "+0x" ++ Hex.lower d.unsigned := by
  unfold displacementText
  rw [d.isNegative_eq_testBit]
  split
  · next hn => rw [d.natAbs_signed hn]; rfl
  · rfl

theorem masm_of_ofExpression? {names : Naming} {segment : Option Expression}
    {type : OperandType} {lea : Bool} (h : IndexedAddress.ofExpression? e = some i) :
    (memoryReference e segment type).masm names lea = pure (i.text names.register) := by
  cases segment with
  | none => simp [memoryReference, masm, h]
  | some s => simp [memoryReference, masm, h]

end IndexedAddress

namespace Expression

/-- A memory reference to an indexed address has one text, however the terms are arranged. -/
theorem masm_of_arrangement (names : Naming) (i : IndexedAddress) (address : Expression)
    (segment : Option Expression) (type : OperandType) (lea : Bool)
    (h : i.Arrangement address) (hs : i.scale.unsigned ≠ 0) :
    (memoryReference address segment type).masm names lea =
      pure ("[" ++ names.register i.base ++ "+" ++ names.register i.index ++
        (if i.scale.unsigned = 1 then "" else "*" ++ Hex.lower i.scale.unsigned) ++
        (if i.displacement.unsigned.testBit (i.displacement.width.size - 1) then
          "-0x" ++ Hex.lower (2 ^ i.displacement.width.size - i.displacement.unsigned)
        else "+0x" ++ Hex.lower i.displacement.unsigned) ++ "]") := by
  rw [IndexedAddress.masm_of_ofExpression? (h.ofExpression? hs), IndexedAddress.text,
    IndexedAddress.displacementText_eq, IndexedAddress.scaleText]

/-- A displacement of 64 bits without a positive counterpart. -/
def lowest : IndexedAddress :=
  ⟨.gpr32 0, .gpr32 1, .ofNat .w16 0x10, .ofInt .w64 (-0x8000000000000000)⟩

def lowestAddress : Expression :=
  add (integer lowest.displacement)
    (add (multiply (integer lowest.scale) (register lowest.index)) (register lowest.base))

theorem masm_lowestAddress :
    (lowest.Arrangement lowestAddress ∧ lowest.scale.unsigned ≠ 0) ∧
      (memoryReference lowestAddress (register (.segment Register.fsId)) (.integer 32)).masm
          (.standard (.ofList [(0x8000000000000000, "start")])) false =
        pure "[eax+ecx*10-0x8000000000000000]" := by
  have h : lowest.Arrangement lowestAddress := .groupRight ⟨_, .scaleFirst, by decide⟩
  have hs : lowest.scale.unsigned ≠ 0 := by decide
  exact ⟨⟨h, hs⟩, masm_of_arrangement _ lowest lowestAddress _ _ false h hs⟩

end Expression

end Disasm
