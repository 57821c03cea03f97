import Mathlib.Tactic.IntervalCases
import Mathlib.Tactic.Ring
import Disasm.Operand.Masm
import Disasm.Proofs.Arithmetic.Reader

/-! # Text without grouping

The text of a formula drops its grouping, and a minus sign in front of the second
term of a sum takes the place of the plus. Where no operand of a product and no
subtrahend is a sum or a difference, the text still reads as the same value.
-/

namespace Disasm.Arithmetic

/-! ## Characters that a scan passes over -/

/-- At every depth of brackets, a scan adds these characters to its run. -/
def Neutral (s : List Char) : Prop :=
  ∀ depth run rest, scan depth run (s ++ rest) = scan depth (run ++ s) rest

/-- Inside brackets, a scan adds these characters to its run. -/
def Enclosed (s : List Char) : Prop :=
  ∀ depth run rest, scan (depth + 1) run (s ++ rest) = scan (depth + 1) (run ++ s) rest

variable {s t : List Char} {c : Char}

theorem Neutral.enclosed (h : Neutral s) : Enclosed s := fun depth => h (depth + 1)

theorem Neutral.nil : Neutral [] := fun _ _ _ => by simp

theorem Neutral.append (hs : Neutral s) (ht : Neutral t) : Neutral (s ++ t) :=
  fun depth run rest => by
    rw [List.append_assoc, hs, ht, List.append_assoc]

theorem Enclosed.append (hs : Enclosed s) (ht : Enclosed t) : Enclosed (s ++ t) :=
  fun depth run rest => by
    rw [List.append_assoc, hs, ht, List.append_assoc]

theorem Operator.ofChar?_eq_none (h : c ∉ ['+', '-', '*']) : ofChar? c = none := by
  unfold ofChar?
  split <;> simp_all

theorem nesting_of_notMem (h : c ∉ ['[', ']']) (depth : ℕ) : nesting depth c = depth := by
  simp_all [nesting]

theorem Neutral.of_forall (h : ∀ c ∈ s, c ∉ ['+', '-', '*', '[', ']']) : Neutral s := by
  intro depth run rest
  induction s generalizing run with
  | nil => simp
  | cons c s ih =>
    obtain ⟨hc, hs⟩ := List.forall_mem_cons.mp h
    have ho : Operator.ofChar? c = none := Operator.ofChar?_eq_none (by simp_all)
    have hn : nesting depth c = depth := nesting_of_notMem (by simp_all) depth
    rw [List.cons_append, scan, hn, ih hs]
    · simp
    · simp [ho]

theorem Enclosed.of_forall (h : ∀ c ∈ s, c ∉ ['[', ']']) : Enclosed s := by
  intro depth run rest
  induction s generalizing run with
  | nil => simp
  | cons c s ih =>
    obtain ⟨hc, hs⟩ := List.forall_mem_cons.mp h
    rw [List.cons_append, scan, nesting_of_notMem hc, ih hs]
    · simp
    · simp

theorem Enclosed.brackets (h : Enclosed s) : Neutral ('[' :: s ++ [']']) := by
  intro depth run rest
  have ho : ∀ cs, scan depth run ('[' :: cs) = scan (depth + 1) (run ++ ['[']) cs := by
    intro cs; cases depth <;> rfl
  have hc : ∀ run cs, scan (depth + 1) run (']' :: cs) = scan depth (run ++ [']']) cs :=
    fun _ _ => rfl
  simp [ho, h _, hc]

theorem Neutral.lower (n : ℕ) : Neutral (Hex.lower n).toList := by
  refine .of_forall fun c hc => ?_
  rw [Hex.toList_lower] at hc
  obtain ⟨d, hd, rfl⟩ := Hex.exists_digitChar_of_mem hc
  interval_cases d <;> decide

theorem Neutral.marked (n : ℕ) : Neutral (Hex.marked n).toList := by
  have hx : Neutral "0x".toList := .of_forall (by simp)
  rw [Hex.marked, String.toList_append]
  exact hx.append (.lower n)

/-! ## Formulas as rows of operands -/

/-- A text that a scan takes for one operand and that does not look like a numeral. -/
structure IsName (s : String) : Prop where
  neutral : Neutral s.toList
  head : ∃ c cs, s.toList = c :: cs ∧ c.isDigit = false ∧ c ≠ '-'

namespace Formula

def text : Formula → String
  | numeral n => Hex.signed n
  | name s => s
  | binary .plus l r => Expression.joinSum l.text r.text
  | binary .minus l r => l.text ++ "-" ++ r.text
  | binary .times l r => l.text ++ "*" ++ r.text

def names : Formula → List String
  | numeral _ => []
  | name s => [s]
  | binary _ l r => l.names ++ r.names

def isSum : Formula → Bool
  | binary .plus .. | binary .minus .. => true
  | _ => false

/-- No operand of a product and no subtrahend is a sum or a difference. -/
def Ungrouped : Formula → Prop
  | binary .plus l r => l.Ungrouped ∧ r.Ungrouped
  | binary .minus l r => l.Ungrouped ∧ r.Ungrouped ∧ r.isSum = false
  | binary .times l r => l.Ungrouped ∧ r.Ungrouped ∧ l.isSum = false ∧ r.isSum = false
  | _ => True

end Formula

/-- A row with another operator in front. -/
def behind (o : Operator) : List Item → List Item
  | [] => []
  | (_, x) :: xs => (o, x) :: xs

/-- A row of operands with a negative numeral in front taken away instead of added. -/
def foldSign : List Item → List Item
  | (o, .numeral n) :: xs =>
    if n < 0 then (.minus, .numeral (-n)) :: xs else (o, .numeral n) :: xs
  | xs => xs

def Formula.items : Formula → List Item
  | binary .plus l r => l.items ++ foldSign r.items
  | binary .minus l r => l.items ++ behind .minus r.items
  | binary .times l r => l.items ++ behind .times r.items
  | f => [(.plus, f)]

theorem Formula.exists_items (f : Formula) : ∃ x xs, f.items = (.plus, x) :: xs := by
  induction f with
  | numeral n => exact ⟨_, _, rfl⟩
  | name s => exact ⟨_, _, rfl⟩
  | binary o l r ihl =>
    obtain ⟨x, xs, hl⟩ := ihl
    cases o <;> exact ⟨x, _, by rw [items, hl]; rfl⟩

/-! ## The value of a row -/

/-- The value of a row of operands behind a product. -/
def rowValue (env : String → ℤ) : ℤ → List Item → ℤ
  | q, [] => q
  | q, (.plus, x) :: xs => q + rowValue env (x.value env) xs
  | q, (.minus, x) :: xs => q + rowValue env (-x.value env) xs
  | q, (.times, x) :: xs => rowValue env (q * x.value env) xs

def AllTimes (xs : List Item) : Prop := ∀ i ∈ xs, i.1 = .times

variable {env : String → ℤ} {xs ys : List Item}

theorem rowValue_append_sum {o : Operator} (ho : o ≠ .times) (x : Formula) (q : ℤ) :
    rowValue env q (xs ++ (o, x) :: ys) =
      rowValue env q xs + rowValue env 0 ((o, x) :: ys) := by
  induction xs generalizing q with
  | nil => cases o <;> simp_all [rowValue]
  | cons i xs ih =>
    obtain ⟨p, z⟩ := i
    cases p <;> simp only [List.cons_append, rowValue, ih, add_assoc]

theorem AllTimes.rowValue_mul (h : AllTimes xs) (a q : ℤ) :
    rowValue env (a * q) xs = a * rowValue env q xs := by
  induction xs generalizing q with
  | nil => rfl
  | cons i xs ih =>
    obtain ⟨o, x⟩ := i
    obtain ⟨rfl, hxs⟩ : o = .times ∧ AllTimes xs := List.forall_mem_cons.mp h
    rw [rowValue, rowValue, mul_assoc, ih hxs]

theorem AllTimes.rowValue_append (h : AllTimes xs) (q : ℤ) :
    rowValue env q (xs ++ ys) = rowValue env (rowValue env q xs) ys := by
  induction xs generalizing q with
  | nil => rfl
  | cons i xs ih =>
    obtain ⟨o, x⟩ := i
    obtain ⟨rfl, hxs⟩ : o = .times ∧ AllTimes xs := List.forall_mem_cons.mp h
    exact ih hxs _

theorem rowValue_foldSign (x : Formula) (q : ℤ) :
    rowValue env q (foldSign ((.plus, x) :: xs)) = rowValue env q ((.plus, x) :: xs) := by
  unfold foldSign
  split
  · next h =>
    cases h
    split <;> simp [rowValue, Formula.value]
  · rfl

theorem foldSign_eq (x : Formula) (xs : List Item) :
    ∃ o y, o ≠ .times ∧ foldSign ((.plus, x) :: xs) = (o, y) :: xs := by
  unfold foldSign
  split
  · next h =>
    cases h
    split
    · exact ⟨_, _, by decide, rfl⟩
    · exact ⟨_, _, by decide, rfl⟩
  · exact ⟨_, _, by decide, rfl⟩

theorem Formula.allTimes_items {f : Formula} (hu : f.Ungrouped) (hs : f.isSum = false)
    {x : Formula} (h : f.items = (.plus, x) :: xs) : AllTimes xs := by
  induction f generalizing x xs with
  | numeral n => cases h; simp [AllTimes]
  | name s => cases h; simp [AllTimes]
  | binary o l r ihl ihr =>
    cases o with
    | plus => cases hs
    | minus => cases hs
    | times =>
      obtain ⟨hl, hr, hsl, hsr⟩ := hu
      obtain ⟨y, ys, hy⟩ := l.exists_items
      obtain ⟨z, zs, hz⟩ := r.exists_items
      rw [items, hy, hz] at h
      cases h
      refine List.forall_mem_append.mpr ⟨ihl hl hsl hy, List.forall_mem_cons.mpr ⟨rfl, ?_⟩⟩
      exact ihr hr hsr hz

/-- The operands of a formula have its value as a row. -/
theorem Formula.rowValue_items {f : Formula} (hu : f.Ungrouped) :
    rowValue env 0 f.items = f.value env := by
  induction f with
  | numeral n => simp [items, rowValue, value]
  | name s => simp [items, rowValue, value]
  | binary o l r ihl ihr =>
    obtain ⟨y, ys, hy⟩ := l.exists_items
    obtain ⟨z, zs, hz⟩ := r.exists_items
    cases o with
    | plus =>
      obtain ⟨p, x, hp, hf⟩ := foldSign_eq z zs
      calc rowValue env 0 (l.items ++ foldSign r.items)
        _ = rowValue env 0 l.items + rowValue env 0 (foldSign r.items) := by
          rw [hz, hf, rowValue_append_sum hp]
        _ = rowValue env 0 l.items + rowValue env 0 r.items := by rw [hz, rowValue_foldSign]
        _ = l.value env + r.value env := by rw [ihl hu.1, ihr hu.2]
    | minus =>
      obtain ⟨hl, hr, hs⟩ := hu
      have hv : rowValue env (z.value env) zs = r.value env := by
        simpa [hz, rowValue] using ihr hr
      calc rowValue env 0 (l.items ++ behind .minus r.items)
        _ = rowValue env 0 l.items + rowValue env 0 ((.minus, z) :: zs) := by
          rw [hz, behind, rowValue_append_sum (by decide)]
        _ = l.value env + rowValue env (-1 * z.value env) zs := by
          rw [ihl hl, rowValue, zero_add, neg_one_mul]
        _ = l.value env - r.value env := by
          rw [(r.allTimes_items hr hs hz).rowValue_mul, hv]
          ring
    | times =>
      obtain ⟨hl, hr, hsl, hsr⟩ := hu
      have hvl : rowValue env (y.value env) ys = l.value env := by
        simpa [hy, rowValue] using ihl hl
      have hvr : rowValue env (z.value env) zs = r.value env := by
        simpa [hz, rowValue] using ihr hr
      calc rowValue env 0 (l.items ++ behind .times r.items)
        _ = rowValue env (y.value env) (ys ++ (.times, z) :: zs) := by
          rw [hy, hz, behind, List.cons_append, rowValue, zero_add]
        _ = rowValue env (l.value env * z.value env) zs := by
          rw [(l.allTimes_items hl hsl hy).rowValue_append, hvl, rowValue]
        _ = l.value env * r.value env := by
          rw [(r.allTimes_items hr hsr hz).rowValue_mul, hvr]

/-- What is made of further operands, if the product joins with a sign to a number before it. -/
theorem Partial.value_foldl (p : Partial) {b s : ℤ}
    (h : ∀ z, (p.join z).value env = b + s * z.value env) :
    (xs.foldl push p).finish.value env = b + rowValue env (s * p.product.value env) xs := by
  induction xs generalizing p b s with
  | nil => exact h p.product
  | cons i xs ih =>
    obtain ⟨o, x⟩ := i
    have hf : p.finish.value env = b + s * p.product.value env := h p.product
    rw [List.foldl_cons]
    cases o with
    | plus =>
      rw [ih (p.push (.plus, x)) (b := p.finish.value env) (s := 1)
        fun z => by simp [push, Formula.value, Operator.apply], hf, rowValue]
      simp [push, add_assoc]
    | minus =>
      rw [ih (p.push (.minus, x)) (b := p.finish.value env) (s := -1)
        fun z => by simp [push, Formula.value, Operator.apply, sub_eq_add_neg], hf, rowValue]
      simp [push, add_assoc]
    | times =>
      rw [ih (p.push (.times, x)) h, rowValue]
      simp [push, Formula.value, Operator.apply, mul_assoc]

theorem value_combine? (x : Formula) :
    (combine? ((.plus, x) :: xs)).map (Formula.value env) =
      some (rowValue env 0 ((.plus, x) :: xs)) := by
  have h : (xs.foldl Partial.push ⟨id, x⟩).finish.value env =
      0 + rowValue env (1 * x.value env) xs :=
    (Partial.mk id x).value_foldl fun z => by simp
  simpa [combine?, rowValue] using h

/-! ## The text of a row -/

/-- A numeral, or a name that a scan takes for one operand. -/
def IsOperand (x : Formula) : Prop := (∃ n, x = .numeral n) ∨ ∃ s, x = .name s ∧ IsName s

def rowText (xs : List Item) : List Char := xs.flatMap fun i => i.1.char :: i.2.text.toList

@[simp] theorem rowText_cons (o : Operator) (x : Formula) (xs : List Item) :
    rowText ((o, x) :: xs) = o.char :: (x.text.toList ++ rowText xs) := rfl

@[simp] theorem rowText_append (xs ys : List Item) :
    rowText (xs ++ ys) = rowText xs ++ rowText ys := List.flatMap_append

theorem isOperand_of_mem_items {f : Formula} (hn : ∀ s ∈ f.names, IsName s) :
    ∀ i ∈ f.items, IsOperand i.2 := by
  induction f with
  | numeral n => simp [Formula.items, IsOperand]
  | name s => simpa [Formula.items, IsOperand, Formula.names] using hn
  | binary o l r ihl ihr =>
    obtain ⟨hnl, hnr⟩ := List.forall_mem_append.mp hn
    obtain ⟨z, zs, hz⟩ := r.exists_items
    have hr := ihr hnr
    rw [hz] at hr
    obtain ⟨h₀, hzs⟩ := List.forall_mem_cons.mp hr
    cases o with
    | plus =>
      rw [Formula.items, hz]
      refine List.forall_mem_append.mpr ⟨ihl hnl, ?_⟩
      unfold foldSign
      split
      · next h =>
        cases h
        split
        · exact List.forall_mem_cons.mpr ⟨.inl ⟨_, rfl⟩, hzs⟩
        · exact hr
      · exact hr
    | minus =>
      rw [Formula.items, hz]
      exact List.forall_mem_append.mpr ⟨ihl hnl, List.forall_mem_cons.mpr ⟨h₀, hzs⟩⟩
    | times =>
      rw [Formula.items, hz]
      exact List.forall_mem_append.mpr ⟨ihl hnl, List.forall_mem_cons.mpr ⟨h₀, hzs⟩⟩

theorem text_numeral_of_neg {n : ℤ} (hn : n < 0) :
    (Formula.numeral n).text.toList = '-' :: (Formula.numeral (-n)).text.toList := by
  simp [Formula.text, Hex.signed, hn, hn.not_gt]

theorem text_numeral_of_nonneg {n : ℤ} (hn : ¬ n < 0) :
    (Formula.numeral n).text = Hex.marked n.natAbs := if_neg hn

/-- A minus sign in front of the second term of a sum is that of a negative numeral. -/
theorem joinSum_rowText {x : Formula} (hx : IsOperand x) (l : String) {r : String}
    (hr : rowText ((.plus, x) :: xs) = '+' :: r.toList) :
    (Expression.joinSum l r).toList = l.toList ++ rowText (foldSign ((.plus, x) :: xs)) := by
  have hr : x.text.toList ++ rowText xs = r.toList := (List.cons.inj hr).2
  rcases hx with ⟨n, rfl⟩ | ⟨s, rfl, hs⟩
  · by_cases hn : n < 0
    · rw [text_numeral_of_neg hn, List.cons_append] at hr
      simp [Expression.joinSum, foldSign, hn, ← hr, Operator.char]
    · rw [text_numeral_of_nonneg hn, Hex.toList_marked, List.cons_append] at hr
      simp [Expression.joinSum, foldSign, hn, ← hr, Operator.char, text_numeral_of_nonneg hn]
  · obtain ⟨c, cs, hc, _, hm⟩ := hs.head
    rw [Formula.text, hc, List.cons_append] at hr
    simp [Expression.joinSum, foldSign, hm, ← hr, Operator.char, Formula.text, hc]

/-- The row of a formula has its text, behind the operator of the first operand. -/
theorem Formula.rowText_items {f : Formula} (hn : ∀ s ∈ f.names, IsName s) :
    rowText f.items = '+' :: f.text.toList := by
  induction f with
  | numeral n => simp [items, rowText, Operator.char]
  | name s => simp [items, rowText, Operator.char]
  | binary o l r ihl ihr =>
    obtain ⟨hnl, hnr⟩ := List.forall_mem_append.mp hn
    obtain ⟨z, zs, hz⟩ := r.exists_items
    cases o with
    | plus =>
      have hx : IsOperand z := isOperand_of_mem_items hnr (.plus, z) (by simp [hz])
      have hr := hz ▸ ihr hnr
      rw [items, rowText_append, ihl hnl, text, joinSum_rowText hx l.text hr, hz,
        List.cons_append]
    | minus =>
      have hr := ihr hnr
      rw [hz, rowText_cons] at hr
      simp [items, ihl hnl, hz, behind, (List.cons.inj hr).2, text, Operator.char]
    | times =>
      have hr := ihr hnr
      rw [hz, rowText_cons] at hr
      simp [items, ihl hnl, hz, behind, (List.cons.inj hr).2, text, Operator.char]

/-! ## Reading a row -/

theorem scan_operator (o : Operator) (run cs : List Char) :
    scan 0 run (o.char :: cs) = flush run (.operator o :: scan 0 [] cs) := by
  cases o <;> rfl

theorem scan_rowText {run : List Char} (h : run ≠ []) :
    scan 0 run (rowText xs) = .atom (String.ofList run) :: scan 0 [] (rowText xs) := by
  cases xs with
  | nil => simp [rowText, scan, flush, h]
  | cons i xs =>
    obtain ⟨o, x⟩ := i
    simp [scan_operator, flush, h]

theorem scan_atom {s : String} (hs : Neutral s.toList) (hn : s.toList ≠ []) :
    scan 0 [] (s.toList ++ rowText xs) = .atom s :: scan 0 [] (rowText xs) := by
  rw [hs, List.nil_append, scan_rowText hn, String.ofList_toList]

theorem numeral?_marked (n : ℕ) : numeral? (Hex.marked n) = some n := by
  simp [numeral?, Hex.read?_toDigits]

theorem operand?_marked (n : ℕ) : operand? (Hex.marked n) = some (.numeral n) := by
  simp [operand?, numeral?_marked]

theorem IsName.operand? {s : String} (h : IsName s) : operand? s = some (.name s) := by
  obtain ⟨c, cs, hc, hd, _⟩ := h.head
  simp [Arithmetic.operand?, hc, hd]

theorem items?_rowText (h : ∀ i ∈ xs, IsOperand i.2) :
    items? (scan 0 [] (rowText xs)) = some xs := by
  induction xs with
  | nil => rfl
  | cons i xs ih =>
    obtain ⟨o, x⟩ := i
    obtain ⟨hx, hxs⟩ := List.forall_mem_cons.mp h
    have hm (n : ℕ) : scan 0 [] ((Hex.marked n).toList ++ rowText xs) =
        .atom (Hex.marked n) :: scan 0 [] (rowText xs) := scan_atom (Neutral.marked n) (by simp)
    rw [rowText_cons, scan_operator]
    rcases hx with ⟨n, rfl⟩ | ⟨s, rfl, hs⟩
    · by_cases hn : n < 0
      · have hp : (Formula.numeral (-n)).text = Hex.marked n.natAbs := by
          rw [text_numeral_of_nonneg (by omega), Int.natAbs_neg]
        have hs : ∀ cs, scan 0 [] ('-' :: cs) = .operator .minus :: scan 0 [] cs :=
          scan_operator .minus []
        have ha : -|n| = n := by rw [abs_of_neg hn, neg_neg]
        rw [text_numeral_of_neg hn, hp, List.cons_append, hs, hm]
        simp [flush, items?, numeral?_marked, ih hxs, ha]
      · have ha : |n| = n := abs_of_nonneg (by omega)
        rw [text_numeral_of_nonneg hn, hm]
        simp [flush, items?, operand?_marked, ih hxs, ha]
    · have hne : s.toList ≠ [] := by
        obtain ⟨c, cs, hc, _⟩ := hs.head
        simp [hc]
      rw [Formula.text, scan_atom hs.neutral hne]
      simp [flush, items?, hs.operand?, ih hxs]

/-- Without grouping that matters, the text of a formula reads as a formula of the same value. -/
theorem Formula.value_read?_text {f : Formula} (hu : f.Ungrouped) (hn : ∀ s ∈ f.names, IsName s)
    (env : String → ℤ) : (read? f.text).map (value env) = some (f.value env) := by
  have ht : .operator .plus :: tokens f.text = scan 0 [] (rowText f.items) := by
    rw [rowText_items hn]
    rfl
  obtain ⟨x, xs, hx⟩ := f.exists_items
  rw [read?, ht, items?_rowText (isOperand_of_mem_items hn), Option.bind_some, hx,
    value_combine?, ← hx, rowValue_items hu]

example : read? "a-0x2*[b+c]*-0x4+d" = some
    (.binary .plus
      (.binary .minus (.name "a")
        (.binary .times (.binary .times (.numeral 2) (.name "[b+c]")) (.numeral (-4))))
      (.name "d")) := by
  decide +kernel

end Disasm.Arithmetic
