import Disasm.Address
import Disasm.Expression

/-! # Log records

Some operations leave records behind, whether they succeed or fail. `Logged`
pairs a value with the records in the order in which they arose.
-/

namespace Disasm

inductive LogRecord where
  | unhandled (kind : Expression.Kind)
  | noIntegerKeyword (bits : UInt16)
  | noFloatKeyword (bits : UInt16)
  | generic (arch : Architecture) (address : Address)
  deriving DecidableEq, Repr

def LogRecord.text : LogRecord → String
  | unhandled kind => "ERROR unhandled expression kind " ++ kind.name
  | noIntegerKeyword bits =>
    "ERROR no pointer keyword for operand type Integer(" ++ toString bits.toNat ++ ")"
  | noFloatKeyword bits =>
    "ERROR no pointer keyword for operand type Float(" ++ toString bits.toNat ++ ")"
  | generic arch address =>
    "DEBUG " ++ arch.name ++ " instruction at " ++ Address.text address ++
      " uses the generic unparser"

/-- A value and the records left on the way to it. -/
structure Logged (α : Type) where
  value : α
  records : List LogRecord
  deriving DecidableEq

namespace Logged

def record (r : LogRecord) : Logged Unit := ⟨(), [r]⟩

instance : Monad Logged where
  pure a := ⟨a, []⟩
  bind x f := ⟨(f x.value).value, x.records ++ (f x.value).records⟩

@[simp] theorem value_pure {α : Type} (a : α) : (pure a : Logged α).value = a := rfl

@[simp] theorem records_pure {α : Type} (a : α) : (pure a : Logged α).records = [] := rfl

@[simp] theorem value_bind {α β : Type} (x : Logged α) (f : α → Logged β) :
    (x >>= f).value = (f x.value).value := rfl

@[simp] theorem records_bind {α β : Type} (x : Logged α) (f : α → Logged β) :
    (x >>= f).records = x.records ++ (f x.value).records := rfl

instance : LawfulMonad Logged :=
  LawfulMonad.mk' Logged
    (fun x => by simp [Functor.map])
    (fun a f => by simp [bind, pure])
    (fun x f g => by simp [bind, List.append_assoc])

end Logged

/-- A step that may fail; records stay in either case. -/
abbrev Attempt (ε α : Type) := ExceptT ε Logged α

end Disasm
