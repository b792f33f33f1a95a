/-!
# Values with warnings

A computation that warns yields its value together with the warnings, in the order in which they
were given.
-/

namespace OpenApiModels

structure Logged (α : Type) where
  value : α
  warnings : List String := []
deriving DecidableEq, Repr

namespace Logged

variable {α β : Type}

protected def bind (x : Logged α) (f : α → Logged β) : Logged β :=
  ⟨(f x.value).value, x.warnings ++ (f x.value).warnings⟩

instance : Monad Logged where
  pure a := ⟨a, []⟩
  bind := Logged.bind

@[simp] theorem value_pure (a : α) : (pure a : Logged α).value = a := rfl

@[simp] theorem value_bind (x : Logged α) (f : α → Logged β) :
    (x >>= f).value = (f x.value).value := rfl

/-- Gives a warning. -/
def warn (text : String) : Logged Unit :=
  ⟨(), [text]⟩

end Logged

end OpenApiModels
