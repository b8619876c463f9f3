/-!
Computations that end with a result or with an error.  Two steps in a row have
the result of the second one, and the error of the first one that has an error.
-/

namespace SchemaForms

variable {ε α β : Type} {first : Except ε α} {next : α → Except ε β}

/-- Two steps have a result when both of them have. -/
theorem bind_eq_ok_iff {result : β} :
    first >>= next = .ok result ↔ ∃ a, first = .ok a ∧ next a = .ok result := by
  cases first <;> simp [bind, Except.bind]

/-- Two steps fail when the first one fails, or the second one behind it. -/
theorem bind_eq_error_iff {error : ε} :
    first >>= next = .error error ↔
      first = .error error ∨ ∃ a, first = .ok a ∧ next a = .error error := by
  cases first <;> simp [bind, Except.bind]

/-- A step with a changed result has a result when the step has. -/
theorem map_eq_ok_iff {f : α → β} {result : β} :
    f <$> first = .ok result ↔ ∃ a, first = .ok a ∧ f a = result := by
  cases first <;> simp [Functor.map, Except.map]

end SchemaForms
