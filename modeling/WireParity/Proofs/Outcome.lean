/-!
# Outcomes of fallible steps

A chain of fallible steps succeeds exactly if each step does, with the result of the last, and fails
with the error of the first that does not. These equivalences take such chains apart without looking
at how errors travel.
-/

namespace WireParity

variable {ε α β : Type}

/-- A step followed by another succeeds when the first hands on something the second accepts. -/
theorem bind_eq_ok_iff {first : Except ε α} {next : α → Except ε β} {result : β} :
    (first >>= next) = .ok result ↔ ∃ middle, first = .ok middle ∧ next middle = .ok result := by
  cases first with
  | error fault =>
    refine ⟨?_, ?_⟩
    · intro h
      cases h
    · intro h
      obtain ⟨middle, h, _⟩ := h
      cases h
  | ok middle =>
    refine ⟨?_, ?_⟩
    · intro h
      exact ⟨middle, rfl, h⟩
    · intro h
      obtain ⟨other, hother, h⟩ := h
      cases hother
      exact h

/-- A mapped outcome is a success when the outcome is. -/
theorem map_eq_ok_iff {first : Except ε α} {f : α → β} {result : β} :
    first.map f = .ok result ↔ ∃ middle, first = .ok middle ∧ f middle = result := by
  cases first with
  | error fault => simp [Except.map]
  | ok middle => simp [Except.map]

/-- A step followed by another fails when the first does, or when the second does not accept what it
is handed. -/
theorem bind_eq_error_iff {first : Except ε α} {next : α → Except ε β} {fault : ε} :
    (first >>= next) = .error fault ↔
      first = .error fault ∨ ∃ middle, first = .ok middle ∧ next middle = .error fault := by
  cases first with
  | error other => simp [bind, Except.bind]
  | ok middle => simp [bind, Except.bind]

/-- A mapped outcome is a failure when the outcome is. -/
theorem map_eq_error_iff {first : Except ε α} {f : α → β} {fault : ε} :
    first.map f = .error fault ↔ first = .error fault := by
  cases first with
  | error other => simp [Except.map]
  | ok middle => simp [Except.map]

end WireParity
