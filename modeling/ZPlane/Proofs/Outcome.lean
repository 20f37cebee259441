/-!
# Outcomes of Stages

Scanning, parsing and evaluation each give a result or a reason why there is none, and a
stage that needs several results stops at the first that is missing. Where a stage as a
whole has a result, so had each of its parts.

## Theorems

* `ok_and_ok_of_bind`: Both halves of a computation with a result have one.
* `error_cases_of_bind`: A computation fails in its first half or in its second.
* `ok_of_map_eq_ok`: What is passed on was there before.
* `mapM_cases`: A stage for each element of a list has all results, or stops at the first
  failure.
-/

namespace ZPlane

variable {ε α β : Type}

/-- Both halves of a computation with a result have one. -/
theorem ok_and_ok_of_bind {first : Except ε α} {second : α → Except ε β} {result : β}
    (h : first >>= second = .ok result) : ∃ a, first = .ok a ∧ second a = .ok result := by
  rcases first with _ | a
  · cases h
  · exact ⟨a, rfl, h⟩

/-- A computation fails in its first half or in its second. -/
theorem error_cases_of_bind {first : Except ε α} {second : α → Except ε β} {err : ε}
    (h : first >>= second = .error err) :
    first = .error err ∨ ∃ a, first = .ok a ∧ second a = .error err := by
  rcases first with e | a
  · cases h
    exact .inl rfl
  · exact .inr ⟨a, rfl, h⟩

/-- What is passed on was there before. -/
theorem ok_of_map_eq_ok {x : Except ε α} {f : α → β} {b : β} (h : f <$> x = .ok b) :
    ∃ a, x = .ok a ∧ f a = b := by
  rcases x with _ | a
  · cases h
  · exact ⟨a, rfl, Except.ok.inj h⟩

theorem error_of_map_eq_error {x : Except ε α} {f : α → β} {err : ε} (h : f <$> x = .error err) :
    x = .error err := by
  rcases x with e | a
  · exact congrArg Except.error (Except.error.inj h)
  · cases h

/-- A stage for each element of a list has all results, or stops at the first failure. -/
theorem mapM_cases (f : α → Except ε β) (l : List α) :
    (∃ bs, l.mapM f = .ok bs ∧ l.map f = bs.map .ok) ∨
    ∃ before a later e, l = before ++ a :: later ∧ (∀ b ∈ before, ∃ c, f b = .ok c) ∧
      f a = .error e ∧ l.mapM f = .error e := by
  induction l with
  | nil => exact .inl ⟨[], rfl, rfl⟩
  | cons a l ih =>
    rw [List.mapM_cons]
    rcases ha : f a with e | b
    · exact .inr ⟨[], a, l, e, rfl, by simp, ha, rfl⟩
    rcases ih with ⟨bs, hl, hbs⟩ | ⟨before, a', later, e, rfl, hbefore, ha', hl⟩
    · refine .inl ⟨b :: bs, by rw [hl]; rfl, ?_⟩
      rw [List.map_cons, List.map_cons, ha, hbs]
    · refine .inr ⟨a :: before, a', later, e, rfl, ?_, ha', by rw [hl]; rfl⟩
      exact List.forall_mem_cons.mpr ⟨⟨b, ha⟩, hbefore⟩

end ZPlane
