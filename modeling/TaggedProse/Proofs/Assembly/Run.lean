import TaggedProse.Assembly.Basic

/-! Runs of the assembly, from a new one to its commands. -/
namespace TaggedProse.Assembly

theorem run_append (schema : Schema) (xs ys : List Part) (a : Assembly) :
    run schema (xs ++ ys) a =
      match run schema xs a with
      | (.ok (), a') => run schema ys a'
      | (.error e, a') => (.error e, a') := by
  induction xs generalizing a with
  | nil => rfl
  | cons part xs ih =>
    rw [List.cons_append, run, run]
    split
    · exact ih _
    · rfl

theorem exists_of_run_cons {schema : Schema} {part : Part} {parts : List Part} {a a' : Assembly}
    (h : run schema (part :: parts) a = (.ok (), a')) :
    ∃ a₁, step schema part a = (.ok (), a₁) ∧ run schema parts a₁ = (.ok (), a') := by
  rw [run] at h
  split at h
  · next a₁ hstep => exact ⟨a₁, hstep, h⟩
  · cases h

/-- What a new assembly makes of some parts; `line` is the last line. -/
def conclude (schema : Schema) (parts : List Part) (line : Nat) (ledger : Ledger) :
    Except Failure (List Command × Ledger) :=
  match run schema parts { ledger } with
  | (.error e, _) => .error e
  | (.ok (), a) => (a.finish line).map (·, a.ledger)

theorem closed_of_finish {a : Assembly} {line : Nat} {commands : List Command}
    (h : a.finish line = .ok commands) : a.closed = true := by
  unfold finish at h
  split at h
  · assumption
  · split at h <;> cases h

theorem exists_of_finish_error {a : Assembly} {line : Nat} {e : Failure} (h : a.finish line = .error e) :
    ∃ tag, e = ⟨.unclosed tag, line⟩ := by
  unfold finish at h
  split at h
  · cases h
  · split at h
    · cases h; exact ⟨_, rfl⟩
    · cases h; exact ⟨_, rfl⟩

end TaggedProse.Assembly
