import TaggedProse.Xml.Reader

/-! The elements that are open while a text is read. The reader knows them from the tags that it has read, and
goes on with them. -/
namespace TaggedProse.Xml
variable {line position : Nat} {s : List Char} {opened opened' upper : List (List Char)} {root : List Char}
  {event : Event} {events done todo : List (Nat × Event)}

def trackAll (opened : List (List Char)) :
    List (Nat × Event) → Except (Nat × MarkupError) (List (List Char))
  | [] => .ok opened
  | (position, event) :: events =>
    match track position opened event with
    | .error fault => .error fault
    | .ok opened' => trackAll opened' events

/-! ### One event -/

theorem track_position (position : Nat) (opened : List (List Char)) (event : Event) :
    track position opened event =
      match track 0 opened event with
      | .error (_, e) => .error (position, e)
      | .ok opened' => .ok opened' := by
  unfold track
  cases event with
  | closing name =>
    cases opened with
    | nil => rfl
    | cons expected outer =>
      dsimp only
      split <;> rfl
  | _ => rfl

/-- Only a closing tag can be out of place. -/
theorem track_cases (position : Nat) (opened : List (List Char)) (event : Event) :
    (∃ opened', track position opened event = .ok opened') ∨
      ∃ name, event = .closing name ∧
        (track position opened event = .error (position, .unmatchedClosing name) ∨
          ∃ expected, expected ≠ name ∧
            track position opened event = .error (position, .mismatchedClosing expected name)) := by
  cases event with
  | closing name =>
    cases opened with
    | nil => exact .inr ⟨name, rfl, .inl rfl⟩
    | cons expected outer =>
      by_cases heq : name = expected
      · exact .inl ⟨outer, by simp [track, heq]⟩
      · exact .inr ⟨name, rfl, .inr ⟨expected, Ne.symm heq, by simp [track, heq]⟩⟩
  | _ => exact .inl ⟨_, rfl⟩

/-- Inside an element, only its own closing tag ends it. -/
theorem track_append (h : track position (upper ++ [root]) event = .ok opened) :
    (upper = [] ∧ event = .closing root ∧ opened = []) ∨
      ∃ upper', track position upper event = .ok upper' ∧ opened = upper' ++ [root] := by
  cases event with
  | closing name =>
    cases upper with
    | nil =>
      rw [List.nil_append, track] at h
      split at h
      · next heq => cases h; exact .inl ⟨rfl, by rw [heq], rfl⟩
      · cases h
    | cons innermost upper =>
      rw [List.cons_append, track] at h
      split at h
      · next heq => cases h; exact .inr ⟨upper, by rw [track, if_pos heq], rfl⟩
      · cases h
  | opening content => cases h; exact .inr ⟨tagName content :: upper, rfl, rfl⟩
  | _ => cases h; exact .inr ⟨upper, rfl, rfl⟩

/-! ### Several events -/

theorem exists_of_trackAll_cons (h : trackAll opened ((position, event) :: events) = .ok opened') :
    ∃ opened₁, track position opened event = .ok opened₁ ∧ trackAll opened₁ events = .ok opened' := by
  rw [trackAll] at h
  split at h
  · cases h
  · next opened₁ htrack => exact ⟨opened₁, htrack, h⟩

/-- The reader goes on after an event with what is then open. -/
theorem exists_of_readFrom_cons {fault : Option (Nat × MarkupError)}
    (h : readFrom opened position s = ⟨(line, event) :: events, fault⟩) :
    ∃ opened' position' rest, track line opened event = .ok opened' ∧
      readFrom opened' position' rest = ⟨events, fault⟩ := by
  cases s with
  | nil => rw [readFrom] at h; cases h
  | cons c s =>
    rw [readFrom] at h
    split at h
    · split at h
      · cases h
      · split at h
        · cases h
        · split at h
          · cases h
          · next htrack =>
            cases h
            exact ⟨_, _, _, htrack, rfl⟩
    · cases h
      exact ⟨opened, _, _, rfl, rfl⟩

theorem exists_of_readFrom_append {fault : Option (Nat × MarkupError)}
    (h : readFrom opened position s = ⟨done ++ todo, fault⟩) :
    ∃ opened' position' rest, trackAll opened done = .ok opened' ∧
      readFrom opened' position' rest = ⟨todo, fault⟩ := by
  induction done generalizing opened position s with
  | nil => exact ⟨opened, position, s, rfl, h⟩
  | cons first done ih =>
    obtain ⟨line, event⟩ := first
    obtain ⟨opened₁, position₁, rest, htrack, hrest⟩ := exists_of_readFrom_cons h
    obtain ⟨opened', position', rest', hdone, hgoes⟩ := ih hrest
    exact ⟨opened', position', rest', by rw [trackAll, htrack]; exact hdone, hgoes⟩

/-- After some of its events the reader goes on inside the elements that they leave open. -/
theorem exists_of_read_append (h : (read s).events = done ++ todo) :
    ∃ opened position rest, trackAll [] done = .ok opened ∧
      readFrom opened position rest = ⟨todo, (read s).fault⟩ := by
  have hread : ∃ t, read s = readFrom [] 0 t := by
    unfold read
    split <;> exact ⟨_, rfl⟩
  obtain ⟨t, ht⟩ := hread
  rw [ht] at h ⊢
  have hreading : readFrom [] 0 t = ⟨done ++ todo, (readFrom [] 0 t).fault⟩ := by rw [← h]
  exact exists_of_readFrom_append hreading

end TaggedProse.Xml
