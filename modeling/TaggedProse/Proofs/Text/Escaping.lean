import TaggedProse.Proofs.Text.Decoding

/-! Escaping what is escaped already. The references that the first pass has written or left alone are the only
ampersands the second pass sees, and it leaves them alone. -/
namespace TaggedProse
variable {place : Place} {c : Char}

/-- A place where no character stands for itself that does not in both. -/
def Place.both : Place → Place → Place
  | .attribute, _ => .attribute
  | .content, place => place

theorem name?_both (outer inner : Place) (c : Char) :
    (outer.both inner).name? c = (inner.name? c).or (outer.name? c) := by
  unfold Place.name?
  split
  · rfl
  · rfl
  · rfl
  · cases outer <;> cases inner <;> rfl
  · rfl

theorem ne_ampersand_of_name? (h : place.name? c = none) : c ≠ '&' := by
  rintro rfl
  cases h

/-- A second pass writes what one pass writes that is as strict as both. -/
theorem escape_escape (outer inner : Place) (s : List Char) :
    escape outer (escape inner s) = escape (outer.both inner) s := by
  induction s using reference_induction with
  | nil => rfl
  | reference name rest hname ih =>
    rw [escape_reference inner hname, escape_reference outer hname, escape_reference _ hname, ih]
  | literal c s hc ih =>
    rw [escape_cons inner hc, escape_cons _ hc, name?_both]
    cases hinner : inner.name? c with
    | some name =>
      dsimp only [Option.some_or]
      rw [escape_reference outer (isReferenceName_of_name? hinner), ih]
    | none =>
      have hamp : ¬(c = '&' ∧ completesReference (escape inner s) = true) := fun h =>
        ne_ampersand_of_name? hinner h.1
      dsimp only [Option.none_or]
      rw [escape_cons outer hamp, ih]

/-- Escaping for one place is idempotent, and escaping for both places, in either order, is escaping for
attributes. -/
theorem escape_idempotent_and_absorbs (s : List Char) :
    escape .content (escape .content s) = escape .content s ∧
      escape .attribute (escape .attribute s) = escape .attribute s ∧
      escape .attribute (escape .content s) = escape .attribute s ∧
      escape .content (escape .attribute s) = escape .attribute s :=
  ⟨escape_escape .content .content s, escape_escape .attribute .attribute s,
    escape_escape .attribute .content s, escape_escape .content .attribute s⟩

/-- The semicolon that a first pass writes completes no reference for the ampersand before it. -/
example : escape .content "&lt<&amp".toList = "&amp;lt&lt;&amp;amp".toList := by decide

end TaggedProse
