import Mathlib.Data.List.TakeWhile
import TaggedProse.Assembly.Prose
import TaggedProse.Proofs.Text.Words

/-! The first visible character of a text stays the same when the text is squeezed. -/
namespace TaggedProse
variable {c : Char} {s : List Char} {line : Nat}

def firstVisible? (s : List Char) : Option Char := s.find? (!isBlank ·)

theorem firstVisible?_append (s t : List Char) :
    firstVisible? (s ++ t) = (firstVisible? s).or (firstVisible? t) := List.find?_append

theorem firstVisible?_eq_none : firstVisible? s = none ↔ allBlank s = true := by
  simp [firstVisible?, allBlank]

theorem visibleLine?_eq_none : visibleLine? line s = none ↔ allBlank s = true := by
  induction s generalizing line with
  | nil => simp [visibleLine?, allBlank]
  | cons c s ih =>
    rw [visibleLine?]
    cases hc : isBlank c with
    | true => simpa [allBlank, hc] using ih
    | false => simp [allBlank, hc]

theorem visibleLine?_singleton {n : Nat} :
    visibleLine? line [c] = some n ↔ isBlank c = false ∧ line = n := by
  cases hc : isBlank c <;> simp [visibleLine?, hc]

/-- The newlines before the first visible character are those of the white space at the beginning. -/
theorem visibleLine?_of_visible (hs : allBlank s = false) (line : Nat) :
    visibleLine? line s = some (line + newlines (s.takeWhile isBlank)) := by
  have hsplit := visibleLine?_append line (s.takeWhile isBlank) (s.dropWhile isBlank)
  rw [List.takeWhile_append_dropWhile, visibleLine?_eq_none.2 List.all_takeWhile, Option.none_or] at hsplit
  rw [hsplit]
  cases hdrop : s.dropWhile isBlank with
  | nil => exact absurd (List.all_eq_true.2 (List.dropWhile_eq_nil_iff.1 hdrop)) (Bool.eq_false_iff.1 hs)
  | cons c t =>
    have hc := List.head?_dropWhile_not isBlank s
    rw [hdrop] at hc
    rw [visibleLine?, if_neg (Bool.eq_false_iff.1 hc)]

theorem firstVisible?_eq_head? (s : List Char) : firstVisible? s = (s.filter (!isBlank ·)).head? :=
  List.head?_filter.symm

/-- White space between pieces makes no difference. -/
theorem firstVisible?_joinWith (h : isBlank c = true) (pieces : List (List Char)) :
    firstVisible? (joinWith c pieces) = firstVisible? pieces.flatten := by
  rw [firstVisible?_eq_head?, filter_joinWith (by simp [h]), ← firstVisible?_eq_head?]

theorem firstVisible?_squeeze (s : List Char) : firstVisible? (squeeze s) = firstVisible? s := by
  rw [firstVisible?_eq_head?, filter_squeeze, ← firstVisible?_eq_head?]

theorem firstVisible?_flatten_squeeze (pieces : List (List Char)) :
    firstVisible? (pieces.map squeeze).flatten = firstVisible? pieces.flatten := by
  induction pieces with
  | nil => rfl
  | cons piece pieces ih =>
    rw [List.map_cons, List.flatten_cons, List.flatten_cons, firstVisible?_append,
      firstVisible?_append, firstVisible?_squeeze, ih]

/-- The text of a passage begins, breaks and spaces apart, as what was written does. -/
theorem firstVisible?_chars (p : Passage) : firstVisible? p.chars = firstVisible? p.pieces.flatten := by
  rw [Passage.chars, firstVisible?_joinWith (by decide), firstVisible?_flatten_squeeze]

end TaggedProse
