import Mathlib.Data.List.DropRight
import TaggedProse.Text.Blank

/-! Trimming takes away the white space at both ends, and nothing else. -/
namespace TaggedProse
variable {c : Char} {s u v : List Char}

def Trimmed (s : List Char) : Prop :=
  (∀ c ∈ s.head?, isBlank c = false) ∧ ∀ c ∈ s.getLast?, isBlank c = false

instance (s : List Char) : Decidable (Trimmed s) :=
  decidable_of_iff (s.head?.all (!isBlank ·) = true ∧ s.getLast?.all (!isBlank ·) = true) <| by
    simp [Trimmed, Option.all_eq_true]

theorem trimLeft_blanks (hv : allBlank v = true) (w : List Char) : trimLeft (v ++ w) = trimLeft w :=
  List.dropWhile_append_of_pos (List.all_eq_true.1 hv)

theorem trimLeft_cons_visible (hc : isBlank c = false) (s : List Char) : trimLeft (c :: s) = c :: s := by
  rw [trimLeft, List.dropWhile_cons_of_neg (by simp [hc])]

theorem trimRight_blanks (hv : allBlank v = true) (s : List Char) : trimRight (s ++ v) = trimRight s := by
  have hrev : allBlank v.reverse = true := by rw [allBlank, List.all_reverse]; exact hv
  rw [trimRight, trimRight, List.reverse_append, ← trimLeft, trimLeft_blanks hrev, trimLeft]

/-- What stands before a visible character stays. -/
theorem trimRight_append_cons (hc : isBlank c = false) (s t : List Char) :
    trimRight (s ++ c :: t) = s ++ c :: trimRight t := by
  have hstop : ∀ w : List Char, (w ++ c :: s.reverse).dropWhile isBlank = w.dropWhile isBlank ++ c :: s.reverse := by
    intro w
    rw [List.dropWhile_append]
    split
    · next hw => rw [List.isEmpty_iff.1 hw, ← trimLeft, trimLeft_cons_visible hc, List.nil_append]
    · rfl
  rw [trimRight, trimRight, List.reverse_append, List.reverse_cons, List.append_assoc, List.singleton_append, hstop,
    List.reverse_append, List.reverse_cons, List.reverse_reverse, List.append_assoc, List.singleton_append]

theorem exists_trimRight (s : List Char) : ∃ v, allBlank v = true ∧ s = trimRight s ++ v :=
  ⟨s.rtakeWhile isBlank, List.all_eq_true.2 fun _ => List.mem_rtakeWhile_imp,
    (List.rdropWhile_append_rtakeWhile ..).symm⟩

/-- A text is its trimmed form with white space around it. -/
theorem exists_trim (s : List Char) : ∃ u v, allBlank u = true ∧ allBlank v = true ∧ s = u ++ trim s ++ v := by
  obtain ⟨v, hv, heq⟩ := exists_trimRight (trimLeft s)
  refine ⟨s.takeWhile isBlank, v, List.all_takeWhile, hv, ?_⟩
  rw [List.append_assoc, trim, ← heq, trimLeft, List.takeWhile_append_dropWhile]

theorem trimmed_trim (s : List Char) : Trimmed (trim s) := by
  have hleft : ∀ c ∈ (trimLeft s).head?, isBlank c = false := fun c hc => by
    have hnot := List.head?_dropWhile_not isBlank s
    rw [← trimLeft, Option.mem_def.1 hc] at hnot
    exact hnot
  constructor
  · intro c hc
    obtain ⟨v, -, heq⟩ := exists_trimRight (trimLeft s)
    refine hleft c ?_
    rw [heq, List.head?_append, ← trim, Option.mem_def.1 hc]
    rfl
  · intro c hc
    have hnot := List.head?_dropWhile_not isBlank (trimLeft s).reverse
    rw [trim, trimRight, List.getLast?_reverse] at hc
    rw [Option.mem_def.1 hc] at hnot
    exact hnot

theorem trim_eq_self_iff : trim s = s ↔ Trimmed s := by
  refine ⟨fun h => h ▸ trimmed_trim s, fun h => ?_⟩
  cases s with
  | nil => rfl
  | cons c t =>
    rw [trim, trimLeft_cons_visible (h.1 c rfl)]
    refine List.rdropWhile_eq_self_iff.2 fun hne => ?_
    rw [h.2 _ (List.getLast?_eq_some_getLast hne)]
    exact Bool.false_ne_true

/-- White space around a text makes no difference once it is trimmed. -/
theorem trim_blanks (hu : allBlank u = true) (hv : allBlank v = true) (s : List Char) :
    trim (u ++ s ++ v) = trim s := by
  rw [List.append_assoc, trim, trimLeft_blanks hu, trim, trimLeft, List.dropWhile_append]
  split
  · next hs =>
    have hblank : s.dropWhile isBlank = [] := List.isEmpty_iff.1 hs
    rw [List.dropWhile_eq_nil_iff.2 (List.all_eq_true.1 hv), trimLeft, hblank]
  · exact trimRight_blanks hv _

/-- Behind a mark, only the white space at the end is taken away. -/
theorem trim_cons_append_cons {d : Char} (hd : isBlank d = false) (hc : isBlank c = false) (mark s : List Char) :
    trim (d :: (mark ++ c :: s)) = d :: (mark ++ c :: trimRight s) := by
  rw [trim, trimLeft_cons_visible hd]
  exact trimRight_append_cons hc (d :: mark) s

theorem trim_trimRight (s : List Char) : trim (trimRight s) = trim s := by
  obtain ⟨v, hv, heq⟩ := exists_trimRight s
  conv => rhs; rw [heq]
  exact (trim_blanks (u := []) rfl hv _).symm

end TaggedProse
