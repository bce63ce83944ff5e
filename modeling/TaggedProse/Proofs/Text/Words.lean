import TaggedProse.Proofs.Text.Cut
import TaggedProse.Text.Words
import TaggedProse.Unicode.Word

/-! White space at the ends of a text makes no difference once the text is squeezed. -/
namespace TaggedProse
variable {c : Char} {s t : List Char}

def blankCodes : List Nat :=
  [0x09, 0x0A, 0x0B, 0x0C, 0x0D, 0x20, 0x85, 0xA0, 0x1680, 0x2000, 0x2001, 0x2002, 0x2003, 0x2004, 0x2005, 0x2006,
    0x2007, 0x2008, 0x2009, 0x200A, 0x2028, 0x2029, 0x202F, 0x205F, 0x3000]

/-- What holds of these characters holds of all white space. -/
theorem forall_isBlank (P : Char → Prop) (hP : ∀ n ∈ blankCodes, P (Char.ofNat n)) (h : isBlank c = true) : P c := by
  rw [← Char.ofNat_toNat c]
  refine hP _ ?_
  simp only [isBlank, Bool.or_eq_true, Bool.and_eq_true, decide_eq_true_eq, beq_iff_eq] at h
  simp only [blankCodes, List.mem_cons, List.not_mem_nil, or_false]
  omega

theorem isWord_eq_false_of_isBlank (h : isBlank c = true) : Unicode.isWord c = false :=
  forall_isBlank (fun c => Unicode.isWord c = false) (by decide +kernel) h

theorem words_append_blank (h : isBlank c = true) (s t : List Char) :
    words (s ++ c :: t) = words s ++ words t := by
  rw [words, cut_append h, List.filter_append]
  rfl

theorem words_cons_blank (h : isBlank c = true) (s : List Char) : words (c :: s) = words s :=
  words_append_blank h [] s

theorem words_of_allBlank (h : allBlank s = true) : words s = [] := by
  induction s with
  | nil => rfl
  | cons c s ih =>
    obtain ⟨hc, hs⟩ := Bool.and_eq_true_iff.1 h
    rw [words_cons_blank hc, ih hs]

theorem words_append_of_allBlank (h : allBlank t = true) (s : List Char) : words (s ++ t) = words s := by
  cases t with
  | nil => rw [List.append_nil]
  | cons c t =>
    obtain ⟨hc, ht⟩ := Bool.and_eq_true_iff.1 h
    rw [words_append_blank hc, words_of_allBlank ht, List.append_nil]

theorem squeeze_append_of_allBlank (h : allBlank t = true) (s : List Char) : squeeze (s ++ t) = squeeze s := by
  rw [squeeze, words_append_of_allBlank h, ← squeeze]

theorem squeeze_cons_blank (h : isBlank c = true) (s : List Char) : squeeze (c :: s) = squeeze s := by
  rw [squeeze, words_cons_blank h, ← squeeze]

/-- What squeezing leaves out is white space. -/
theorem filter_squeeze (s : List Char) : (squeeze s).filter (!isBlank ·) = s.filter (!isBlank ·) := by
  rw [squeeze, filter_joinWith (by decide), words, List.flatten_filter_not_isEmpty, flatten_cut,
    List.filter_filter]
  simp only [Bool.and_self]

/-! ### Squeezed text -/

theorem words_of_visible (hs : s ≠ []) (h : ∀ c ∈ s, isBlank c = false) : words s = [s] := by
  rw [words, cut_of_forall h, List.filter_singleton, List.isEmpty_eq_false_iff.2 hs]
  rfl

theorem words_joinWith {ws : List (List Char)} (hne : ∀ w ∈ ws, w ≠ [])
    (h : ∀ w ∈ ws, ∀ c ∈ w, isBlank c = false) : words (joinWith ' ' ws) = ws := by
  induction ws with
  | nil => rfl
  | cons w ws ih =>
    obtain ⟨hw, hws⟩ := List.forall_mem_cons.1 h
    obtain ⟨hwne, hwsne⟩ := List.forall_mem_cons.1 hne
    cases ws with
    | nil => exact words_of_visible hwne hw
    | cons w' ws =>
      rw [joinWith, words_append_blank (by decide), words_of_visible hwne hw, ih hwsne hws]
      rfl

theorem words_squeeze (s : List Char) : words (squeeze s) = words s := by
  refine words_joinWith (fun w hw => ?_) fun w hw => isCut_of_mem_cut (List.mem_of_mem_filter hw)
  simpa using List.of_mem_filter hw

/-- Squeezed text is left as it is. -/
theorem squeeze_squeeze (s : List Char) : squeeze (squeeze s) = squeeze s := by
  rw [squeeze, words_squeeze, ← squeeze]

theorem newlines_squeeze (s : List Char) : newlines (squeeze s) = 0 := by
  refine newlines_eq_zero (forall_mem_joinWith (by decide) fun w hw c hc => ?_)
  rintro rfl
  exact absurd (isCut_of_mem_cut (List.mem_of_mem_filter hw) '\n' hc) (by decide)

end TaggedProse
