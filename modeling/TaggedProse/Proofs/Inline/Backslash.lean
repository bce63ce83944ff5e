import TaggedProse.Proofs.Inline.Plain

/-! Prose whose punctuation is escaped. The lexer finds one text in a line of it: the line without its backslashes. -/
namespace TaggedProse
variable {c : Char} {s : List Char}

def backslashed (s : List Char) : List Char :=
  s.flatMap fun c => if isPunctuation c then ['\\', c] else [c]

theorem backslashed_cons_punctuation (h : isPunctuation c = true) (s : List Char) :
    backslashed (c :: s) = '\\' :: c :: backslashed s := by
  simp [backslashed, h]

theorem backslashed_cons_plain (h : isPunctuation c = false) (s : List Char) :
    backslashed (c :: s) = c :: backslashed s := by
  simp [backslashed, h]

theorem backslashed_append (s t : List Char) : backslashed (s ++ t) = backslashed s ++ backslashed t :=
  List.flatMap_append

/-- Text goes character by character, and those that are punctuation have a backslash before them. -/
theorem backslashed_induction {P : List Char → Prop} (nil : P [])
    (punctuation : ∀ c s, isPunctuation c = true → P s → P (c :: s))
    (plain : ∀ c s, isPunctuation c = false → P s → P (c :: s)) (s : List Char) : P s := by
  induction s with
  | nil => exact nil
  | cons c s ih =>
    cases hc : isPunctuation c with
    | true => exact punctuation c s hc ih
    | false => exact plain c s hc ih

theorem isMarkupChar_of_isPunctuation (h : isPunctuation c = false) : isMarkupChar c = false := by
  rw [Bool.eq_false_iff] at h ⊢
  intro hc
  simp only [isMarkupChar, Bool.or_eq_true, beq_iff_eq] at hc
  rcases hc with ((rfl | rfl) | rfl) | rfl <;> exact h (by decide)

theorem newlines_backslashed (s : List Char) : newlines (backslashed s) = newlines s := by
  induction s using backslashed_induction with
  | nil => rfl
  | punctuation c s hc ih =>
    rw [backslashed_cons_punctuation hc, newlines_cons_of_ne (by decide), newlines_cons, newlines_cons, ih]
  | plain c s hc ih => rw [backslashed_cons_plain hc, newlines_cons, newlines_cons, ih]

theorem isBlank_of_isPunctuation (h : isPunctuation c = true) : isBlank c = false := by
  simp only [isPunctuation, isBlank, Bool.or_eq_true, Bool.and_eq_true, decide_eq_true_eq,
    Bool.or_eq_false_iff, Bool.and_eq_false_iff, decide_eq_false_iff_not, beq_eq_false_iff_ne] at h ⊢
  omega

theorem allBlank_backslashed (s : List Char) : allBlank (backslashed s) = allBlank s := by
  have hbackslash : isBlank '\\' = false := by decide
  have hcons : ∀ c s, allBlank (c :: s) = (isBlank c && allBlank s) := fun _ _ => List.all_cons
  induction s using backslashed_induction with
  | nil => rfl
  | punctuation c s hc ih =>
    rw [backslashed_cons_punctuation hc, hcons, hbackslash, hcons c s, isBlank_of_isPunctuation hc]
    rfl
  | plain c s hc ih => rw [backslashed_cons_plain hc, hcons, hcons, ih]

theorem getLast?_backslashed (s : List Char) : (backslashed s).getLast? = s.getLast? := by
  rcases s.eq_nil_or_concat with rfl | ⟨s, c, rfl⟩
  · rfl
  · rw [List.concat_eq_append, backslashed_append, List.getLast?_concat]
    cases hc : isPunctuation c with
    | true => simp [backslashed, hc]
    | false => simp [backslashed, hc]

/-- A carriage return at the end stays the last character. -/
theorem lineContent_backslashed (s : List Char) : lineContent (backslashed s) = backslashed (lineContent s) := by
  unfold lineContent
  rw [getLast?_backslashed]
  split
  · next hlast =>
    obtain ⟨s, rfl⟩ := List.getLast?_eq_some_iff.1 hlast
    have hcr : backslashed ['\r'] = ['\r'] := rfl
    rw [backslashed_append, hcr, List.dropLast_concat, List.dropLast_concat]
  · rfl

/-! ### Tokens -/

theorem tokensByPosition_escape (h : isPunctuation c = true) (s : List Char) :
    tokensByPosition documentRules 0 ('\\' :: c :: s) = .text [c] :: tokensByPosition documentRules 0 s := by
  have htag : scanTag ('\\' :: c :: s) = none := rfl
  have hescape : scanEscape ('\\' :: c :: s) = some ⟨.text [c], ['\\', c], s⟩ := by simp [scanEscape, h]
  rw [tokensByPosition, rulesBeforeText_documentRules]
  simp only [List.findSome?_cons, Rule.scan, htag, hescape]
  rfl

theorem tokensByPosition_backslashed (h : newlines s = 0) :
    tokensByPosition documentRules 0 (backslashed s) = s.map fun c => .text [c] := by
  induction s using backslashed_induction with
  | nil => rfl
  | punctuation c s hc ih =>
    have hs := Nat.eq_zero_of_add_eq_zero_right ((newlines_cons c s).symm.trans h)
    rw [backslashed_cons_punctuation hc, tokensByPosition_escape hc, ih hs]
    rfl
  | plain c s hc ih =>
    have hs := Nat.eq_zero_of_add_eq_zero_right ((newlines_cons c s).symm.trans h)
    have hbreak : afterSpacedNewline? (c :: backslashed s) = none := by
      rw [← backslashed_cons_plain hc, afterSpacedNewline?_eq_none (by rw [newlines_backslashed, h])]
    rw [backslashed_cons_plain hc, tokensByPosition_plain (isMarkupChar_of_isPunctuation hc), hbreak]
    exact congrArg (_ :: ·) (ih hs)

/-- The characters that were escaped one by one become one text. -/
theorem tokenize_backslashed (h : newlines s = 0) (hne : s ≠ []) :
    tokenize documentRules (backslashed s) = [.text s] := by
  obtain ⟨c, s, rfl⟩ := List.exists_cons_of_ne_nil hne
  have hjoin := joinText_singletons c s []
  rw [List.append_nil] at hjoin
  rw [tokenize, joinText_pieces isLiteral_of_mem_documentRules, tokensByPosition_backslashed h, List.map_cons, hjoin]
  rfl

end TaggedProse
