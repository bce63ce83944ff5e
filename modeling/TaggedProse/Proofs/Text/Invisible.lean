import TaggedProse.Proofs.Text.Dereferencing

/-! Text of which nothing is left but white space once its references are replaced. -/
namespace TaggedProse
variable {c : Char} {s t v name rest : List Char}

/-- Every reference denotes a character, and with these characters in place of the references the text is white
space. -/
def Invisible (s : List Char) : Prop := (∀ name, Refers s name → Denotes name) ∧ allBlank (dereferenced s) = true

theorem invisible_nil : Invisible [] := by
  refine ⟨fun name h => absurd h (not_refers_of_not_mem (by simp) name), ?_⟩
  rw [dereferenced]
  rfl

theorem invisible_reference (h : isReferenceName name = true) :
    Invisible ('&' :: (name ++ ';' :: rest)) ↔ (Denotes name ∧ isBlank (denoted name) = true) ∧ Invisible rest := by
  simp only [Invisible, refers_reference h, forall_eq_or_imp, dereferenced_reference h, allBlank, List.all_cons,
    Bool.and_eq_true]
  tauto

theorem invisible_literal (h : ¬(c = '&' ∧ completesReference s = true)) :
    Invisible (c :: s) ↔ isBlank c = true ∧ Invisible s := by
  simp only [Invisible, refers_literal h, dereferenced_literal h, allBlank, List.all_cons, Bool.and_eq_true]
  tauto

theorem invisible_cons_blank (hc : isBlank c = true) : Invisible (c :: s) ↔ Invisible s := by
  rw [invisible_literal, and_iff_right hc]
  rintro ⟨rfl, -⟩
  cases hc

/-- No reference goes on through a blank. -/
theorem completesReference_append_blank (hc : isBlank c = true)
    (h : completesReference (s ++ c :: t) = true) : completesReference s = true := by
  obtain ⟨name, rest, heq, hname⟩ := exists_of_completesReference h
  have hchars := isReferenceChar_of_isReferenceName hname
  rcases List.append_eq_append_iff.1 heq with ⟨front, rfl, hrest⟩ | ⟨back, rfl, hback⟩
  · cases front with
    | nil =>
      obtain ⟨rfl, -⟩ := List.cons.inj hrest
      cases hc
    | cons d front =>
      obtain ⟨rfl, -⟩ := List.cons.inj hrest
      have hplain := forall_isBlank (fun c => isReferenceChar c = false) (by decide) hc
      rw [hchars c (by simp)] at hplain
      cases hplain
  · cases back with
    | nil =>
      obtain ⟨rfl, -⟩ := List.cons.inj hback
      cases hc
    | cons d back =>
      obtain ⟨rfl, -⟩ := List.cons.inj hback
      exact completesReference_append hname back

theorem invisible_append_blank (hc : isBlank c = true) : Invisible (s ++ c :: t) ↔ Invisible s ∧ Invisible t := by
  induction s using reference_induction with
  | nil => rw [List.nil_append, invisible_cons_blank hc, and_iff_right invisible_nil]
  | reference name rest hname ih =>
    rw [List.cons_append, List.append_assoc, List.cons_append, invisible_reference hname, invisible_reference hname, ih,
      and_assoc (b := Invisible rest)]
  | literal d s hd ih =>
    rw [List.cons_append, invisible_literal fun h => hd ⟨h.1, completesReference_append_blank hc h.2⟩,
      invisible_literal hd, ih, and_assoc]

theorem invisible_blanks (hv : allBlank v = true) : Invisible (v ++ t) ↔ Invisible t := by
  induction v with
  | nil => rfl
  | cons c v ih =>
    obtain ⟨hc, hv⟩ := Bool.and_eq_true_iff.1 hv
    rw [List.cons_append, invisible_cons_blank hc, ih hv]

/-- How many blanks there are between two texts makes no difference, if one of the texts is empty or the second begins
with a blank. -/
theorem invisible_spaced (hv : allBlank v = true) (h : s = [] ∨ t = [] ∨ ∃ c ∈ t.head?, isBlank c = true) :
    Invisible (s ++ (v ++ t)) ↔ Invisible s ∧ Invisible t := by
  rcases h with rfl | h
  · rw [List.nil_append, invisible_blanks hv, and_iff_right invisible_nil]
  · cases hvt : v ++ t with
    | nil =>
      obtain ⟨-, rfl⟩ := List.append_eq_nil_iff.1 hvt
      rw [List.append_nil, and_iff_left invisible_nil]
    | cons c rest =>
      have hc : isBlank c = true := by
        cases v with
        | nil =>
          rw [List.nil_append] at hvt
          subst hvt
          obtain ⟨d, hd, hblank⟩ := h.resolve_left (by simp)
          cases hd
          exact hblank
        | cons d v =>
          obtain ⟨rfl, -⟩ := List.cons.inj hvt
          exact (Bool.and_eq_true_iff.1 hv).1
      have hrest := invisible_cons_blank (s := rest) hc
      rw [invisible_append_blank hc, ← hrest, ← hvt, invisible_blanks hv]

theorem backslash_not_mem_of_invisible (h : Invisible s) : '\\' ∉ s := by
  induction s using reference_induction with
  | nil => simp
  | reference name rest hname ih =>
    have hnot : '\\' ∉ name := fun hmem => absurd (isReferenceChar_of_isReferenceName hname _ hmem) (by decide)
    have hrest := ih ((invisible_reference hname).1 h).2
    simp [hnot, hrest]
  | literal c s hc ih =>
    obtain ⟨hblank, hs⟩ := (invisible_literal hc).1 h
    rw [List.mem_cons, not_or]
    refine ⟨?_, ih hs⟩
    rintro rfl
    cases hblank

end TaggedProse
