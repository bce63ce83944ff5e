import TaggedProse.Proofs.Inline.Positions

/-! Blanks in front of the rest of a text. They are prose, but for those at the end of a line that are part of a hard
break. -/
namespace TaggedProse
variable {b c p p' v w t : List Char} {ts : List Token}

theorem plain_of_allBlank (h : allBlank v = true) : Plain v := by
  intro c hc
  exact forall_isBlank (fun c => isMarkupChar c = false) (by decide) (List.all_eq_true.1 h c hc)

theorem tokensByPosition_blanks (hv : allBlank v = true) (hnone : newlines v = 0)
    (h : ∀ k, allBlank k = true → newlines k = 0 → afterSpacedNewline? (k ++ b) = none) :
    tokensByPosition documentRules 0 (v ++ b) =
      v.map (fun d => .text [d]) ++ tokensByPosition documentRules 0 b := by
  induction v with
  | nil => rfl
  | cons d v ih =>
    have hplain := plain_of_allBlank hv d List.mem_cons_self
    have hbreak := h (d :: v) hv hnone
    rw [List.cons_append] at hbreak ⊢
    rw [tokensByPosition_plain hplain, hbreak]
    have hnone' := Nat.eq_zero_of_add_eq_zero_right ((newlines_cons d v).symm.trans hnone)
    exact congrArg (_ :: ·) (ih (Bool.and_eq_true_iff.1 hv).2 hnone')

/-- If the rest of a line is blank, the tokens go on with its end. -/
theorem exists_tokens_blanks (b : List Char) (breaks : Bool) :
    ∃ T, (T = tokensByPosition documentRules 0 b ∧ (allBlank (firstLine b) = false ∨ newlines b = 0) ∨
        T.head? = some .lineBreak ∨ T.head? = some (.text ['\n'])) ∧
      ∀ p, allBlank p = true → newlines p = 0 → breaksAfter (p ++ firstLine b) = breaks →
        ∃ v, allBlank v = true ∧ newlines v = 0 ∧
          tokensByPosition documentRules 0 (p ++ b) = v.map (fun d => .text [d]) ++ T := by
  have hfirst := newlines_firstLine b
  rcases firstLine_cases b with hb | ⟨t, hb⟩
  · have hnone : newlines b = 0 := by rw [hb, hfirst]
    refine ⟨_, .inl ⟨rfl, .inr hnone⟩, fun p hp hnp _ => ⟨p, hp, hnp, tokensByPosition_blanks hp hnp ?_⟩⟩
    intro k _ hk
    exact afterSpacedNewline?_eq_none (by rw [newlines_append, hk, hnone])
  · -- white space up to the end of the line can be part of a hard break
    by_cases hblank : allBlank (firstLine b) = true
    · have hline : ∀ p, allBlank p = true → newlines p = 0 →
          allBlank (p ++ firstLine b) = true ∧ newlines (p ++ firstLine b) = 0 := by
        intro p hp hnp
        rw [allBlank, List.all_append, newlines_append, hnp, hfirst]
        exact ⟨Bool.and_eq_true_iff.2 ⟨hp, hblank⟩, rfl⟩
      cases breaks with
      | false =>
        refine ⟨.text ['\n'] :: tokensByPosition documentRules 0 t, .inr (.inr rfl), fun p hp hnp hbreak => ?_⟩
        obtain ⟨hall, hnone⟩ := hline p hp hnp
        refine ⟨p ++ firstLine b, hall, hnone, ?_⟩
        rw [← tokensByPosition_line hnone (plain_of_allBlank hall) hbreak, List.append_assoc, ← hb]
      | true =>
        refine ⟨.lineBreak :: tokensByPosition documentRules 0 t, .inr (.inl rfl), fun p hp hnp hbreak => ?_⟩
        obtain ⟨hall, hnone⟩ := hline p hp hnp
        obtain ⟨stem, blanks, hw, -, htokens⟩ :=
          exists_tokensByPosition_break hnone (plain_of_allBlank hall) hbreak t
        rw [hw, allBlank, List.all_append, Bool.and_eq_true] at hall
        rw [hw, newlines_append] at hnone
        refine ⟨stem, hall.1, by omega, ?_⟩
        rw [← htokens, List.append_assoc, ← hb]
    · refine ⟨_, .inl ⟨rfl, .inl (Bool.eq_false_iff.2 hblank)⟩,
        fun p hp hnp _ => ⟨p, hp, hnp, tokensByPosition_blanks hp hnp ?_⟩⟩
      intro k _ hk
      cases hbreak : afterSpacedNewline? (k ++ b) with
      | none => rfl
      | some rest =>
        rw [hb, ← List.append_assoc] at hbreak
        obtain ⟨-, hall, -⟩ := of_afterSpacedNewline? (by rw [newlines_append, hk, hfirst]) hbreak
        rw [allBlank, List.all_append, Bool.and_eq_true] at hall
        exact absurd hall.2 hblank

/-! ### Lines -/

/-- Only the white space at the end of a line decides on a hard break. -/
theorem breaksAfter_append (hc : ∀ d, c.getLast? = some d → isBlank d = false) (hnone : newlines (c ++ w) = 0) :
    breaksAfter (c ++ w) = breaksAfter w := by
  induction c with
  | nil => rfl
  | cons d c ih =>
    have hspaced : afterSpacedNewline? (d :: ((c ++ w) ++ '\n' :: [])) = none := by
      cases hbreak : afterSpacedNewline? (d :: ((c ++ w) ++ '\n' :: [])) with
      | none => rfl
      | some rest =>
        obtain ⟨-, hall, -⟩ := of_afterSpacedNewline? hnone hbreak
        have hlast := List.getLast?_eq_some_getLast (List.cons_ne_nil d c)
        have hblank := List.all_eq_true.1 hall _
          (List.mem_append_left w (List.getLast_mem (List.cons_ne_nil d c)))
        rw [hc _ hlast] at hblank
        cases hblank
    rw [List.cons_append, breaksAfter_cons hspaced]
    refine ih (fun e he => hc e ?_) (Nat.eq_zero_of_add_eq_zero_right ((newlines_cons d _).symm.trans hnone))
    rw [List.getLast?_cons, he]
    rfl

theorem breaksAfter_lastLine (hfirm : EndsFirmly c) (hw : newlines w = 0) :
    breaksAfter (lastLine c ++ w) = breaksAfter w := by
  refine breaksAfter_append (fun d hd => ?_) (by rw [newlines_append, newlines_lastLine, hw])
  rw [Bool.eq_false_iff]
  intro hblank
  obtain rfl := hfirm.of_suffix (lastLine_suffix c) d hd hblank
  exact absurd (newlines_lastLine c) (Nat.ne_of_gt (List.count_pos_iff.2 (List.mem_of_getLast? hd)))

/-- The tokens of a text in which there are more or fewer blanks, if the line is as it was with regard to a hard
break and no image takes in the place. -/
theorem exists_tokens_spaced (h : Lexes (c ++ (p ++ b)) ts (p ++ b)) (hb : c ≠ [] → TagSpan.Borders c b)
    (hfirm : EndsFirmly c) (hbackslash : ts.getLast? ≠ some (.text ['\\'])) (hp : allBlank p = true)
    (hp' : allBlank p' = true) (hnp : newlines p = 0) (hnp' : newlines p' = 0)
    (hbreak : breaksAfter (lastLine c ++ (p ++ firstLine b)) = breaksAfter (lastLine c ++ (p' ++ firstLine b)))
    (himage : ¬InImage c p' b) :
    ∃ v v' T, allBlank v = true ∧ allBlank v' = true ∧ newlines v = 0 ∧ newlines v' = 0 ∧
      tokensByPosition documentRules 0 (c ++ (p ++ b)) = ts ++ (v.map (fun d => .text [d]) ++ T) ∧
      tokensByPosition documentRules 0 (c ++ (p' ++ b)) = ts ++ (v'.map (fun d => .text [d]) ++ T) ∧
      (T = tokensByPosition documentRules 0 b ∧ (allBlank (firstLine b) = false ∨ newlines b = 0) ∨
        T.head? = some .lineBreak ∨ T.head? = some (.text ['\n'])) := by
  obtain ⟨T, hT, htokens⟩ := exists_tokens_blanks b (breaksAfter (p ++ firstLine b))
  have hline : ∀ q, newlines q = 0 → breaksAfter (lastLine c ++ (q ++ firstLine b)) = breaksAfter (q ++ firstLine b) :=
    fun q hq => breaksAfter_lastLine hfirm (by rw [newlines_append, hq, newlines_firstLine])
  rw [hline p hnp, hline p' hnp'] at hbreak
  obtain ⟨v, hv, hnv, hold⟩ := htokens p hp hnp rfl
  obtain ⟨v', hv', hnv', hnew⟩ := htokens p' hp' hnp' hbreak.symm
  refine ⟨v, v', T, hv, hv', hnv, hnv', ?_, ?_, hT⟩
  · rw [h.tokensByPosition_eq, hold]
  · rw [(h.spaced hb hfirm hbackslash hp hp' himage).tokensByPosition_eq, hnew]

end TaggedProse
