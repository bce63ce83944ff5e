import TaggedProse.Proofs.Inline.Positions
import TaggedProse.Proofs.Text.LineEnds

/-! Line ends of two characters, to the lexer. Where no tag goes on over a line end, the same tokens are recognised with
carriage returns in front of the newlines as without; only the newlines that are prose have the carriage returns too. -/
namespace TaggedProse
variable {s t e : List Char} {c : Char} {m : Match}

namespace TagSpan
variable {q : State} {closing : Bool} {opener : List Char}

/-! ### Tags -/

/-- A newline takes the machine where a carriage return and a newline take it. -/
theorem State.step_newline (q : State) : q.step '\n' = (q.step '\r').bind (State.step '\n') := by
  cases q <;> decide +kernel

theorem finish_cons_eq_none_iff (hc : ¬(c = '>' ∧ q.ends = true)) :
    finish q (c :: s) = none ↔ ∀ q', q.step c = some q' → finish q' s = none := by
  rw [finish, if_neg hc]
  cases q.step c with
  | none => simp
  | some q' => cases hfinish : finish q' s <;> simp [hfinish]

theorem finish_returned (h : Returned s t) (hs : finish q s = none) : finish q t = none := by
  induction h generalizing q with
  | nil => rfl
  | @cons c s t _ ih =>
    by_cases hc : c = '>' ∧ q.ends = true
    · rw [finish, if_pos hc] at hs
      cases hs
    · rw [finish_cons_eq_none_iff hc] at hs ⊢
      exact fun q' hstep => ih (hs q' hstep)
  | @newline s t _ ih =>
    rw [finish_cons_eq_none_iff (by simp)] at hs ⊢
    intro q₁ hreturn
    rw [finish_cons_eq_none_iff (by simp)]
    intro q₂ hnewline
    refine ih (hs q₂ ?_)
    rw [State.step_newline, hreturn]
    exact hnewline

theorem named_returned (h : Returned s t) (hs : named closing opener s = none) : named closing opener t = none := by
  cases h with
  | nil => rfl
  | newline rest => rw [named, if_neg (by decide)]
  | @cons c s t rest =>
    rw [named] at hs ⊢
    by_cases hc : isNameStart c = true
    · rw [if_pos hc] at hs ⊢
      have hfinish : finish .name s = none := by
        cases hfinish : finish .name s with
        | none => rfl
        | some found => rw [hfinish] at hs; cases hs
      rw [finish_returned rest hfinish]
    · rw [if_neg hc]

/-- With the carriage returns no tag is recognised where none is without. -/
theorem scan?_returned (h : Returned s t) (hs : scan? s = none) : scan? t = none := by
  cases ht : scan? t with
  | none => rfl
  | some found =>
    exfalso
    unfold scan? at ht
    split at ht
    · cases h with
      | cons _ rest =>
        cases rest with
        | cons _ rest =>
          rw [named_returned rest hs] at ht
          cases ht
    · next t hslash =>
      cases h with
      | @cons _ s _ rest =>
        have hnone : named false ['<'] s = none := by
          cases rest with
          | nil => rfl
          | newline rest => rw [named, if_neg (by decide)]
          | @cons c s t rest =>
            rwa [scan?_cons_of_ne_slash] at hs
            rintro rfl
            exact hslash t rfl
        rw [named_returned rest hnone] at ht
        cases ht
    · cases ht

end TagSpan

/-! ### Hard breaks -/

theorem LineEnd.of_returned (h : Returned e t) (he : LineEnd t) : LineEnd e := by
  cases he with
  | newline =>
    cases h with
    | cons _ rest => cases rest; exact .newline
  | carriageReturn =>
    cases h with
    | newline rest => cases rest; exact .newline
    | cons _ rest =>
      cases rest with
      | cons _ rest => cases rest; exact .carriageReturn

theorem LineEnd.returned (h : Returned e t) (hcr : '\r' ∉ e) (he : LineEnd e) : LineEnd t := by
  cases he with
  | carriageReturn => exact absurd List.mem_cons_self hcr
  | newline =>
    cases h with
    | cons _ rest => cases rest; exact .newline
    | newline rest => cases rest; exact .carriageReturn

/-- In front of its line end a hard break shows what it is. -/
theorem IsHardBreak.exists_front (h : IsHardBreak s) : ∃ front e, s = front ++ e ∧ LineEnd e ∧
    (∀ c ∈ front, c = '\\' ∨ c = ' ') ∧ ∀ e', LineEnd e' → IsHardBreak (front ++ e') := by
  cases h with
  | @backslash e he => exact ⟨['\\'], e, rfl, he, by simp, fun _ he' => .backslash he'⟩
  | @spaces n e he =>
    refine ⟨' ' :: ' ' :: List.replicate n ' ', e, rfl, he, ?_, fun _ he' => .spaces n he'⟩
    intro c hc
    exact .inr (List.eq_of_mem_replicate (show c ∈ List.replicate (n + 2) ' ' from hc))

theorem IsHardBreak.of_returned (h : Returned s t) (ht : IsHardBreak t) : IsHardBreak s := by
  obtain ⟨front, e, rfl, he, hfront, hbreak⟩ := ht.exists_front
  have hcr : front.getLast? ≠ some '\r' := by
    intro hlast
    cases hfront _ (List.mem_of_getLast? hlast) <;> contradiction
  obtain ⟨front', e', rfl, hfront', he'⟩ := h.exists_append_right hcr
  obtain rfl := hfront'.eq_of_not_mem fun hmem => by
    cases hfront _ (hfront'.mem_iff.2 hmem) <;> contradiction
  exact hbreak _ (he.of_returned he')

theorem IsHardBreak.returned (h : Returned s t) (hcr : '\r' ∉ s) (hs : IsHardBreak s) : IsHardBreak t := by
  obtain ⟨front, e, rfl, he, hfront, hbreak⟩ := hs.exists_front
  obtain ⟨front', e', rfl, hfront', he'⟩ := h.exists_append_left
  obtain rfl := hfront'.eq_of_not_mem fun hmem => by
    cases hfront _ hmem <;> contradiction
  exact hbreak _ (he.returned he' fun hmem => hcr (List.mem_append_right _ hmem))

/-! ### Markers -/

theorem marker?_of_scanLineBreak (h : scanLineBreak s = some m) : marker? s = some m := by
  obtain ⟨-, hbreak, rfl⟩ := scanLineBreak_eq_some.1 h
  generalize m.source = source at h hbreak
  cases hbreak with
  | @backslash e he =>
    rw [List.cons_append] at h ⊢
    have hescape : scanEscape ('\\' :: (e ++ m.rest)) = none := by cases he <;> rfl
    rw [marker?_backslash, hescape, h, Option.none_or]
  | spaces n he =>
    rw [List.cons_append] at h ⊢
    rw [marker?_of_ne (by decide) (by decide) (by decide), h]

/-- Only tags and hard breaks go on over a line end. -/
theorem scanTag_or_isHardBreak (h : marker? s = some m) (hmem : '\n' ∈ m.source) :
    scanTag s = some m ∨ m.token = .lineBreak ∧ IsHardBreak m.source := by
  have hpos : newlines m.source ≠ 0 := fun hzero => List.count_eq_zero.1 hzero hmem
  rw [marker?_eq, Option.or_eq_some_iff, Option.or_eq_some_iff, Option.or_eq_some_iff] at h
  rcases h with h | ⟨-, h | ⟨-, h | ⟨-, h⟩⟩⟩
  · exact .inl h
  · refine absurd ?_ hpos
    unfold scanEscape at h
    split at h
    · split at h
      · next c _ hc =>
        cases h
        have hne : c ≠ '\n' := by
          rintro rfl
          revert hc
          decide
        rw [newlines_cons_of_ne (by decide), newlines_cons_of_ne hne, newlines_nil]
      · cases h
    · cases h
  · have hkeeps := keeps_of_scanImage h
    obtain ⟨himage, -⟩ := exists_of_scanImage h
    cases htoken : m.token with
    | image url alt title =>
      rw [htoken] at hkeeps
      exact absurd hkeeps.2.1 hpos
    | _ => rw [htoken] at himage; cases himage
  · obtain ⟨htoken, hbreak, -⟩ := scanLineBreak_eq_some.1 h
    exact .inr ⟨htoken, hbreak⟩

/-- A marker is recognised with the carriage returns too, if it is no tag that goes on over a line end. -/
theorem exists_marker?_returned (h : Returned s t) (hcr : '\r' ∉ s) (hm : marker? s = some m)
    (htag : ∀ source, m.token = .markup source → '\n' ∉ source) :
    ∃ source rest, marker? t = some ⟨m.token, source, rest⟩ ∧ Returned m.rest rest := by
  obtain ⟨rfl, -, -⟩ := append_of_marker? hm
  obtain ⟨source, rest, rfl, hsource, hrest⟩ := h.exists_append_left
  refine ⟨source, rest, ?_, hrest⟩
  by_cases hmem : '\n' ∈ m.source
  · rcases scanTag_or_isHardBreak hm hmem with htaken | ⟨htoken, hbreak⟩
    · obtain ⟨found, -, hfound⟩ := Option.map_eq_some_iff.1 htaken
      rw [← hfound] at hmem htag
      exact absurd hmem (htag found.source rfl)
    · have hagain := hbreak.returned hsource fun hin => hcr (List.mem_append_left _ hin)
      exact marker?_of_scanLineBreak (scanLineBreak_eq_some.2 ⟨htoken, hagain, rfl⟩)
  · obtain rfl := hsource.eq_of_not_mem hmem
    exact marker?_append hm rest

/-- With the carriage returns there is no marker where there is none without. -/
theorem marker?_returned (h : Returned s t) (hs : marker? s = none) : marker? t = none := by
  cases hm : marker? t with
  | none => rfl
  | some m =>
    exfalso
    obtain ⟨hcover, -, -⟩ := append_of_marker? hm
    -- no marker ends between a carriage return and its newline
    have hlast : m.source.getLast? ≠ some '\r' := fun hlast => by
      cases getLast?_of_marker? hm hlast (by decide)
    obtain ⟨source, rest, rfl, hsource, -⟩ := Returned.exists_append_right (hcover ▸ h) hlast
    by_cases hmem : '\n' ∈ m.source
    · rcases scanTag_or_isHardBreak hm hmem with htaken | ⟨-, hbreak⟩
      · rw [marker?_eq, Option.or_eq_none_iff] at hs
        rw [scanTag, TagSpan.scan?_returned h (Option.map_eq_none_iff.1 hs.1)] at htaken
        cases htaken
      · have hagain := marker?_of_scanLineBreak (m := ⟨.lineBreak, source, rest⟩)
          (scanLineBreak_eq_some.2 ⟨rfl, hbreak.of_returned hsource, rfl⟩)
        rw [hs] at hagain
        cases hagain
    · obtain rfl := hsource.eq_of_not_mem fun hin => hmem (hsource.mem_iff.2 hin)
      have hagain := marker?_append hm rest
      rw [hs] at hagain
      cases hagain

/-! ### Tokens -/

inductive TokensReturned : List Token → List Token → Prop
  | nil : TokensReturned [] []
  | cons (token : Token) {ts us : List Token} (rest : TokensReturned ts us) : TokensReturned (token :: ts) (token :: us)
  | newline {ts us : List Token} (rest : TokensReturned ts us) :
      TokensReturned (.text ['\n'] :: ts) (.text ['\r'] :: .text ['\n'] :: us)

/-- The token is no tag that goes on over a line end. -/
def Token.staysOnLine : Token → Bool
  | .markup source => newlines source == 0
  | _ => true

/-- The tags are the same to the lexer that goes from position to position. -/
theorem mem_tokenize_of_tokensByPosition {source : List Char}
    (h : .markup source ∈ tokensByPosition documentRules 0 s) : .markup source ∈ tokenize documentRules s := by
  have hlexes : Lexes s ((pieces documentRules s).flatMap fun m => m.token.singles) [] :=
    lexes_of_pieces (List.append_nil _).symm
  rw [hlexes.tokensByPosition_eq, tokensByPosition, List.append_nil, List.mem_flatMap] at h
  obtain ⟨m, hm, hsource⟩ := h
  have htoken : m.token = .markup source := by
    cases hcase : m.token with
    | text u => simp [hcase, Token.singles] at hsource
    | _ => rw [hcase] at hsource; exact (List.mem_singleton.1 hsource).symm
  obtain ⟨front, back, hpieces⟩ := List.mem_iff_append.1 hm
  rw [tokenize, hpieces, List.map_append, List.map_cons, htoken, joinText_append_cons (by simp)]
  exact List.mem_append_right _ List.mem_cons_self

theorem tokensReturned (h : Returned s t) (hcr : '\r' ∉ s)
    (htags : ∀ source, .markup source ∈ tokensByPosition documentRules 0 s → '\n' ∉ source) :
    TokensReturned (tokensByPosition documentRules 0 s) (tokensByPosition documentRules 0 t) := by
  induction hlength : s.length using Nat.strong_induction_on generalizing s t with
  | _ n ih =>
    subst hlength
    cases hm : marker? s with
    | some m =>
      simp only [tokensByPosition_of_marker? hm] at htags
      obtain ⟨source, rest, hm', hrest⟩ :=
        exists_marker?_returned h hcr hm fun tag htoken => htags tag (htoken ▸ List.mem_cons_self)
      rw [tokensByPosition_of_marker? hm, tokensByPosition_of_marker? hm']
      obtain ⟨rfl, hne, -⟩ := append_of_marker? hm
      have hshorter : m.rest.length < (m.source ++ m.rest).length := by
        have := List.length_pos_iff.2 hne
        rw [List.length_append]
        omega
      refine .cons _ (ih _ hshorter hrest (fun hin => hcr (List.mem_append_right _ hin)) ?_ rfl)
      exact fun tag htag => htags tag (List.mem_cons_of_mem _ htag)
    | none =>
      have hm' := marker?_returned h hm
      cases h with
      | nil => exact .nil
      | @cons c s t rest =>
        simp only [tokensByPosition_of_none hm] at htags
        rw [tokensByPosition_of_none hm, tokensByPosition_of_none hm']
        refine .cons _ (ih _ (Nat.lt_succ_self _) rest (fun hin => hcr (List.mem_cons_of_mem _ hin)) ?_ rfl)
        exact fun tag htag => htags tag (List.mem_cons_of_mem _ htag)
      | @newline s t rest =>
        -- the newline is prose, and so are the carriage return and the newline in its place
        have hnewline : marker? ('\n' :: t) = none := by
          rw [marker?_of_ne (by decide) (by decide) (by decide)]
          rfl
        simp only [tokensByPosition_of_none hm] at htags
        rw [tokensByPosition_of_none hm, tokensByPosition_of_none hm', tokensByPosition_of_none hnewline]
        refine .newline (ih _ (Nat.lt_succ_self _) rest (fun hin => hcr (List.mem_cons_of_mem _ hin)) ?_ rfl)
        exact fun tag htag => htags tag (List.mem_cons_of_mem _ htag)

theorem newline_notMem_of_staysOnLine (h : ∀ token ∈ tokenize documentRules s, token.staysOnLine = true) :
    ∀ source, .markup source ∈ tokensByPosition documentRules 0 s → '\n' ∉ source := by
  intro source hsource
  have hstays := h _ (mem_tokenize_of_tokensByPosition hsource)
  exact List.count_eq_zero.1 (beq_iff_eq.1 hstays)

end TaggedProse
