import TaggedProse.Proofs.Inline.Prose
import TaggedProse.Proofs.Text.Words

/-! Prose without markup characters. The lexer finds hard breaks in it and nothing else: one after every
line, except the last, that ends in two spaces. -/
namespace TaggedProse
variable {c : Char} {s t w rest : List Char} {ls : List (List Char)} {p : Passage}

def isMarkupChar (c : Char) : Bool := c == '<' || c == '!' || c == '\\' || c == '&'

def Plain (s : List Char) : Prop := ∀ c ∈ s, isMarkupChar c = false

/-- The line ends in two or more spaces; the carriage return of its line end does not count. -/
def breaksAfter (l : List Char) : Bool := [' ', ' '].isSuffixOf (lineContent l)

def inFront (s : List Char) : List (List Char) → List (List Char)
  | [] => [s]
  | piece :: pieces => (s ++ piece) :: pieces

/-- The pieces that are left when some lines are cut at their hard breaks. -/
def hardPieces : List (List Char) → List (List Char)
  | [] => [[]]
  | [l] => [l]
  | l :: l' :: ls =>
    if breaksAfter l then l :: hardPieces (l' :: ls) else inFront (l ++ ['\n']) (hardPieces (l' :: ls))

/-- What a token of prose adds to a passage. The newline of a hard break is written after the break. -/
def Token.addTo (p : Passage) : Token → Passage
  | .text s => p.write s
  | .lineBreak => p.lineBreak.write ['\n']
  | _ => p

/-! ### The ends of lines -/

theorem isBlank_of_eq_space (h : (c == ' ') = true) : isBlank c = true := by
  rw [beq_iff_eq] at h
  subst h
  rfl

theorem breaksAfter_iff : breaksAfter s = true ↔ [' ', ' '] <:+ lineContent s := List.isSuffixOf_iff_suffix

theorem lineContent_append_cr (s : List Char) : lineContent (s ++ ['\r']) = s := by
  rw [lineContent, if_pos List.getLast?_concat, List.dropLast_concat]

theorem lineContent_cons (hs : s ≠ []) (c : Char) : lineContent (c :: s) = c :: lineContent s := by
  obtain ⟨d, s, rfl⟩ := List.exists_cons_of_ne_nil hs
  unfold lineContent
  rw [List.getLast?_cons_cons]
  split
  · rfl
  · rfl

theorem lineContent_append_newline (s t : List Char) :
    lineContent (s ++ '\n' :: t) = s ++ '\n' :: lineContent t := by
  induction s with
  | nil =>
    cases t with
    | nil => rfl
    | cons d t => exact lineContent_cons (by simp) '\n'
  | cons c s ih => rw [List.cons_append, lineContent_cons (by simp), ih]; rfl

theorem suffix_replicate (n : Nat) : [' ', ' '] <:+ ' ' :: ' ' :: List.replicate n ' ' := by
  refine ⟨List.replicate n ' ', ?_⟩
  rw [← List.replicate_succ, ← List.replicate_succ, List.replicate_succ', List.replicate_succ',
    List.append_assoc]
  rfl

theorem of_afterNewline? (hw : newlines w = 0) (h : afterNewline? (w ++ '\n' :: t) = some rest) :
    rest = t ∧ (w = [] ∨ w = ['\r']) := by
  rw [newlines, List.count_eq_zero] at hw
  unfold afterNewline? at h
  split at h
  · next s heq =>
    cases h
    cases w with
    | nil => exact ⟨(List.cons.inj heq).2.symm, .inl rfl⟩
    | cons c w =>
      obtain ⟨rfl, -⟩ := List.cons.inj heq
      exact absurd List.mem_cons_self hw
  · next s heq =>
    cases h
    cases w with
    | nil => cases heq
    | cons c w =>
      obtain ⟨rfl, hcons⟩ := List.cons.inj heq
      cases w with
      | nil => exact ⟨(List.cons.inj hcons).2.symm, .inr rfl⟩
      | cons d w =>
        obtain ⟨rfl, -⟩ := List.cons.inj hcons
        exact absurd (by simp) hw
  · cases h

/-- Where a hard break begins, the rest of the line is white space. -/
theorem of_afterSpacedNewline? (hw : newlines w = 0) (h : afterSpacedNewline? (w ++ '\n' :: t) = some rest) :
    rest = t ∧ allBlank w = true ∧ breaksAfter w = true := by
  unfold afterSpacedNewline? at h
  split at h
  · next s heq =>
    obtain ⟨w, rfl, rfl⟩ : ∃ w', w = ' ' :: ' ' :: w' ∧ s = w' ++ '\n' :: t := by
      match w with
      | [] => cases heq
      | [_] => cases heq
      | c :: d :: w =>
        cases heq
        exact ⟨w, rfl, rfl⟩
    have hdrop : (w ++ '\n' :: t).dropWhile (· == ' ') = w.dropWhile (· == ' ') ++ '\n' :: t := by
      rw [List.dropWhile_append]
      split
      · next hempty => rw [List.isEmpty_iff.1 hempty]; rfl
      · rfl
    have hnone : newlines (w.dropWhile (· == ' ')) = 0 := by
      have hspace : ∀ c : Char, (c == ' ') = true → c ≠ '\n' := by
        rintro _ hc rfl
        cases hc
      rw [newlines_dropWhile hspace]
      simpa [newlines_cons] using hw
    rw [hdrop] at h
    obtain ⟨rfl, hend⟩ := of_afterNewline? hnone h
    have hsplit := List.takeWhile_append_dropWhile (p := (· == ' ')) (l := w)
    have hspaces : w.takeWhile (· == ' ') = List.replicate (w.takeWhile (· == ' ')).length ' ' :=
      List.eq_replicate_of_mem fun c hc => by simpa using List.all_eq_true.1 List.all_takeWhile c hc
    have hall : allBlank (w.takeWhile (· == ' ')) = true :=
      List.all_eq_true.2 fun c hc => isBlank_of_eq_space (List.all_eq_true.1 List.all_takeWhile c hc)
    have hcontent : lineContent (' ' :: ' ' :: w) = ' ' :: ' ' :: w.takeWhile (· == ' ') := by
      rcases hend with hend | hend
      · rw [hend, List.append_nil] at hsplit
        rw [hsplit, lineContent, if_neg]
        intro hlast
        have hmem := List.mem_of_getLast? hlast
        rw [← hsplit, hspaces] at hmem
        simp at hmem
      · conv => lhs; rw [← hsplit, hend]
        exact lineContent_append_cr (' ' :: ' ' :: w.takeWhile (· == ' '))
    refine ⟨rfl, ?_, ?_⟩
    · rw [← allBlank_lineContent, hcontent]
      exact hall
    · rw [breaksAfter_iff, hcontent, hspaces]
      exact suffix_replicate _
  · cases h

/-- Where no hard break begins, the line has one later, or none. -/
theorem breaksAfter_cons (h : afterSpacedNewline? (c :: (w ++ '\n' :: t)) = none) :
    breaksAfter (c :: w) = breaksAfter w := by
  have hshort : ∀ l : List Char, l.length < 2 → breaksAfter l = false := by
    intro l hl
    rw [Bool.eq_false_iff, ne_eq, breaksAfter_iff]
    intro hsuffix
    obtain ⟨cr, -, heq⟩ := exists_lineContent_append l
    have hlength := hsuffix.length_le
    rw [← heq, List.length_append] at hl
    simp only [List.length_cons, List.length_nil] at hlength
    omega
  by_cases hw : w = []
  · rw [hw, hshort [c] (by simp), hshort [] (by simp)]
  · rw [Bool.eq_iff_iff, breaksAfter_iff, breaksAfter_iff, lineContent_cons hw, List.suffix_cons_iff,
      or_iff_right]
    intro heq
    obtain ⟨rfl, hcontent⟩ := List.cons.inj heq
    obtain ⟨cr, hcr, hline⟩ := exists_lineContent_append w
    rw [← hcontent] at hline
    rcases hcr with rfl | rfl
    · rw [← hline] at h
      cases h
    · rw [← hline] at h
      cases h

theorem afterSpacedNewline?_eq_none (h : newlines s = 0) : afterSpacedNewline? s = none := by
  cases hbreak : afterSpacedNewline? s with
  | none => rfl
  | some rest =>
    obtain ⟨front, rfl, -⟩ := exists_of_afterSpacedNewline? hbreak
    simp at h

/-! ### Tokens -/

theorem findSome?_plain (hc : isMarkupChar c = false) (s : List Char) :
    (rulesBeforeText documentRules).findSome? (·.scan (c :: s)) =
      (afterSpacedNewline? (c :: s)).map fun rest => ⟨.lineBreak, before (c :: s) rest, rest⟩ := by
  simp only [isMarkupChar, Bool.or_eq_false_iff, beq_eq_false_iff_ne] at hc
  obtain ⟨⟨⟨htag, himage⟩, hescape⟩, -⟩ := hc
  have hnotag : scanTag (c :: s) = none := by simp [scanTag, TagSpan.scan?, htag]
  have hnoescape : scanEscape (c :: s) = none := by simp [scanEscape, hescape]
  have hnoimage : scanImage (c :: s) = none := by simp [scanImage, himage]
  have hbreak : scanLineBreak (c :: s) =
      (afterSpacedNewline? (c :: s)).map fun rest => ⟨.lineBreak, before (c :: s) rest, rest⟩ := by
    simp [scanLineBreak, hescape]
  rw [rulesBeforeText_documentRules]
  simp only [List.findSome?_cons, Rule.scan, hnotag, hnoescape, hnoimage, hbreak, List.findSome?_nil]
  cases afterSpacedNewline? (c :: s) <;> rfl

theorem tokensByPosition_plain (hc : isMarkupChar c = false) (s : List Char) :
    tokensByPosition documentRules 0 (c :: s) =
      match afterSpacedNewline? (c :: s) with
      | some rest => .lineBreak :: tokensByPosition documentRules 0 rest
      | none => .text [c] :: tokensByPosition documentRules 0 s := by
  rw [tokensByPosition, findSome?_plain hc]
  cases hbreak : afterSpacedNewline? (c :: s) with
  | none => rfl
  | some rest =>
    have hcover := before_append (Rule.suffix_of_afterSpacedNewline? hbreak)
    dsimp only [Option.map_some]
    cases hbefore : before (c :: s) rest with
    | nil =>
      obtain ⟨front, hs, -⟩ := exists_of_afterSpacedNewline? hbreak
      rw [hbefore, hs] at hcover
      have hlength := congrArg List.length hcover
      simp only [List.nil_append, List.length_append, List.length_cons] at hlength
      omega
    | cons d taken =>
      rw [hbefore] at hcover
      obtain ⟨-, hs⟩ := List.cons.inj hcover
      rw [List.length_cons, Nat.add_sub_cancel, tokensByPosition_skip documentRules hs]

/-- A line without a hard break behind it is prose, and so is its newline. -/
theorem tokensByPosition_line (hw : newlines w = 0) (hp : Plain w) (hbreak : breaksAfter w = false) (t : List Char) :
    tokensByPosition documentRules 0 (w ++ '\n' :: t) =
      w.map (fun c => .text [c]) ++ .text ['\n'] :: tokensByPosition documentRules 0 t := by
  induction w with
  | nil => exact tokensByPosition_plain (by decide) t
  | cons c w ih =>
    obtain ⟨hc, hp⟩ := List.forall_mem_cons.1 hp
    have hnone : afterSpacedNewline? (c :: (w ++ '\n' :: t)) = none := by
      cases h : afterSpacedNewline? (c :: (w ++ '\n' :: t)) with
      | none => rfl
      | some rest =>
        obtain ⟨-, -, htrue⟩ := of_afterSpacedNewline? hw h
        rw [hbreak] at htrue
        cases htrue
    rw [breaksAfter_cons hnone] at hbreak
    rw [List.cons_append, tokensByPosition_plain hc, hnone]
    dsimp only
    rw [ih (Nat.eq_zero_of_add_eq_zero_right ((newlines_cons c w).symm.trans hw)) hp hbreak]
    rfl

/-- Of a line with a hard break behind it the white space at the end is part of the break. -/
theorem exists_tokensByPosition_break (hw : newlines w = 0) (hp : Plain w) (hbreak : breaksAfter w = true)
    (t : List Char) :
    ∃ stem blanks, w = stem ++ blanks ∧ allBlank blanks = true ∧
      tokensByPosition documentRules 0 (w ++ '\n' :: t) =
        stem.map (fun c => .text [c]) ++ .lineBreak :: tokensByPosition documentRules 0 t := by
  induction w with
  | nil => cases hbreak
  | cons c w ih =>
    obtain ⟨hc, hp⟩ := List.forall_mem_cons.1 hp
    rw [List.cons_append, tokensByPosition_plain hc]
    cases h : afterSpacedNewline? (c :: (w ++ '\n' :: t)) with
    | none =>
      rw [breaksAfter_cons h] at hbreak
      have hw := Nat.eq_zero_of_add_eq_zero_right ((newlines_cons c w).symm.trans hw)
      obtain ⟨stem, blanks, rfl, hblanks, htokens⟩ := ih hw hp hbreak
      exact ⟨c :: stem, blanks, rfl, hblanks, congrArg (_ :: ·) htokens⟩
    | some rest =>
      obtain ⟨rfl, hblank, -⟩ := of_afterSpacedNewline? hw h
      exact ⟨[], c :: w, rfl, hblank, rfl⟩

theorem tokensByPosition_lastLine (hw : newlines w = 0) (hp : Plain w) :
    tokensByPosition documentRules 0 w = w.map fun c => .text [c] := by
  induction w with
  | nil => rfl
  | cons c w ih =>
    obtain ⟨hc, hp⟩ := List.forall_mem_cons.1 hp
    rw [tokensByPosition_plain hc, afterSpacedNewline?_eq_none hw]
    have hw := Nat.eq_zero_of_add_eq_zero_right ((newlines_cons c w).symm.trans hw)
    exact congrArg (_ :: ·) (ih hw hp)

/-! ### The passage that the tokens make up -/

theorem foldl_addTo_chars (s : List Char) (p : Passage) :
    (s.map fun c => Token.text [c]).foldl Token.addTo p = p.write s := by
  induction s generalizing p with
  | nil => simp [Passage.write]
  | cons c s ih => rw [List.map_cons, List.foldl_cons, ih]; simp [Token.addTo, Passage.write]

theorem foldl_addTo_joinText (ts : List Token) (p : Passage) :
    (joinText ts).foldl Token.addTo p = ts.foldl Token.addTo p := by
  induction ts generalizing p with
  | nil => rfl
  | cons t ts ih =>
    cases t with
    | text s =>
      rw [List.foldl_cons, ← ih]
      rcases joinText_text s ts with ⟨s', rest, hts, hjoin⟩ | ⟨-, hjoin⟩
      · rw [hjoin, hts]
        simp [Token.addTo, Passage.write]
      · rw [hjoin, List.foldl_cons]
    | _ => exact ih _

theorem inFront_inFront (s t : List Char) (pieces : List (List Char)) :
    inFront s (inFront t pieces) = inFront (s ++ t) pieces := by
  cases pieces with
  | nil => rfl
  | cons piece pieces => simp [inFront]

theorem map_squeeze_inFront_newline (pieces : List (List Char)) (h : pieces ≠ []) :
    (inFront ['\n'] pieces).map squeeze = pieces.map squeeze := by
  obtain ⟨piece, pieces, rfl⟩ := List.exists_cons_of_ne_nil h
  rw [inFront, List.map_cons, List.map_cons]
  exact congrArg (· :: _) (squeeze_cons_blank (by decide) piece)

theorem hardPieces_ne_nil (ls : List (List Char)) : hardPieces ls ≠ [] := by
  fun_induction hardPieces ls with
  | case1 => simp
  | case2 l => simp
  | case3 l l' ls _ _ => simp
  | case4 l l' ls _ _ => cases hardPieces (l' :: ls) <;> simp [inFront]

/-- A text of plain lines becomes the pieces between their hard breaks, but for white space at the ends of the
pieces. -/
theorem map_squeeze_pieces (hne : ls ≠ []) (hls : ∀ l ∈ ls, newlines l = 0) (hp : ∀ l ∈ ls, Plain l)
    (p : Passage) :
    ((tokensByPosition documentRules 0 (lineContent (joinWith '\n' ls))).foldl Token.addTo p).pieces.map squeeze =
      p.before.map squeeze ++ (inFront p.current (hardPieces ls)).map squeeze := by
  induction ls generalizing p with
  | nil => exact absurd rfl hne
  | cons l ls ih =>
    obtain ⟨hl, hls⟩ := List.forall_mem_cons.1 hls
    obtain ⟨hpl, hp⟩ := List.forall_mem_cons.1 hp
    cases ls with
    | nil =>
      obtain ⟨cr, hcr, heq⟩ := exists_lineContent_append l
      have hblank : allBlank cr = true := by rcases hcr with rfl | rfl <;> rfl
      have hplain : Plain (lineContent l) := fun c hc => hpl c (by rw [← heq]; exact List.mem_append_left _ hc)
      have hsqueeze := squeeze_append_of_allBlank hblank (p.current ++ lineContent l)
      rw [List.append_assoc, heq] at hsqueeze
      rw [joinWith, tokensByPosition_lastLine ((newlines_lineContent l).trans hl) hplain, foldl_addTo_chars,
        Passage.pieces_write, List.map_append, hardPieces, inFront, List.map_singleton, List.map_singleton,
        hsqueeze]
    | cons l' ls =>
      have hrest := fun p => ih (by simp) hls hp p
      rw [joinWith, lineContent_append_newline]
      cases hbreak : breaksAfter l with
      | false =>
        rw [tokensByPosition_line hl hpl hbreak, List.foldl_append, foldl_addTo_chars, List.foldl_cons, hrest,
          hardPieces, hbreak, if_neg Bool.false_ne_true, inFront_inFront, ← List.append_assoc]
        rfl
      | true =>
        obtain ⟨stem, blanks, rfl, hblanks, htokens⟩ := exists_tokensByPosition_break hl hpl hbreak
          (lineContent (joinWith '\n' (l' :: ls)))
        have hsqueeze := squeeze_append_of_allBlank hblanks (p.current ++ stem)
        have hnewline := map_squeeze_inFront_newline _ (hardPieces_ne_nil (l' :: ls))
        rw [List.append_assoc] at hsqueeze
        rw [htokens, List.foldl_append, foldl_addTo_chars, List.foldl_cons, hrest, hardPieces, hbreak, if_pos rfl,
          inFront, List.map_cons, hsqueeze, ← hnewline]
        change (p.before ++ [p.current ++ stem]).map squeeze ++ _ = _
        rw [List.map_append, List.append_assoc]
        rfl

end TaggedProse
