import TaggedProse.Document.Basic
import TaggedProse.Proofs.Inline.Tag
import TaggedProse.Proofs.Text.Lines

/-! What the pieces of a paragraph keep of the text they were recognised in: its characters, its
newlines, and the brackets of its tags. -/
namespace TaggedProse
variable {rules : List Rule} {s rest : List Char} {m : Match}

/-- What a token keeps of its source. Text is its source, or one character that was escaped. -/
def Token.Keeps (source : List Char) : Token → Prop
  | .text s => s ≠ [] ∧ (source = s ∨ ∃ c, c ≠ '\n' ∧ s = [c] ∧ source = ['\\', c])
  | .markup t => source = t ∧ ∃ content, t = '<' :: content ++ ['>'] ∧ Xml.IsTag content
  | .image url alt title => (∃ rest, source = '!' :: rest) ∧
    newlines source = 0 ∧ newlines url = 0 ∧ newlines alt = 0 ∧ newlines (title.getD []) = 0
  | .lineBreak => ∃ front, source = front ++ ['\n'] ∧ newlines front = 0

theorem newlines_of_keeps_text {source : List Char} (h : (Token.text s).Keeps source) :
    newlines s = newlines source := by
  obtain ⟨-, rfl | ⟨c, -, rfl, rfl⟩⟩ := h
  · rfl
  · exact (newlines_cons_of_ne (by decide) _).symm

/-! ### Tags, escapes and prose -/

theorem keeps_of_scanTag (h : scanTag s = some m) : m.token.Keeps m.source := by
  obtain ⟨t, ht, rfl⟩ := Option.map_eq_some_iff.1 h
  exact ⟨rfl, TagSpan.isTag_of_scan? ht⟩

theorem keeps_of_scanEscape (h : scanEscape s = some m) : m.token.Keeps m.source := by
  unfold scanEscape at h
  split at h
  · split at h
    · next c _ hc =>
      cases h
      have hne : c ≠ '\n' := by
        rintro rfl
        revert hc
        decide
      exact ⟨by simp, .inr ⟨c, hne, rfl, rfl⟩⟩
    · cases h
  · cases h

theorem keeps_of_scanText (h : scanText s = some m) : m.token.Keeps m.source := by
  cases s with
  | nil => cases h
  | cons c s =>
    cases h
    exact ⟨by simp, .inl rfl⟩

/-! ### Hard line breaks -/

theorem exists_of_afterNewline? (h : afterNewline? s = some rest) :
    ∃ front, s = front ++ '\n' :: rest ∧ newlines front = 0 := by
  unfold afterNewline? at h
  split at h
  · cases h; exact ⟨[], rfl, rfl⟩
  · cases h; exact ⟨['\r'], rfl, rfl⟩
  · cases h

theorem exists_of_afterSpacedNewline? (h : afterSpacedNewline? s = some rest) :
    ∃ front, s = front ++ '\n' :: rest ∧ newlines front = 0 := by
  unfold afterSpacedNewline? at h
  split at h
  · next s =>
    have hspace : ∀ c : Char, (c == ' ') = true → c ≠ '\n' := by
      rintro _ hc rfl
      cases hc
    obtain ⟨front, hdrop, hfront⟩ := exists_of_afterNewline? h
    have hsplit := List.takeWhile_append_dropWhile (p := (· == ' ')) (l := s)
    refine ⟨' ' :: ' ' :: (s.takeWhile (· == ' ') ++ front), ?_, ?_⟩
    · rw [List.cons_append, List.cons_append, List.append_assoc, ← hdrop, hsplit]
    · rw [newlines_cons_of_ne (by decide), newlines_cons_of_ne (by decide), newlines_append,
        newlines_takeWhile hspace, hfront]
  · cases h

theorem keeps_of_scanLineBreak (h : scanLineBreak s = some m) : m.token.Keeps m.source := by
  have hsource := Rule.append_of_scanLineBreak h
  unfold scanLineBreak at h
  obtain ⟨rest, hrest, rfl⟩ := Option.map_eq_some_iff.1 h
  have hfront : ∃ front, s = front ++ '\n' :: rest ∧ newlines front = 0 := by
    split at hrest
    · next t =>
      obtain ⟨front, rfl, hfront⟩ := exists_of_afterNewline? hrest
      exact ⟨'\\' :: front, rfl, by rw [newlines_cons_of_ne (by decide), hfront]⟩
    · exact exists_of_afterSpacedNewline? hrest
  obtain ⟨front, hs, hfront⟩ := hfront
  have happend : before s rest ++ rest = (front ++ ['\n']) ++ rest := by
    rw [List.append_assoc]
    exact hsource.trans hs
  exact ⟨front, List.append_cancel_right happend, hfront⟩

/-! ### Images -/

theorem ne_newline_of_isPad (c : Char) (h : isPad c = true) : c ≠ '\n' := by
  rintro rfl
  cases h

theorem ne_newline_of_isUrlChar (c : Char) (h : isUrlChar c = true) : c ≠ '\n' := by
  rintro rfl
  revert h
  decide

theorem newlines_of_dropWhile_eq {p : Char → Bool} {t : List Char} {c : Char}
    (hp : ∀ c, p c = true → c ≠ '\n') (hc : c ≠ '\n') (h : s.dropWhile p = c :: t) :
    newlines s = newlines t := by
  rw [← newlines_dropWhile hp, h, newlines_cons_of_ne hc]

theorem newlines_of_imageTail? {title : Option (List Char)} (h : imageTail? s = some (title, rest)) :
    newlines s = newlines rest ∧ newlines (title.getD []) = 0 := by
  unfold imageTail? at h
  split at h
  · next hs =>
    cases h
    exact ⟨newlines_of_dropWhile_eq ne_newline_of_isPad (by decide) hs, rfl⟩
  · next t hs =>
    have hopen := newlines_of_dropWhile_eq ne_newline_of_isPad (by decide) hs
    have hin : ∀ c : Char, (!(c == '"' || c == '\n')) = true → c ≠ '\n' := by
      rintro _ hc rfl
      cases hc
    dsimp only at h
    split at h
    · next u hu =>
      have hclose := newlines_of_dropWhile_eq hin (by decide) hu
      split at h
      · next hr =>
        cases h
        have hend := newlines_of_dropWhile_eq ne_newline_of_isPad (by decide) hr
        exact ⟨hopen.trans (hclose.trans hend), newlines_takeWhile hin t⟩
      · cases h
    · cases h
  · cases h

theorem newlines_of_imageBody? {token : Token} (h : imageBody? s = some (token, rest)) :
    newlines s = newlines rest ∧ ∃ url alt title, token = .image url alt title ∧
      newlines url = 0 ∧ newlines alt = 0 ∧ newlines (title.getD []) = 0 := by
  unfold imageBody? at h
  have hin : ∀ c : Char, (!(c == ']' || c == '\n')) = true → c ≠ '\n' := by
    rintro _ hc rfl
    cases hc
  dsimp only at h
  split at h
  · next t hs =>
    have hopen := newlines_of_dropWhile_eq hin (by decide) hs
    rw [newlines_cons_of_ne (by decide)] at hopen
    split at h
    · cases h
    · split at h
      · cases h
      · next title rest' htail =>
        cases h
        obtain ⟨hrest, htitle⟩ := newlines_of_imageTail? htail
        rw [newlines_dropWhile ne_newline_of_isUrlChar, newlines_dropWhile ne_newline_of_isPad] at hrest
        exact ⟨hopen.trans hrest, _, _, title, rfl, newlines_takeWhile ne_newline_of_isUrlChar _,
          newlines_takeWhile hin s, htitle⟩
  · cases h

theorem keeps_of_scanImage (h : scanImage s = some m) : m.token.Keeps m.source := by
  have hsource := Rule.append_of_scanImage h
  unfold scanImage at h
  split at h
  · next t =>
    split at h
    · cases h
    · next token rest hbody =>
      cases h
      obtain ⟨hnewlines, url, alt, title, rfl, hurl, halt, htitle⟩ := newlines_of_imageBody? hbody
      have hsuffix := Rule.suffix_of_imageBody? hbody
      dsimp only at hsource
      refine ⟨?_, ?_, hurl, halt, htitle⟩
      · cases hbefore : before ('!' :: '[' :: t) rest with
        | nil =>
          rw [hbefore, List.nil_append] at hsource
          have hlength := hsuffix.length_le
          rw [hsource, List.length_cons, List.length_cons] at hlength
          omega
        | cons c taken =>
          rw [hbefore] at hsource
          exact ⟨taken, by rw [(List.cons.inj hsource).1]⟩
      · have hsum := congrArg newlines hsource
        rw [newlines_append, newlines_cons_of_ne (by decide), newlines_cons_of_ne (by decide)] at hsum
        dsimp only at hsum ⊢
        omega
  · cases h

/-! ### Pieces -/

/-- A fixed word may give any token. The other rules say what they saw. -/
def Rule.isLiteral : Rule → Bool
  | .literal _ _ => true
  | _ => false

theorem keeps_of_scan {r : Rule} (hr : r.isLiteral = false) (h : r.scan s = some m) :
    m.token.Keeps m.source := by
  cases r with
  | tag => exact keeps_of_scanTag h
  | escape => exact keeps_of_scanEscape h
  | image => exact keeps_of_scanImage h
  | lineBreak => exact keeps_of_scanLineBreak h
  | text => exact keeps_of_scanText h
  | literal word token => cases hr

theorem source_ne_nil_of_keeps {source : List Char} {token : Token} (h : token.Keeps source) : source ≠ [] := by
  cases token with
  | text s =>
    obtain ⟨hs, rfl | ⟨c, -, -, rfl⟩⟩ := h
    · exact hs
    · simp
  | markup t =>
    obtain ⟨rfl, content, rfl, -⟩ := h
    simp
  | image url alt title =>
    obtain ⟨⟨rest, rfl⟩, -⟩ := h
    simp
  | lineBreak =>
    obtain ⟨front, rfl, -⟩ := h
    simp

theorem isLiteral_of_mem_documentRules : ∀ r ∈ documentRules, r.isLiteral = false := by decide

theorem keeps_of_firstMatch (hrules : ∀ r ∈ rules, r.isLiteral = false) (h : firstMatch rules s = some m) :
    m.token.Keeps m.source := by
  obtain ⟨r, hr, hfilter⟩ := List.exists_of_findSome?_eq_some h
  obtain ⟨hscan, -⟩ := Option.filter_eq_some_iff.1 hfilter
  exact keeps_of_scan (hrules r hr) hscan

theorem keeps_of_mem_pieces (hrules : ∀ r ∈ rules, r.isLiteral = false) (h : m ∈ pieces rules s) :
    m.token.Keeps m.source := by
  fun_induction pieces rules s with
  | case1 => cases h
  | case2 c s first ih =>
    rcases List.mem_cons.1 h with rfl | h
    · change (nextPiece rules c s).token.Keeps (nextPiece rules c s).source
      unfold nextPiece
      cases hfirst : firstMatch rules (c :: s) with
      | none => exact ⟨by simp, .inl rfl⟩
      | some m => exact keeps_of_firstMatch hrules hfirst
    · exact ih h

/-! ### Joining texts -/

theorem joinText_text (s : List Char) (tokens : List Token) :
    (∃ s' rest, joinText tokens = .text s' :: rest ∧
      joinText (.text s :: tokens) = .text (s ++ s') :: rest) ∨
    ((∀ s' rest, joinText tokens ≠ .text s' :: rest) ∧
      joinText (.text s :: tokens) = .text s :: joinText tokens) := by
  rw [joinText]
  split
  · next s' rest heq => exact .inl ⟨s', rest, heq, rfl⟩
  · next hne => exact .inr ⟨fun s' rest heq => hne s' rest heq, rfl⟩

/-- Only a text is joined with what stands around it. -/
theorem joinText_append_cons {token : Token} (htoken : ∀ u, token ≠ .text u) (ts us : List Token) :
    joinText (ts ++ token :: us) = joinText ts ++ token :: joinText us := by
  have hfirst : joinText (token :: us) = token :: joinText us := by
    cases token with
    | text u => exact absurd rfl (htoken u)
    | _ => rfl
  induction ts with
  | nil => exact hfirst
  | cons u ts ih =>
    cases u with
    | text s =>
      rw [List.cons_append, joinText, joinText, ih]
      cases joinText ts with
      | nil =>
        cases token with
        | text u => exact absurd rfl (htoken u)
        | _ => rfl
      | cons u ts => cases u <;> rfl
    | _ => rw [List.cons_append, joinText, ih, joinText] <;> simp

end TaggedProse
