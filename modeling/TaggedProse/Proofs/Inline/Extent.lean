import TaggedProse.Proofs.Inline.Backslash
import TaggedProse.Proofs.Inline.TagsIn

/-! How far a rule takes a text. Tags, escapes, images and hard breaks show their own end: a rule takes them
whatever text follows. -/
namespace TaggedProse
variable {s t w rest : List Char} {c : Char} {m : Match} {r : Rule}

theorem before_append_right (s rest : List Char) : before (s ++ rest) rest = s :=
  List.append_cancel_right (before_append (List.suffix_append s rest))

/-! ### Hard line breaks -/

inductive LineEnd : List Char → Prop
  | newline : LineEnd ['\n']
  | carriageReturn : LineEnd ['\r', '\n']

inductive IsHardBreak : List Char → Prop
  | backslash {e : List Char} (ends : LineEnd e) : IsHardBreak ('\\' :: e)
  | spaces (n : Nat) {e : List Char} (ends : LineEnd e) : IsHardBreak (' ' :: ' ' :: (List.replicate n ' ' ++ e))

theorem afterNewline?_eq_some : afterNewline? s = some rest ↔ ∃ e, LineEnd e ∧ s = e ++ rest := by
  constructor
  · intro h
    unfold afterNewline? at h
    split at h
    · cases h
      exact ⟨_, .newline, rfl⟩
    · cases h
      exact ⟨_, .carriageReturn, rfl⟩
    · cases h
  · rintro ⟨e, he, rfl⟩
    cases he <;> rfl

theorem afterSpacedNewline?_eq_some : afterSpacedNewline? s = some rest ↔
    ∃ n e, LineEnd e ∧ s = ' ' :: ' ' :: (List.replicate n ' ' ++ e) ++ rest := by
  constructor
  · intro h
    unfold afterSpacedNewline? at h
    split at h
    · next s =>
      obtain ⟨e, he, hs⟩ := afterNewline?_eq_some.1 h
      have hsplit := List.takeWhile_append_dropWhile (p := (· == ' ')) (l := s)
      have hspaces : s.takeWhile (· == ' ') = List.replicate (s.takeWhile (· == ' ')).length ' ' :=
        List.eq_replicate_of_mem fun c hc => by simpa using List.all_eq_true.1 List.all_takeWhile c hc
      refine ⟨(s.takeWhile (· == ' ')).length, e, he, ?_⟩
      rw [← hspaces, List.cons_append, List.cons_append, List.append_assoc, ← hs, hsplit]
    · cases h
  · rintro ⟨n, e, he, rfl⟩
    have hdrop : (List.replicate n ' ' ++ (e ++ rest)).dropWhile (· == ' ') = e ++ rest := by
      rw [List.dropWhile_append_of_pos (by simp)]
      cases he <;> rfl
    rw [List.cons_append, List.cons_append, List.append_assoc, afterSpacedNewline?, hdrop]
    exact afterNewline?_eq_some.2 ⟨e, he, rfl⟩

theorem scanLineBreak_eq_some :
    scanLineBreak s = some m ↔ m.token = .lineBreak ∧ IsHardBreak m.source ∧ s = m.source ++ m.rest := by
  constructor
  · intro h
    have hsource := Rule.append_of_scanLineBreak h
    unfold scanLineBreak at h
    obtain ⟨rest, hrest, rfl⟩ := Option.map_eq_some_iff.1 h
    refine ⟨rfl, ?_, hsource.symm⟩
    dsimp only at hsource ⊢
    split at hrest
    · obtain ⟨e, he, rfl⟩ := afterNewline?_eq_some.1 hrest
      obtain hbefore := List.append_cancel_right (hsource.trans (List.cons_append).symm)
      rw [hbefore]
      exact .backslash he
    · obtain ⟨n, e, he, rfl⟩ := afterSpacedNewline?_eq_some.1 hrest
      rw [List.append_cancel_right hsource]
      exact .spaces n he
  · obtain ⟨token, source, rest⟩ := m
    rintro ⟨rfl, hbreak, rfl⟩
    have hbefore : before (source ++ rest) rest = source := before_append_right source rest
    unfold scanLineBreak
    cases hbreak with
    | @backslash e he =>
      have hrest : afterNewline? (e ++ rest) = some rest := afterNewline?_eq_some.2 ⟨e, he, rfl⟩
      change (afterNewline? (e ++ rest)).map _ = _
      rw [hrest, Option.map_some, hbefore]
    | @spaces n e he =>
      have hrest : afterSpacedNewline? (' ' :: ' ' :: (List.replicate n ' ' ++ e) ++ rest) = some rest :=
        afterSpacedNewline?_eq_some.2 ⟨n, e, he, rfl⟩
      change (afterSpacedNewline? (' ' :: ' ' :: (List.replicate n ' ' ++ e) ++ rest)).map _ = _
      rw [hrest, Option.map_some, hbefore]

/-- Before its newline a hard break has white space only, but for the backslash. -/
theorem IsHardBreak.of_mem_dropLast (h : IsHardBreak (c :: s)) :
    (c = '\\' ∨ c = ' ') ∧ ∀ d ∈ s.dropLast, d = ' ' ∨ d = '\r' := by
  have hend : ∀ {e}, LineEnd e → e ≠ [] ∧ ∀ d ∈ e.dropLast, d = '\r' := by
    intro e he
    cases he <;> simp
  cases h with
  | backslash he => exact ⟨.inl rfl, fun d hd => .inr ((hend he).2 d hd)⟩
  | spaces n he =>
    refine ⟨.inr rfl, fun d hd => ?_⟩
    rw [← List.cons_append, List.dropLast_append_of_ne_nil (hend he).1, List.mem_append] at hd
    refine hd.imp (fun hspace => ?_) ((hend he).2 d)
    exact List.eq_of_mem_replicate (List.replicate_succ ▸ hspace : d ∈ List.replicate (n + 1) ' ')

/-- A beginning of a hard break is its backslash, or ends in white space of the same line. -/
theorem IsHardBreak.of_append (h : IsHardBreak (s ++ t)) (hs : s ≠ []) (ht : t ≠ []) :
    s = ['\\'] ∨ ∃ c, s.getLast? = some c ∧ isBlank c = true ∧ c ≠ '\n' := by
  have hspace : isBlank ' ' = true ∧ ' ' ≠ '\n' := by decide
  have hreturn : isBlank '\r' = true ∧ '\r' ≠ '\n' := by decide
  obtain ⟨c, s, rfl⟩ := List.exists_cons_of_ne_nil hs
  obtain ⟨hfirst, hrest⟩ := h.of_mem_dropLast
  cases s with
  | nil =>
    rcases hfirst with rfl | rfl
    · exact .inl rfl
    · exact .inr ⟨' ', rfl, hspace⟩
  | cons d s =>
    refine .inr ⟨_, List.getLast?_eq_some_getLast hs, ?_⟩
    have hmem : (c :: d :: s).getLast hs ∈ (d :: s ++ t).dropLast := by
      rw [List.dropLast_append_of_ne_nil ht, List.getLast_cons (List.cons_ne_nil d s)]
      exact List.mem_append_left _ (List.getLast_mem _)
    rcases hrest _ hmem with heq | heq
    · rwa [heq]
    · rwa [heq]

/-! ### Images -/

/-- Characters of one kind up to one of another kind. -/
theorem span_stop {p : Char → Bool} (hall : ∀ d ∈ s, p d = true) (hstop : p c = false) (t : List Char) :
    (s ++ c :: t).takeWhile p = s ∧ (s ++ c :: t).dropWhile p = c :: t := by
  have hc : ¬p c = true := by rw [hstop]; exact Bool.false_ne_true
  rw [List.takeWhile_append_of_pos hall, List.dropWhile_append_of_pos hall, List.takeWhile_cons_of_neg hc,
    List.dropWhile_cons_of_neg hc, List.append_nil]
  exact ⟨rfl, rfl⟩

/-- They are the same ones whatever follows. -/
theorem span_of_dropWhile {p : Char → Bool} (h : s.dropWhile p = c :: t) (w : List Char) :
    (s.takeWhile p ++ c :: w).takeWhile p = s.takeWhile p ∧ (s.takeWhile p ++ c :: w).dropWhile p = c :: w := by
  have hstop := List.head?_dropWhile_not p s
  rw [h] at hstop
  exact span_stop (List.all_eq_true.1 List.all_takeWhile) (by simpa using hstop) w

theorem eq_of_dropWhile {p : Char → Bool} (h : s.dropWhile p = c :: t) : s = s.takeWhile p ++ c :: t := by
  rw [← h, List.takeWhile_append_dropWhile]

theorem imageTail?_bare (h : s.dropWhile isPad = ')' :: rest) : imageTail? s = some (none, rest) := by
  rw [imageTail?, h]
  rfl

theorem imageTail?_titled {u : List Char} (hs : s.dropWhile isPad = '"' :: t)
    (ht : t.dropWhile (fun c => !(c == '"' || c == '\n')) = '"' :: u) (hu : u.dropWhile isPad = ')' :: rest) :
    imageTail? s = some (some (t.takeWhile fun c => !(c == '"' || c == '\n')), rest) := by
  unfold imageTail?
  simp only [hs, ht, hu]

theorem imageTail?_append {title : Option (List Char)} (h : imageTail? s = some (title, rest)) :
    ∃ taken, s = taken ++ ')' :: rest ∧ ∀ w, imageTail? (taken ++ ')' :: w) = some (title, w) := by
  unfold imageTail? at h
  split at h
  · next hs =>
    cases h
    exact ⟨s.takeWhile isPad, eq_of_dropWhile hs, fun w => imageTail?_bare (span_of_dropWhile hs w).2⟩
  · next t hs =>
    dsimp only at h
    split at h
    · next u hu =>
      split at h
      · next hr =>
        cases h
        refine ⟨s.takeWhile isPad ++ '"' :: (t.takeWhile (fun c => !(c == '"' || c == '\n')) ++
          '"' :: u.takeWhile isPad), ?_, fun w => ?_⟩
        · conv => lhs; rw [eq_of_dropWhile hs, eq_of_dropWhile hu, eq_of_dropWhile hr]
          simp only [List.append_assoc, List.cons_append]
        · simp only [List.append_assoc, List.cons_append]
          rw [imageTail?_titled (span_of_dropWhile hs _).2 (span_of_dropWhile hu _).2 (span_of_dropWhile hr w).2,
            (span_of_dropWhile hu _).1]
      · cases h
    · cases h
  · cases h

theorem imageBody?_eq {title : Option (List Char)}
    (hs : s.dropWhile (fun c => !(c == ']' || c == '\n')) = ']' :: '(' :: t)
    (hurl : (t.dropWhile isPad).takeWhile isUrlChar ≠ [])
    (htail : imageTail? ((t.dropWhile isPad).dropWhile isUrlChar) = some (title, rest)) :
    imageBody? s = some (.image ((t.dropWhile isPad).takeWhile isUrlChar)
      (s.takeWhile fun c => !(c == ']' || c == '\n')) title, rest) := by
  obtain ⟨c, url, heq⟩ := List.exists_cons_of_ne_nil hurl
  unfold imageBody?
  simp only [hs, heq, htail]

theorem imageBody?_append {token : Token} (h : imageBody? s = some (token, rest)) :
    ∃ taken, s = taken ++ ')' :: rest ∧ ∀ w, imageBody? (taken ++ ')' :: w) = some (token, w) := by
  unfold imageBody? at h
  dsimp only at h
  split at h
  · next t hs =>
    split at h
    · cases h
    · next hurl =>
      split at h
      · cases h
      · next title rest' htail =>
        cases h
        obtain ⟨taken, htaken, hagain⟩ := imageTail?_append htail
        obtain ⟨c, url, heq⟩ := List.exists_cons_of_ne_nil hurl
        have hsplit := List.takeWhile_append_dropWhile (p := isUrlChar) (l := t.dropWhile isPad)
        rw [heq, htaken] at hsplit
        refine ⟨s.takeWhile (fun c => !(c == ']' || c == '\n')) ++
          ']' :: '(' :: (t.takeWhile isPad ++ c :: (url ++ taken)), ?_, fun w => ?_⟩
        · conv => lhs; rw [eq_of_dropWhile hs, eq_of_dropWhile hsplit.symm]
          simp
        · have hpads := (span_of_dropWhile hsplit.symm (url ++ (taken ++ ')' :: w))).2
          have hstop : (c :: (url ++ (taken ++ ')' :: w))).takeWhile isUrlChar = c :: url ∧
              (c :: (url ++ (taken ++ ')' :: w))).dropWhile isUrlChar = taken ++ ')' :: w := by
            rw [← List.cons_append, ← heq]
            cases taken with
            | nil => exact span_of_dropWhile htaken w
            | cons d taken => exact span_of_dropWhile htaken (taken ++ ')' :: w)
          simp only [List.append_assoc, List.cons_append]
          rw [imageBody?_eq (span_of_dropWhile hs _).2 (by rw [hpads, hstop.1]; simp)
            (by rw [hpads, hstop.2]; exact hagain w), hpads, hstop.1, (span_of_dropWhile hs _).1, heq]
  · cases h

/-! ### What a rule takes, with another text behind it -/

theorem scanTag_append (h : scanTag s = some m) (w : List Char) :
    scanTag (m.source ++ w) = some { m with rest := w } := by
  obtain ⟨t, ht, rfl⟩ := Option.map_eq_some_iff.1 h
  rw [scanTag, TagSpan.scan?_append ht]
  rfl

theorem scanEscape_append (h : scanEscape s = some m) (w : List Char) :
    scanEscape (m.source ++ w) = some { m with rest := w } := by
  unfold scanEscape at h
  split at h
  · split at h
    · next hc =>
      cases h
      exact if_pos hc
    · cases h
  · cases h

def Token.isImage : Token → Bool
  | .image _ _ _ => true
  | _ => false

theorem scanImage_of_imageBody? {token : Token} (h : imageBody? s = some (token, rest)) :
    scanImage ('!' :: '[' :: s) = some ⟨token, before ('!' :: '[' :: s) rest, rest⟩ := by
  simp only [scanImage, h]

theorem exists_of_scanImage (h : scanImage s = some m) : m.token.isImage = true ∧ m.source.getLast? = some ')' ∧
    ∀ w, scanImage (m.source ++ w) = some { m with rest := w } := by
  unfold scanImage at h
  split at h
  · split at h
    · cases h
    · next token rest hbody =>
      cases h
      obtain ⟨taken, rfl, hagain⟩ := imageBody?_append hbody
      have hsource := before_append_right ('!' :: '[' :: (taken ++ [')']))
      simp only [List.append_assoc, List.cons_append, List.nil_append] at hsource
      dsimp only
      rw [hsource]
      obtain ⟨-, url, alt, title, rfl, -⟩ := newlines_of_imageBody? hbody
      have hlast : ('!' :: '[' :: taken ++ [')']).getLast? = some ')' := List.getLast?_concat
      refine ⟨rfl, hlast, fun w => ?_⟩
      have hscan := scanImage_of_imageBody? (hagain w)
      rw [hsource] at hscan
      simpa using hscan
  · cases h

theorem scanLineBreak_append (h : scanLineBreak s = some m) (w : List Char) :
    scanLineBreak (m.source ++ w) = some { m with rest := w } := by
  obtain ⟨htoken, hbreak, -⟩ := scanLineBreak_eq_some.1 h
  rw [scanLineBreak_eq_some]
  exact ⟨htoken, hbreak, rfl⟩

/-! ### The marker at a position -/

/-- What the rules before the one for prose recognise at the beginning of a text. -/
def marker? (s : List Char) : Option Match := (rulesBeforeText documentRules).findSome? (·.scan s)

theorem marker?_eq (s : List Char) :
    marker? s = (scanTag s).or ((scanEscape s).or ((scanImage s).or (scanLineBreak s))) := by
  rw [marker?, rulesBeforeText_documentRules]
  simp only [List.findSome?_cons, Rule.scan, List.findSome?_nil]
  cases scanTag s <;> cases scanEscape s <;> cases scanImage s <;> cases scanLineBreak s <;> rfl

theorem marker?_lt (s : List Char) : marker? ('<' :: s) = scanTag ('<' :: s) := by
  have hnone : scanEscape ('<' :: s) = none ∧ scanImage ('<' :: s) = none ∧ scanLineBreak ('<' :: s) = none :=
    ⟨rfl, rfl, rfl⟩
  rw [marker?_eq, hnone.1, hnone.2.1, hnone.2.2]
  simp

theorem marker?_bang (s : List Char) : marker? ('!' :: s) = scanImage ('!' :: s) := by
  have hnone : scanTag ('!' :: s) = none ∧ scanEscape ('!' :: s) = none ∧ scanLineBreak ('!' :: s) = none :=
    ⟨rfl, rfl, rfl⟩
  rw [marker?_eq, hnone.1, hnone.2.1, hnone.2.2]
  simp

theorem marker?_backslash (s : List Char) :
    marker? ('\\' :: s) = (scanEscape ('\\' :: s)).or (scanLineBreak ('\\' :: s)) := by
  have hnone : scanTag ('\\' :: s) = none ∧ scanImage ('\\' :: s) = none := ⟨rfl, rfl⟩
  rw [marker?_eq, hnone.1, hnone.2]
  simp

theorem marker?_of_ne (hlt : c ≠ '<') (hbang : c ≠ '!') (hbackslash : c ≠ '\\') (s : List Char) :
    marker? (c :: s) = scanLineBreak (c :: s) := by
  have hnone : scanTag (c :: s) = none ∧ scanEscape (c :: s) = none ∧ scanImage (c :: s) = none := by
    refine ⟨?_, ?_, ?_⟩
    · simp [scanTag, TagSpan.scan?, hlt]
    · simp [scanEscape, hbackslash]
    · simp [scanImage, hbang]
  rw [marker?_eq, hnone.1, hnone.2.1, hnone.2.2]
  simp

theorem append_of_marker? (h : marker? s = some m) :
    m.source ++ m.rest = s ∧ m.source ≠ [] ∧ m.token.Keeps m.source := by
  obtain ⟨r, hr, hscan⟩ := List.exists_of_findSome?_eq_some h
  have hkeeps := keeps_of_scan (isLiteral_of_mem_documentRules r ((List.takeWhile_prefix _).subset hr)) hscan
  exact ⟨Rule.append_of_scan hscan, source_ne_nil_of_keeps hkeeps, hkeeps⟩

/-- A marker is recognised by its own characters. -/
theorem marker?_append (h : marker? s = some m) (w : List Char) :
    marker? (m.source ++ w) = some { m with rest := w } := by
  obtain ⟨rfl, hne, -⟩ := append_of_marker? h
  obtain ⟨token, source, rest⟩ := m
  obtain ⟨c, taken, rfl⟩ := List.exists_cons_of_ne_nil hne
  change marker? (c :: (taken ++ rest)) = some ⟨token, c :: taken, rest⟩ at h
  change marker? (c :: (taken ++ w)) = some ⟨token, c :: taken, w⟩
  by_cases hlt : c = '<'
  · subst hlt
    rw [marker?_lt] at h ⊢
    exact scanTag_append h w
  by_cases hbang : c = '!'
  · subst hbang
    rw [marker?_bang] at h ⊢
    exact (exists_of_scanImage h).2.2 w
  by_cases hbackslash : c = '\\'
  · subst hbackslash
    rw [marker?_backslash, Option.or_eq_some_iff] at h
    rw [marker?_backslash]
    rcases h with hescape | ⟨-, hbreak⟩
    · have hagain := scanEscape_append hescape w
      dsimp only [List.cons_append] at hagain
      rw [hagain, Option.some_or]
    · have hagain := scanLineBreak_append hbreak w
      have hnone : scanEscape ('\\' :: (taken ++ w)) = none := by
        obtain ⟨-, hhard, -⟩ := scanLineBreak_eq_some.1 hbreak
        cases hhard with
        | backslash he => cases he <;> rfl
      dsimp only [List.cons_append] at hagain
      rw [hnone, Option.none_or, hagain]
  · rw [marker?_of_ne hlt hbang hbackslash] at h ⊢
    exact scanLineBreak_append h w

/-- No marker ends in white space of its last line. -/
theorem getLast?_of_marker? (h : marker? s = some m) (hc : m.source.getLast? = some c) (hblank : isBlank c = true) :
    c = '\n' := by
  rw [marker?_eq, Option.or_eq_some_iff, Option.or_eq_some_iff, Option.or_eq_some_iff] at h
  rcases h with h | ⟨-, h | ⟨-, h | ⟨-, h⟩⟩⟩
  · obtain ⟨t, ht, rfl⟩ := Option.map_eq_some_iff.1 h
    cases (TagSpan.getLast?_source ht).symm.trans hc
    cases hblank
  · unfold scanEscape at h
    split at h
    · split at h
      · next hpunct =>
        cases h
        obtain rfl := Option.some.inj hc
        exact absurd (isBlank_of_isPunctuation hpunct) (ne_of_eq_of_ne hblank (by decide))
      · cases h
    · cases h
  · cases (exists_of_scanImage h).2.1.symm.trans hc
    cases hblank
  · have hkeeps := keeps_of_scanLineBreak h
    rw [(scanLineBreak_eq_some.1 h).1] at hkeeps
    obtain ⟨front, hsource, -⟩ := hkeeps
    rw [hsource, List.getLast?_concat] at hc
    cases hc
    rfl

end TaggedProse
