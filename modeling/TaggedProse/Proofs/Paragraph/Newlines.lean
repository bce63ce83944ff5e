import TaggedProse.Proofs.Paragraph.Slices

/-! Rendering keeps every newline in its place. -/
namespace TaggedProse
variable {rules : List Rule} {source : List Char} {xs : List Stroke} {slice : Slice} {slices : List Slice}

def writtenBefore (front : List Slice) : List Char :=
  ('<' :: paragraphTag.toList ++ ['>']) ++ (front.map Slice.token).flatMap Token.render

/-- As many newlines are written before the rendered text of a slice as there are in the source before the slice.
The same holds for every character of prose, which is written as what is left of the text begins, and for every
character of markup. -/
structure KeepsNewlines (source rendered : List Char) (slices : List Slice) : Prop where
  all : newlines rendered = newlines source
  token : ∀ front slice back, slices = front ++ slice :: back →
    front.flatMap Slice.source ++ slice.source <+: source ∧
      writtenBefore front ++ slice.token.render <+: rendered ∧
      newlines (writtenBefore front) = newlines (front.flatMap Slice.source)
  text : ∀ front before x after back, slices = front ++ .text (before ++ x :: after) :: back →
    ∃ dropped written, x.source = dropped ++ [x.char] ∧ (dropped = [] ∨ dropped = ['\\']) ∧
      escape .content ((before ++ x :: after).map Stroke.char) =
        written ++ escape .content ((x :: after).map Stroke.char) ∧
      newlines (writtenBefore front ++ written) =
        newlines (front.flatMap Slice.source ++ before.flatMap Stroke.source ++ dropped)
  markup : ∀ front before c after taken back, slices = front ++ .markup (before ++ c :: after) taken :: back →
    taken = before ++ c :: after ∧
      newlines (writtenBefore front ++ before) = newlines (front.flatMap Slice.source ++ before)

/-! ### Slices -/

theorem newlines_dropped {dropped : List Char} (h : dropped = [] ∨ dropped = ['\\']) : newlines dropped = 0 := by
  rcases h with rfl | rfl
  · rfl
  · rfl

theorem newlines_strokes (h : ∀ x ∈ xs, x.Sound) :
    newlines (xs.map Stroke.char) = newlines (xs.flatMap Stroke.source) := by
  induction xs with
  | nil => rfl
  | cons x xs ih =>
    obtain ⟨⟨dropped, hsource, hdropped⟩, hxs⟩ := List.forall_mem_cons.1 h
    rw [List.map_cons, List.flatMap_cons, ← List.singleton_append, newlines_append, newlines_append, hsource,
      newlines_append, newlines_dropped hdropped, Nat.zero_add, ih hxs]

theorem newlines_render_slice (h : slice.Sound) : newlines slice.token.render = newlines slice.source := by
  cases slice with
  | text xs => exact (newlines_escape .content _).trans (newlines_strokes h)
  | _ => exact newlines_render h

theorem newlines_flatMap_render (h : ∀ slice ∈ slices, slice.Sound) :
    newlines ((slices.map Slice.token).flatMap Token.render) = newlines (slices.flatMap Slice.source) := by
  induction slices with
  | nil => rfl
  | cons slice slices ih =>
    obtain ⟨hslice, hslices⟩ := List.forall_mem_cons.1 h
    rw [List.map_cons, List.flatMap_cons, List.flatMap_cons, newlines_append, newlines_append,
      newlines_render_slice hslice, ih hslices]

theorem newlines_writtenBefore (h : ∀ slice ∈ slices, slice.Sound) :
    newlines (writtenBefore slices) = newlines (slices.flatMap Slice.source) := by
  have hopening : newlines ('<' :: paragraphTag.toList ++ ['>']) = 0 := by decide
  rw [writtenBefore, newlines_append, hopening, Nat.zero_add, newlines_flatMap_render h]

theorem render_eq_writtenBefore (slices : List Slice) :
    render (slices.map Slice.token) = writtenBefore slices ++ (['<', '/'] ++ paragraphTag.toList ++ ['>']) := rfl

/-! ### A paragraph -/

theorem keepsNewlines_of_sound (h : ∀ slice ∈ slices, slice.Sound) :
    KeepsNewlines (slices.flatMap Slice.source) (render (slices.map Slice.token)) slices where
  all := by
    have hclosing : newlines (['<', '/'] ++ paragraphTag.toList ++ ['>']) = 0 := by decide
    rw [render_eq_writtenBefore, newlines_append, hclosing, newlines_writtenBefore h, Nat.add_zero]
  token := by
    rintro front slice back rfl
    refine ⟨⟨back.flatMap Slice.source, by simp⟩, ?_, newlines_writtenBefore (List.forall_mem_append.1 h).1⟩
    rw [render_eq_writtenBefore]
    simp [writtenBefore]
  text := by
    rintro front before x after back rfl
    obtain ⟨hfront, hrest⟩ := List.forall_mem_append.1 h
    obtain ⟨hbefore, hx⟩ := List.forall_mem_append.1 (hrest _ List.mem_cons_self)
    obtain ⟨dropped, hsource, hdropped⟩ := hx x List.mem_cons_self
    obtain ⟨written, hwritten⟩ := suffix_escape .content (before.map Stroke.char) ((x :: after).map Stroke.char)
    have hnewlines := congrArg newlines hwritten
    rw [newlines_append, newlines_escape, newlines_escape, newlines_append, newlines_strokes hbefore] at hnewlines
    refine ⟨dropped, written, hsource, hdropped, ?_, ?_⟩
    · rw [List.map_append]
      exact hwritten.symm
    · rw [newlines_append, newlines_writtenBefore hfront, newlines_append, newlines_append,
        newlines_dropped hdropped, Nat.add_zero, Nat.add_right_cancel hnewlines]
  markup := by
    rintro front before c after taken back rfl
    obtain ⟨hfront, hrest⟩ := List.forall_mem_append.1 h
    obtain ⟨htaken, -⟩ : (Token.markup (before ++ c :: after)).Keeps taken := hrest _ List.mem_cons_self
    refine ⟨htaken, ?_⟩
    rw [newlines_append, newlines_append, newlines_writtenBefore hfront]

theorem newlines_render_tokenize (hrules : ∀ r ∈ rules, r.isLiteral = false) (source : List Char) :
    newlines (render (tokenize rules source)) = newlines source := by
  rw [← map_token_slicesOf, (keepsNewlines_of_sound (sound_slicesOf hrules source)).all,
    flatMap_source_slicesOf hrules]

/-- Whatever rules there are for tags, escapes, images, hard breaks and prose, in whatever order: rendering keeps every
newline in front of the tokens, and the characters in them, that it is in front of in the source. -/
theorem keepsNewlines_render (hrules : ∀ r ∈ rules, r.isLiteral = false) (source : List Char) :
    (slicesOf rules source).map Slice.token = tokenize rules source ∧
      (slicesOf rules source).flatMap Slice.source = source ∧
      KeepsNewlines source (render (tokenize rules source)) (slicesOf rules source) := by
  have hkeeps := keepsNewlines_of_sound (sound_slicesOf hrules source)
  rw [map_token_slicesOf, flatMap_source_slicesOf hrules] at hkeeps
  exact ⟨map_token_slicesOf rules source, flatMap_source_slicesOf hrules source, hkeeps⟩

/-- Prose comes before tags and after escapes here. -/
def escapesFirst : List Rule := [.escape, .lineBreak, .image, .text, .tag]

def brokenSource : List Char := "a\n\\& <x\ny='1'> \\\nb  \r\n![i](u)\nz".toList

theorem keepsNewlines_brokenSource : (∀ r ∈ escapesFirst ++ Rule.standard, r.isLiteral = false) ∧
    KeepsNewlines brokenSource (render (tokenize (escapesFirst ++ Rule.standard) brokenSource))
      (slicesOf (escapesFirst ++ Rule.standard) brokenSource) ∧
    (∀ r ∈ documentRules, r.isLiteral = false) ∧
    KeepsNewlines brokenSource (render (tokenize documentRules brokenSource)) (slicesOf documentRules brokenSource) ∧
    render (tokenize documentRules brokenSource) =
      "<p>a\n&amp; <x\ny='1'> <br/>\nb<br/>\n<image url=\"u\" alt=\"i\"/>\nz</p>".toList := by
  have hfirst : ∀ r ∈ escapesFirst ++ Rule.standard, r.isLiteral = false := by decide
  exact ⟨hfirst, (keepsNewlines_render hfirst brokenSource).2.2, isLiteral_of_mem_documentRules,
    (keepsNewlines_render isLiteral_of_mem_documentRules brokenSource).2.2, by decide +kernel⟩

end TaggedProse
