import TaggedProse.Proofs.Inline.Offsets
import TaggedProse.Proofs.Paragraph.LineEnds

/-! Paragraphs cut out of their document at positions in bytes: from the first byte of the first line to the last one of
the last line, where a carriage return does not count. With that, no cut that is made on the way from a document to its
tokens and their texts is ever refused. -/
namespace TaggedProse
variable {document a : List Char} {ls more : List (List Char)} {n position : Nat}

structure PlacedLine where
  position : Nat
  content : List Char

/-- The position after the line, at its carriage return if it has one. -/
def PlacedLine.stop (l : PlacedLine) : Nat := l.position + byteLength l.content

def placeLines (position : Nat) : List (List Char) → List PlacedLine
  | [] => []
  | l :: ls => ⟨position, lineContent l⟩ :: placeLines (position + byteLength l + 1) ls

def paragraphsFromAt? (document : List Char) (n : Nat) : List PlacedLine → Option (List Paragraph)
  | [] => some []
  | l :: ls =>
    if allBlank l.content then paragraphsFromAt? document (n + 1) ls
    else
      let open? := (OpenElement.leading? l.content).bind (·.after? l.content)
      let more := (splitBlock open? (ls.map PlacedLine.content)).1.length
      let last := (ls.take more).getLastD l
      (slice? l.position last.stop document).bind fun source =>
        (paragraphsFromAt? document (n + 1 + more) (ls.drop more)).map (⟨n, source⟩ :: ·)
termination_by ls => ls.length
decreasing_by
  · simp
  · simp only [List.length_drop, List.length_cons]
    omega

def paragraphsAt? (document : List Char) : Option (List Paragraph) :=
  paragraphsFromAt? document 0 (placeLines 0 (splitLines document))

/-! ### Placed lines -/

theorem map_content_placeLines (position : Nat) (ls : List (List Char)) :
    (placeLines position ls).map PlacedLine.content = ls.map lineContent := by
  induction ls generalizing position with
  | nil => rfl
  | cons l ls ih => exact congrArg (_ :: ·) (ih _)

theorem length_placeLines (position : Nat) (ls : List (List Char)) : (placeLines position ls).length = ls.length := by
  rw [← List.length_map (f := PlacedLine.content), map_content_placeLines, List.length_map]

theorem byteLength_joinWith_cons_cons (l l' : List Char) (ls : List (List Char)) :
    byteLength (joinWith '\n' (l :: l' :: ls)) = byteLength l + 1 + byteLength (joinWith '\n' (l' :: ls)) := by
  rw [joinWith, byteLength_append, byteLength_cons, Nat.add_assoc]
  rfl

/-- The lines behind others begin after all of these and their newlines. -/
theorem placeLines_append (position : Nat) (first : List Char) (more ls : List (List Char)) :
    placeLines (position + byteLength first + 1) (more ++ ls) =
      placeLines (position + byteLength first + 1) more ++
        placeLines (position + byteLength (joinWith '\n' (first :: more)) + 1) ls := by
  induction more generalizing first position with
  | nil => rfl
  | cons l more ih =>
    rw [List.cons_append, placeLines, ih, placeLines, List.cons_append, byteLength_joinWith_cons_cons]
    simp only [Nat.add_assoc]

/-- Some lines stop where their text does, but for the carriage return of the last one. -/
theorem stop_getLastD_placeLines (position : Nat) (first : List Char) (more : List (List Char)) :
    ((placeLines (position + byteLength first + 1) more).getLastD ⟨position, lineContent first⟩).stop =
      position + byteLength (lineContent (joinWith '\n' (first :: more))) := by
  induction more generalizing first position with
  | nil => rfl
  | cons l more ih =>
    rw [placeLines, List.getLastD_cons, ih, joinWith, lineContent_append_newline, byteLength_append, byteLength_cons,
      Nat.add_assoc, Nat.add_assoc]
    rfl

/-- The carriage returns of lines make no difference to how many of them a block has. -/
theorem length_splitBlock_lineContent (open? : Option OpenElement) (ls : List (List Char)) :
    (splitBlock open? (ls.map lineContent)).1.length = (splitBlock open? ls).1.length := by
  have hlines : List.Forall₂ (fun l l' => l = lineContent l') (ls.map lineContent) ls :=
    List.forall₂_map_left_iff.2 (List.forall₂_same.2 fun _ _ => rfl)
  refine (splitBlock_forall₂ ?_ hlines open?).1.length_eq
  rintro _ l rfl
  exact interchangeable_lineContent l

/-! ### Paragraphs at positions -/

theorem exists_joinWith_append (first : List Char) (more ls : List (List Char)) :
    ∃ tail, joinWith '\n' (first :: (more ++ ls)) = joinWith '\n' (first :: more) ++ tail ∧
      (ls ≠ [] → tail = '\n' :: joinWith '\n' ls) := by
  cases ls with
  | nil => exact ⟨[], by simp, fun h => absurd rfl h⟩
  | cons l ls =>
    refine ⟨'\n' :: joinWith '\n' (l :: ls), ?_, fun _ => rfl⟩
    rw [← List.cons_append, joinWith_append '\n' (by simp) (by simp)]

/-- The lines of a block, up to the carriage return of the last one, can be cut out of the document. -/
theorem slice?_block (a first : List Char) (more ls : List (List Char)) :
    slice? (byteLength a) (byteLength a + byteLength (lineContent (joinWith '\n' (first :: more))))
      (a ++ joinWith '\n' (first :: (more ++ ls))) = some (lineContent (joinWith '\n' (first :: more))) := by
  obtain ⟨tail, hjoin, -⟩ := exists_joinWith_append first more ls
  obtain ⟨cr, -, hcr⟩ := exists_lineContent_append (joinWith '\n' (first :: more))
  have hslice := slice?_append a (lineContent (joinWith '\n' (first :: more))) (cr ++ tail)
  rwa [byteLength_append, List.append_assoc, ← List.append_assoc _ cr tail, hcr, ← hjoin] at hslice

/-- As long as lines are left, they are what the document has from their position on. -/
theorem paragraphsFromAt?_placeLines (n : Nat) (ls : List (List Char)) (a : List Char)
    (h : ls ≠ [] → document = a ++ joinWith '\n' ls) :
    paragraphsFromAt? document n (placeLines (byteLength a) ls) = some (paragraphsFrom n ls) := by
  fun_induction paragraphsFrom n ls generalizing a with
  | case1 n => rw [placeLines, paragraphsFromAt?]
  | case2 n l ls hblank ih =>
    have hrest := ih (a ++ l ++ ['\n']) fun hls => by
      obtain ⟨l', ls, rfl⟩ := List.exists_cons_of_ne_nil hls
      rw [h (by simp), joinWith]
      simp
    rw [byteLength_append, byteLength_append] at hrest
    rw [placeLines, paragraphsFromAt?, if_pos (by rw [allBlank_lineContent]; exact hblank)]
    exact hrest
  | case3 n l ls hblank block ih =>
    have hsame := interchangeable_lineContent l
    have hls : block.1 ++ block.2 = ls := append_splitBlock ..
    have hslice := slice?_block a l block.1 block.2
    rw [hls, ← h (by simp)] at hslice
    have hrest := ih (a ++ joinWith '\n' (l :: block.1) ++ ['\n']) fun hne => by
      obtain ⟨tail, hjoin, htail⟩ := exists_joinWith_append l block.1 block.2
      rw [h (by simp), ← hls, hjoin, htail hne]
      simp
    rw [byteLength_append, byteLength_append] at hrest
    have hplaced := placeLines_append (byteLength a) l block.1 block.2
    have hlength := length_placeLines (byteLength a + byteLength l + 1) block.1
    rw [placeLines, paragraphsFromAt?, if_neg (by rw [allBlank_lineContent]; exact hblank)]
    simp only [map_content_placeLines, hsame.leading, hsame.bind_after?, length_splitBlock_lineContent]
    rw [← hls, hplaced, hls, ← hlength, List.take_left, List.drop_left, stop_getLastD_placeLines, hslice,
      Option.bind_some, hlength]
    exact congrArg (Option.map _) hrest

theorem paragraphsAt?_eq (document : List Char) : paragraphsAt? document = some (paragraphs document) :=
  paragraphsFromAt?_placeLines 0 (splitLines document) [] fun _ => (joinWith_splitLines document).symm

/-! ### All cuts -/

/-- Nothing is cut inside a character or beyond the end of a text. The lexer cuts the text into tokens that take up all
of its bytes, one after the other and none of them twice; no two texts are neighbours among its tokens; and paragraphs,
escaped texts, the end of prose and the lines of what is visible are the same whether a text is cut at bytes or not. -/
theorem cuts_within (rules : List Rule) (s : List Char) :
    (∃ es, lexAt? rules s 0 = some es ∧ tokenize rules s = joinText (es.map Extent.token) ∧
        Covers 0 (byteLength s) es ∧
        ∀ e ∈ es, e.last ≤ byteLength s ∧ IsBoundary s e.first ∧ IsBoundary s e.last) ∧
      ((tokenize rules s).IsChain fun t u => (t.isText && u.isText) = false) ∧
      paragraphsAt? s = some (paragraphs s) ∧
      (∀ place, escapeFrom? place s 0 s = some (escape place s)) ∧
      (∀ c t, ∃ last, proseEnd? (bytes (c :: t)) c.utf8Size = some last ∧ last ≤ byteLength (c :: t) ∧
        IsBoundary (c :: t) last) ∧
      ∀ line, visibleLineAt? line s = some (visibleLine? line s) := by
  obtain ⟨es, hlex, htokens, hcovers, hslices⟩ := exists_lexAt? rules s
  refine ⟨⟨es, hlex, htokens, hcovers, fun e he => ?_⟩, isChain_joinText _, paragraphsAt?_eq s, fun place =>
    escapeFrom?_append place [] s, fun c t => ?_, fun line => visibleLineAt?_eq line s⟩
  · obtain ⟨-, hfirst, hlast⟩ := slice?_isSome_iff.1 (hslices e he)
    exact ⟨hlast.le, hfirst, hlast⟩
  · have hend := isBoundary_append (c :: (splitProse t).1) (splitProse t).2
    rw [List.cons_append, Rule.append_splitProse] at hend
    exact ⟨_, proseEnd?_first c t, hend.le, hend⟩

end TaggedProse
