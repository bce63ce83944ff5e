import Mathlib.Data.List.Forall2
import Mathlib.Data.List.TakeWhile
import TaggedProse.Proofs.Text.Visible

/-! What a passage keeps of what is written into it: every break, and the words between one break and the next. -/
namespace TaggedProse

/-- The words stand in the text in this order, with white space between them, and apart from white space there is
nothing else. -/
inductive HasWords : List Char → List (List Char) → Prop
  | nil : HasWords [] []
  | blank {c : Char} {s : List Char} {ws : List (List Char)} (blank : isBlank c = true) (rest : HasWords s ws) :
      HasWords (c :: s) ws
  | word {w s : List Char} {ws : List (List Char)} (nonempty : w ≠ []) (visible : ∀ c ∈ w, isBlank c = false)
      (apart : ∀ c ∈ s.head?, isBlank c = true) (rest : HasWords s ws) : HasWords (w ++ s) (w :: ws)

variable {s : List Char} {ws : List (List Char)}

theorem HasWords.words_eq (h : HasWords s ws) : words s = ws := by
  induction h with
  | nil => rfl
  | blank hc _ ih => rw [words_cons_blank hc, ih]
  | @word w s ws hne hvisible hapart _ ih =>
    cases s with
    | nil =>
      rw [List.append_nil, words_of_visible hne hvisible, ← ih]
      rfl
    | cons c s =>
      have hc := hapart c rfl
      rw [words_append_blank hc, words_of_visible hne hvisible, ← words_cons_blank hc, ih]
      rfl

theorem hasWords_words (s : List Char) : HasWords s (words s) := by
  induction hn : s.length using Nat.strongRecOn generalizing s with
  | _ n ih =>
    cases s with
    | nil => exact .nil
    | cons c t =>
      cases hc : isBlank c with
      | true =>
        rw [words_cons_blank hc]
        exact .blank hc (ih t.length (by simp [← hn]) t rfl)
      | false =>
        -- the text begins with a word, which goes up to the next white space
        have hvisible : (!isBlank c) = true := by rw [hc]; rfl
        have hsplit := List.takeWhile_append_dropWhile (p := (!isBlank ·)) (l := c :: t)
        have hrest : ((c :: t).dropWhile (!isBlank ·)).length < n := by
          rw [List.dropWhile_cons_of_pos (p := (!isBlank ·)) hvisible, ← hn]
          exact Nat.lt_succ_of_le (List.dropWhile_suffix _).length_le
        have hword :
            HasWords (c :: t) ((c :: t).takeWhile (!isBlank ·) :: words ((c :: t).dropWhile (!isBlank ·))) := by
          conv => arg 1; rw [← hsplit]
          refine .word ?_ (fun d hd => ?_) (fun d hd => ?_) (ih _ hrest _ rfl)
          · simp [hvisible]
          · simpa using List.mem_takeWhile_imp hd
          · have hnot := List.head?_dropWhile_not (!isBlank ·) (c :: t)
            rw [Option.mem_def.1 hd] at hnot
            simpa using hnot
        rw [hword.words_eq]
        exact hword

theorem hasWords_iff : HasWords s ws ↔ words s = ws :=
  ⟨HasWords.words_eq, fun h => h ▸ hasWords_words s⟩

theorem squeeze_eq_nil_of_allBlank (h : allBlank s = true) : squeeze s = [] := by
  rw [squeeze, words_of_allBlank h, joinWith]

namespace Passage

inductive Edit where
  | write (s : List Char)
  | lineBreak

namespace Edit

def isBreak : Edit → Bool
  | .write _ => false
  | .lineBreak => true

def written : Edit → List Char
  | .write s => s
  | .lineBreak => []

end Edit

def edit (p : Passage) : Edit → Passage
  | .write s => p.write s
  | .lineBreak => p.lineBreak

def ofEdits (edits : List Edit) : Passage := edits.foldl edit {}

def stretches (edits : List Edit) : List (List Char) := (cut Edit.isBreak edits).map (·.flatMap Edit.written)

variable {edits : List Edit} {p : Passage}

theorem length_stretches (edits : List Edit) : (stretches edits).length = edits.countP Edit.isBreak + 1 := by
  rw [stretches, List.length_map, length_cut]

theorem stretches_write (s : List Char) (edits : List Edit) :
    stretches (.write s :: edits) = (stretches edits).modifyHead (s ++ ·) := by
  obtain ⟨first, rest, hcut⟩ := List.exists_cons_of_ne_nil (cut_ne_nil Edit.isBreak edits)
  rw [stretches, stretches, cut, hcut]
  rfl

theorem stretches_lineBreak (edits : List Edit) : stretches (.lineBreak :: edits) = [] :: stretches edits := rfl

/-- What is written first goes on in the piece under way. -/
theorem pieces_foldl_edit (edits : List Edit) (p : Passage) :
    (edits.foldl edit p).pieces = p.before ++ (stretches edits).modifyHead (p.current ++ ·) := by
  induction edits generalizing p with
  | nil => simp [pieces, stretches, cut]
  | cons e edits ih =>
    cases e with
    | write s =>
      rw [List.foldl_cons, ih, stretches_write, List.modifyHead_modifyHead]
      simp [edit, write, Function.comp_def]
    | lineBreak =>
      have hnew : (stretches edits).modifyHead ([] ++ ·) = stretches edits := congrFun List.modifyHead_id _
      rw [List.foldl_cons, ih, stretches_lineBreak]
      simp only [edit, lineBreak]
      rw [hnew]
      simp

theorem pieces_ofEdits (edits : List Edit) : (ofEdits edits).pieces = stretches edits := by
  rw [ofEdits, pieces_foldl_edit]
  exact congrFun List.modifyHead_id _

/-! ### The text of a passage -/

theorem splitLines_chars (p : Passage) : splitLines p.chars = p.pieces.map squeeze := by
  refine splitLines_joinWith (by simp [pieces]) fun l hl => ?_
  obtain ⟨piece, -, rfl⟩ := List.mem_map.1 hl
  exact newlines_squeeze piece

theorem newlines_chars (p : Passage) : newlines p.chars + 1 = p.pieces.length := by
  rw [← length_splitLines, splitLines_chars, List.length_map]

/-- The text is known by the words of the pieces. -/
theorem chars_eq_chars_iff {q : Passage} : p.chars = q.chars ↔ p.pieces.map words = q.pieces.map words := by
  have hwords : ∀ p : Passage, (splitLines p.chars).map words = p.pieces.map words := fun p => by
    rw [splitLines_chars, List.map_map]
    exact List.map_congr_left fun piece _ => words_squeeze piece
  refine ⟨fun h => by rw [← hwords p, h, hwords q], fun h => ?_⟩
  have hsqueezed : ∀ p : Passage, (p.pieces.map words).map (joinWith ' ') = splitLines p.chars := fun p => by
    rw [splitLines_chars, List.map_map]
    rfl
  rw [← joinWith_splitLines p.chars, ← joinWith_splitLines q.chars, ← hsqueezed p, ← hsqueezed q, h]

theorem isBlank_iff_allBlank_chars : p.isBlank = true ↔ allBlank p.chars = true := by
  rw [← firstVisible?_eq_none, firstVisible?_chars, firstVisible?_eq_none, isBlank, allBlank, List.all_flatten]
  rfl

theorem isBlank_iff_newlines : p.isBlank = true ↔ ∀ c ∈ p.chars, c = '\n' := by
  constructor
  · intro h
    refine forall_mem_joinWith rfl fun l hl => ?_
    obtain ⟨piece, hpiece, rfl⟩ := List.mem_map.1 hl
    rw [squeeze_eq_nil_of_allBlank (List.all_eq_true.1 h piece hpiece)]
    exact List.forall_mem_nil _
  · intro h
    rw [isBlank_iff_allBlank_chars, allBlank, List.all_eq_true]
    rintro c hc
    rw [h c hc]
    rfl

theorem forall₂_splitLines_chars (p : Passage) :
    List.Forall₂ (fun piece l => ∃ ws, HasWords piece ws ∧ l = joinWith ' ' ws) p.pieces (splitLines p.chars) := by
  rw [splitLines_chars, List.forall₂_map_right_iff, List.forall₂_same]
  exact fun piece _ => ⟨words piece, hasWords_iff.2 rfl, rfl⟩

theorem squeeze_splitLines_chars (p : Passage) : (splitLines p.chars).map squeeze = splitLines p.chars := by
  rw [splitLines_chars, List.map_map]
  exact List.map_congr_left fun piece _ => squeeze_squeeze piece

/-- The text has a newline for every break, and between them the words of what was written there, one space apart. So
the lines are squeezed, the text tells the words between all breaks and nothing else, and a passage is blank when no
more than the newlines is left. -/
theorem lines_text_ofEdits (edits : List Edit) :
    newlines (ofEdits edits).text.toList = edits.countP Edit.isBreak ∧
      List.Forall₂ (fun stretch l => ∃ ws, HasWords stretch ws ∧ l = joinWith ' ' ws) (stretches edits)
        (splitLines (ofEdits edits).text.toList) ∧
      (splitLines (ofEdits edits).text.toList).map squeeze = splitLines (ofEdits edits).text.toList ∧
      (∀ edits', (ofEdits edits).text = (ofEdits edits').text ↔
        (stretches edits).map words = (stretches edits').map words) ∧
      ((ofEdits edits).isBlank = true ↔ ∀ c ∈ (ofEdits edits).text.toList, c = '\n') := by
  have htext : ∀ p : Passage, p.text.toList = p.chars := fun p => String.toList_ofList
  have hbreaks := newlines_chars (ofEdits edits)
  have hlines := forall₂_splitLines_chars (ofEdits edits)
  rw [pieces_ofEdits] at hbreaks hlines
  rw [length_stretches] at hbreaks
  rw [htext]
  refine ⟨Nat.succ.inj hbreaks, hlines, squeeze_splitLines_chars _, fun edits' => ?_, isBlank_iff_newlines⟩
  rw [← String.toList_inj, htext, htext, chars_eq_chars_iff, pieces_ofEdits, pieces_ofEdits]

end Passage

end TaggedProse
