import TaggedProse.Paragraph.Basic
import TaggedProse.Proofs.Text.Cut

/-! Texts one after another, with a blank line between them. Unless an element is left open at the end of
the first text, its paragraphs come first, and after them those of the second text, further down. -/
namespace TaggedProse
variable {open? : Option OpenElement} {ls ms : List (List Char)}

/-! ### Blocks -/

def openAfter (open? : Option OpenElement) (ls : List (List Char)) : Option OpenElement :=
  ls.foldl (fun o l => o.bind (·.after? l)) open?

/-- Where a paragraph has ended, further lines make no difference to it. -/
theorem splitBlock_append (h : (splitBlock open? ls).2 ≠ []) (ms : List (List Char)) :
    splitBlock open? (ls ++ ms) = ((splitBlock open? ls).1, (splitBlock open? ls).2 ++ ms) := by
  induction ls generalizing open? with
  | nil => exact absurd rfl h
  | cons l ls ih =>
    rw [splitBlock] at h
    rw [List.cons_append, splitBlock, splitBlock]
    by_cases hend : (open?.isNone && allBlank l) = true
    · simp [hend]
    · simp only [if_neg hend] at h ⊢
      rw [ih h]

/-- A paragraph that has not ended goes on in further lines. -/
theorem splitBlock_continue (h : (splitBlock open? ls).2 = []) (ms : List (List Char)) :
    splitBlock open? (ls ++ ms) =
      (ls ++ (splitBlock (openAfter open? ls) ms).1, (splitBlock (openAfter open? ls) ms).2) := by
  induction ls generalizing open? with
  | nil => rfl
  | cons l ls ih =>
    rw [splitBlock] at h
    rw [List.cons_append, splitBlock]
    by_cases hend : (open?.isNone && allBlank l) = true
    · simp [hend] at h
    · simp only [if_neg hend] at h ⊢
      rw [ih h]
      rfl

theorem fst_splitBlock (h : (splitBlock open? ls).2 = []) : (splitBlock open? ls).1 = ls := by
  have happend := append_splitBlock open? ls
  rwa [h, List.append_nil] at happend

/-- The lines after a paragraph in which nothing is open are those from the next blank line on. -/
theorem splitBlock_blank (ms : List (List Char)) : splitBlock none ([] :: ms) = ([], [] :: ms) := rfl

/-- In an open element a blank line does not end the paragraph. -/
theorem splitBlock_open (e : OpenElement) (c : Char) (h : isBlank c = false) :
    splitBlock (some e) [[], [c]] = ([[], [c]], []) := by
  simp [splitBlock, allBlank, h]

/-! ### Paragraphs -/

def Paragraph.moveDown (n : Nat) (p : Paragraph) : Paragraph := ⟨p.startLine + n, p.source⟩

theorem moveDown_zero (ps : List Paragraph) : ps.map (Paragraph.moveDown 0) = ps :=
  List.map_id'' (fun _ => rfl) ps

theorem paragraphsFrom_add (n k : Nat) (ls : List (List Char)) :
    paragraphsFrom (n + k) ls = (paragraphsFrom n ls).map (Paragraph.moveDown k) := by
  fun_induction paragraphsFrom n ls with
  | case1 n => rw [paragraphsFrom]; rfl
  | case2 n l ls hblank ih => rw [paragraphsFrom, if_pos hblank, Nat.add_right_comm, ih]
  | case3 n l ls hblank block ih =>
    rw [paragraphsFrom, if_neg hblank, List.map_cons, ← ih]
    simp only [Paragraph.moveDown, block, Nat.add_right_comm]

theorem paragraphsFrom_ne_nil (n : Nat) (ls : List (List Char)) (c : Char) (h : isBlank c = false) :
    paragraphsFrom n (ls ++ [[], [c]]) ≠ [] := by
  induction ls generalizing n with
  | nil => simp [paragraphsFrom, allBlank, h]
  | cons l ls ih =>
    rw [List.cons_append, paragraphsFrom]
    split
    · exact ih (n + 1)
    · simp

/-- A paragraph that has gone on over a blank line is not just a full stop. -/
theorem lineContent_ne_stop (l : List Char) (ls : List (List Char)) :
    lineContent (joinWith '\n' (l :: (ls ++ [[], ['.']]))) ≠ ['.'] := by
  have hjoin : joinWith '\n' ((l :: ls) ++ [[], ['.']]) = joinWith '\n' (l :: ls) ++ ['\n', '\n', '.'] :=
    joinWith_append '\n' (by simp) (by simp)
  rw [← List.cons_append, hjoin, lineContent]
  intro heq
  have hlength := congrArg List.length heq
  simp at hlength

/-- When a full stop would be a paragraph of its own, the lines after a blank line are paragraphs of their
own. -/
theorem paragraphsFrom_append (n : Nat) (ls ms : List (List Char))
    (h : (paragraphsFrom n (ls ++ [[], ['.']])).getLast?.map Paragraph.source = some ['.']) :
    paragraphsFrom n (ls ++ [] :: ms) = paragraphsFrom n ls ++ paragraphsFrom (n + ls.length + 1) ms := by
  fun_induction paragraphsFrom n ls with
  | case1 n => rw [List.nil_append, paragraphsFrom]; rfl
  | case2 n l ls hblank ih =>
    rw [List.cons_append, paragraphsFrom, if_pos hblank] at h ⊢
    rw [ih h, List.length_cons, Nat.add_right_comm n 1, Nat.add_assoc n _ 1]
  | case3 n l ls hblank block ih =>
    rw [List.cons_append, paragraphsFrom, if_neg hblank] at h ⊢
    simp only [block] at ih ⊢
    generalize (OpenElement.leading? l).bind (·.after? l) = open? at h ih ⊢
    -- either this paragraph reaches the end of the first text, or the rest of it has the full stop
    by_cases hend : (splitBlock open? ls).2 = []
    · rw [splitBlock_continue hend] at h ⊢
      cases hopen : openAfter open? ls with
      | none =>
        rw [splitBlock_blank, fst_splitBlock hend, hend, paragraphsFrom]
        simp only [allBlank, List.all_nil, if_true, List.append_nil, List.length_cons, paragraphsFrom,
          List.cons_append, List.nil_append]
        congr 2
        omega
      | some e =>
        rw [hopen, splitBlock_open e '.' rfl] at h
        simp only [paragraphsFrom, List.getLast?_singleton, Option.map_some, Option.some.injEq] at h
        exact absurd h (lineContent_ne_stop l ls)
    · rw [splitBlock_append hend] at h ⊢
      have hlast := paragraphsFrom_ne_nil (n + 1 + (splitBlock open? ls).1.length)
        (splitBlock open? ls).2 '.' rfl
      rw [List.getLast?_cons_of_ne_nil hlast] at h
      have hlength := congrArg List.length (append_splitBlock open? ls)
      rw [List.length_append] at hlength
      dsimp only
      rw [ih h, List.cons_append, List.length_cons]
      congr 3
      omega

/-- The paragraphs of two texts, between which there is a blank line. -/
theorem paragraphs_append {above : List Char} (below : List Char)
    (h : (paragraphs (above ++ ['\n', '\n', '.'])).getLast?.map Paragraph.source = some ['.']) :
    paragraphs (above ++ ['\n', '\n'] ++ below) =
      paragraphs above ++ (paragraphs below).map (Paragraph.moveDown (newlines above + 2)) := by
  have hstop : splitLines (above ++ ['\n', '\n', '.']) = splitLines above ++ [[], ['.']] := by
    simpa [splitLines, cut, onFirst] using splitLines_append above ['.']
  rw [paragraphs, hstop] at h
  have hlines := paragraphsFrom_append 0 (splitLines above) (splitLines below) h
  rw [paragraphs, splitLines_append, hlines, length_splitLines, Nat.add_assoc, Nat.add_assoc,
    paragraphsFrom_add]
  rfl

end TaggedProse
