import Mathlib.Data.List.TakeWhile
import TaggedProse.Proofs.Inline.Plain
import TaggedProse.Proofs.Inline.TagsIn
import TaggedProse.Paragraph.Basic

/-! Without tags the paragraphs of a document are its maximal runs of lines that are not blank. -/
namespace TaggedProse
variable {ls : List (List Char)} {n : Nat} {r : Run}

structure Run where
  startLine : Nat
  lines : List (List Char)

def runsFrom (n : Nat) : List (List Char) → List Run
  | [] => []
  | l :: ls =>
    if allBlank l then runsFrom (n + 1) ls
    else
      let more := ls.takeWhile (!allBlank ·)
      ⟨n, l :: more⟩ :: runsFrom (n + 1 + more.length) (ls.dropWhile (!allBlank ·))
termination_by ls => ls.length
decreasing_by
  · simp
  · have := (List.dropWhile_suffix (l := ls) (!allBlank ·)).length_le
    simp only [List.length_cons]
    omega

def runs (document : List Char) : List Run := runsFrom 0 (splitLines document)

namespace Run

def text (r : Run) : String := String.ofList (joinWith '\n' ((hardPieces r.lines).map squeeze))

def paragraph (r : Run) : Paragraph := ⟨r.startLine, lineContent (joinWith '\n' r.lines)⟩

/-- Among some lines, the first of which is line `n`, there are as many lines before the run as it says. All of its
lines are visible, and the lines next to it are blank. -/
structure IsMaximal (n : Nat) (ls : List (List Char)) (r : Run) : Prop where
  stands : ∃ before after, ls = before ++ r.lines ++ after ∧ n + before.length = r.startLine ∧
    (∀ l ∈ before.getLast?, allBlank l = true) ∧ ∀ l ∈ after.head?, allBlank l = true
  nonempty : r.lines ≠ []
  visible : ∀ l ∈ r.lines, allBlank l = false

end Run

theorem isBlank_of_head?_dropWhile {l : List Char} (h : l ∈ (ls.dropWhile (!allBlank ·)).head?) :
    allBlank l = true := by
  have hstop := List.head?_dropWhile_not (!allBlank ·) ls
  rw [Option.mem_def.1 h] at hstop
  simpa using hstop

theorem Run.IsMaximal.prepend {before : List (List Char)} (h : r.IsMaximal (n + before.length) ls)
    (hborder : (∀ l ∈ before.getLast?, allBlank l = true) ∨ ∀ l ∈ ls.head?, allBlank l = true) :
    r.IsMaximal n (before ++ ls) := by
  obtain ⟨⟨front, after, rfl, hstart, hfront, hafter⟩, hne, hvisible⟩ := h
  refine ⟨⟨before ++ front, after, by simp, ?_, ?_, hafter⟩, hne, hvisible⟩
  · rw [← hstart, List.length_append, Nat.add_assoc]
  · cases front with
    | cons l front => rwa [List.getLast?_append_cons]
    | nil =>
      rw [List.append_nil]
      refine hborder.resolve_right fun hhead => ?_
      -- the first line of the run is visible
      obtain ⟨l, more, hlines⟩ := List.exists_cons_of_ne_nil hne
      rw [hlines] at hhead hvisible
      have hblank := hhead l rfl
      rw [hvisible l List.mem_cons_self] at hblank
      cases hblank

theorem isMaximal_of_mem_runsFrom (h : r ∈ runsFrom n ls) : r.IsMaximal n ls := by
  fun_induction runsFrom n ls with
  | case1 n => cases h
  | case2 n l ls hblank ih =>
    have hrest : r.IsMaximal (n + [l].length) ls := ih h
    refine hrest.prepend (.inl fun l' hl' => ?_)
    cases hl'
    exact hblank
  | case3 n l ls hblank more ih =>
    have hsplit : more ++ ls.dropWhile (!allBlank ·) = ls := List.takeWhile_append_dropWhile
    rcases List.mem_cons.1 h with rfl | h
    · refine ⟨⟨[], ls.dropWhile (!allBlank ·), ?_, rfl, by simp, fun _ => isBlank_of_head?_dropWhile⟩, by simp, ?_⟩
      · rw [List.nil_append, List.cons_append, hsplit]
      · refine List.forall_mem_cons.2 ⟨Bool.eq_false_iff.2 hblank, fun l hl => ?_⟩
        simpa using List.all_eq_true.1 List.all_takeWhile l hl
    · rw [← hsplit, ← List.cons_append]
      refine Run.IsMaximal.prepend ?_ (.inr fun _ => isBlank_of_head?_dropWhile)
      rw [List.length_cons, Nat.add_comm more.length, ← Nat.add_assoc]
      exact ih h

theorem leading?_eq_none {l : List Char} (h : '<' ∉ l) : OpenElement.leading? l = none := by
  have hscan : TagSpan.scan? (trimLeft l) = none := by
    have htrim : '<' ∉ trimLeft l := fun hmem => h ((List.dropWhile_suffix _).subset hmem)
    unfold TagSpan.scan?
    split
    · next heq => rw [heq] at htrim; simp at htrim
    · next heq => rw [heq] at htrim; simp at htrim
    · rfl
  rw [OpenElement.leading?, hscan]
  rfl

/-- With no element open a paragraph ends before the first blank line. -/
theorem splitBlock_none (ls : List (List Char)) :
    splitBlock none ls = (ls.takeWhile (!allBlank ·), ls.dropWhile (!allBlank ·)) := by
  induction ls with
  | nil => rfl
  | cons l ls ih =>
    rw [splitBlock]
    cases hblank : allBlank l with
    | true => simp [hblank]
    | false => simp [hblank, ih]

theorem paragraphsFrom_eq_runs (n : Nat) (h : ∀ l ∈ ls, '<' ∉ l) :
    paragraphsFrom n ls = (runsFrom n ls).map Run.paragraph := by
  fun_induction runsFrom n ls with
  | case1 n => rw [paragraphsFrom]; rfl
  | case2 n l ls hblank ih =>
    rw [paragraphsFrom, if_pos hblank, ih (List.forall_mem_cons.1 h).2]
  | case3 n l ls hblank more ih =>
    obtain ⟨hl, hls⟩ := List.forall_mem_cons.1 h
    rw [paragraphsFrom, if_neg hblank, leading?_eq_none hl]
    dsimp only [Option.bind_none]
    rw [splitBlock_none, ih fun l hl => hls l ((List.dropWhile_suffix _).subset hl)]
    rfl

end TaggedProse
