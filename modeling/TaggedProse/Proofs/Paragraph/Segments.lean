import TaggedProse.Proofs.Paragraph.Blocks

/-! Paragraphs are slices of their document, one after the other, and begin on the line that they say. -/
namespace TaggedProse
variable {s first document : List Char} {ls more : List (List Char)} {n : Nat} {p : Paragraph}
  {ps : List Paragraph}

def EndsLine (s : List Char) : Prop :=
  ∃ cr, (cr = [] ∨ cr = ['\r']) ∧ (s = cr ∨ ∃ rest, s = cr ++ '\n' :: rest)

/-- The paragraphs are slices of `s`, one after the other, each of them whole lines. A paragraph's first line
is as many lines down as there are newlines before it; there are `n` before `s`. -/
inductive Slices : Nat → List Char → List Paragraph → Prop
  | nil (n : Nat) (s : List Char) : Slices n s []
  | cons {n : Nat} {gap rest : List Char} {p : Paragraph} {ps : List Paragraph}
      (starts : gap = [] ∨ gap.getLast? = some '\n') (line : n + newlines gap = p.startLine)
      (ends : EndsLine rest) (next : Slices (p.startLine + newlines p.source) rest ps) :
      Slices n (gap ++ p.source ++ rest) (p :: ps)

theorem Slices.prepend {front s : List Char} (hfront : front.getLast? = some '\n')
    (h : Slices (n + newlines front) s ps) : Slices n (front ++ s) ps := by
  cases h with
  | nil => exact .nil n _
  | @cons _ gap rest p ps starts line ends next =>
    rw [← List.append_assoc, ← List.append_assoc]
    refine .cons ?_ (by rw [newlines_append, ← Nat.add_assoc]; exact line) ends next
    rcases starts with rfl | hgap
    · rw [List.append_nil]
      exact .inr hfront
    · rw [List.getLast?_append, hgap]
      exact .inr rfl

theorem Slices.front {source rest : List Char} (ends : EndsLine rest)
    (next : Slices (n + newlines source) rest ps) : Slices n (source ++ rest) (⟨n, source⟩ :: ps) :=
  @Slices.cons n [] rest ⟨n, source⟩ ps (.inl rfl) rfl ends next

def Paragraph.height (p : Paragraph) : Nat := newlines p.source + 1

theorem height_block (hls : ∀ l ∈ first :: more, newlines l = 0) (n : Nat) :
    Paragraph.height ⟨n, lineContent (joinWith '\n' (first :: more))⟩ = 1 + more.length := by
  rw [Paragraph.height, newlines_lineContent, newlines_joinWith hls, List.length_cons, Nat.add_sub_cancel,
    Nat.add_comm]

theorem slices_of_blocks (h : Blocks n ls ps) (hls : ∀ l ∈ ls, newlines l = 0) :
    Slices n (joinWith '\n' ls) ps := by
  induction h with
  | nil n => exact .nil n _
  | @blank n l ls ps hblank hrest ih =>
    obtain ⟨hl, hls⟩ := List.forall_mem_cons.1 hls
    cases ls with
    | nil =>
      cases hrest
      exact .nil n _
    | cons l' ls =>
      rw [joinWith, List.append_cons]
      refine Slices.prepend (by simp) ?_
      rw [newlines_append, hl]
      exact ih hls
  | @block n first more after ps hblock hrest ih =>
    have hmore : ∀ l ∈ first :: more, newlines l = 0 := fun l hl => hls l (by
      rw [← List.cons_append]
      exact List.mem_append_left _ hl)
    have hafter : ∀ l ∈ after, newlines l = 0 := fun l hl => hls l (by simp [hl])
    obtain ⟨cr, hcr, hsource⟩ := exists_lineContent_append (joinWith '\n' (first :: more))
    have hheight := height_block hmore n
    rw [Paragraph.height, Nat.add_comm, Nat.add_right_inj] at hheight
    rw [← List.cons_append]
    cases hcase : after with
    | nil =>
      subst hcase
      cases hrest
      rw [List.append_nil]
      have hslice := Slices.front ⟨cr, hcr, .inl rfl⟩
        (.nil (n + newlines (lineContent (joinWith '\n' (first :: more)))) cr)
      rwa [hsource] at hslice
    | cons l' ls =>
      have hnext : Slices (n + newlines (lineContent (joinWith '\n' (first :: more))))
          (cr ++ '\n' :: joinWith '\n' after) ps := by
        have hcr' : newlines cr = 0 := by rcases hcr with rfl | rfl <;> rfl
        rw [List.append_cons]
        refine Slices.prepend (by simp) ?_
        rw [newlines_append, hcr', hheight, Nat.add_right_comm]
        exact ih hafter
      have hslice := Slices.front ⟨cr, hcr, .inr ⟨_, rfl⟩⟩ hnext
      rwa [← List.append_assoc, hsource, hcase, ← joinWith_append '\n' (by simp) (by simp)] at hslice

theorem slices_paragraphs (document : List Char) : Slices 0 document (paragraphs document) := by
  have hslices := slices_of_blocks (blocks_paragraphsFrom 0 (splitLines document))
    (newlines_of_mem_splitLines document)
  rwa [joinWith_splitLines] at hslices

/-! ### A single paragraph -/

def Paragraph.StandsAt (p : Paragraph) (n : Nat) (s : List Char) : Prop :=
  ∃ before after, s = before ++ p.source ++ after ∧ n + newlines before = p.startLine

theorem Slices.standsAt (h : Slices n s ps) (hp : p ∈ ps) : p.StandsAt n s := by
  induction h with
  | nil => cases hp
  | @cons n gap rest q ps starts line ends next ih =>
    rcases List.mem_cons.1 hp with rfl | hp
    · exact ⟨gap, rest, rfl, line⟩
    · obtain ⟨before, after, rfl, hline⟩ := ih hp
      refine ⟨gap ++ q.source ++ before, after, by simp, ?_⟩
      rw [newlines_append, newlines_append]
      omega

theorem standsAt_of_mem_paragraphs (h : p ∈ paragraphs document) : p.StandsAt 0 document :=
  (slices_paragraphs document).standsAt h

end TaggedProse
