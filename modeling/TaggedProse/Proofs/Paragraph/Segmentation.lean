import TaggedProse.Proofs.Paragraph.Segments

/-! How a document is cut into paragraphs. Nothing is lost or put elsewhere: paragraphs are slices of the
document in order, each line that is not blank is in one of them, and blank lines stand in a paragraph only as
long as the element that its first line opens is open. -/
namespace TaggedProse
variable {name l first : List Char} {ls more after : List (List Char)} {n : Nat}
  {p : Paragraph} {ps : List Paragraph} {document : List Char}

/-! ### The lines of a paragraph -/

def contents (s : List Char) : List (List Char) := (splitLines s).map lineContent

def Paragraph.lines (document : List Char) (p : Paragraph) : List (List Char) :=
  ((contents document).drop p.startLine).take p.height

theorem map_alone_tagsIn_lineContent (l : List Char) :
    (tagsIn (lineContent l)).map TagSpan.alone = (tagsIn l).map TagSpan.alone := by
  obtain ⟨cr, hcr, heq⟩ := exists_lineContent_append l
  have hgt : '>' ∉ cr := by rcases hcr with rfl | rfl <;> decide
  rw [← map_alone_tagsIn_append hgt, heq]

theorem excess_map_lineContent (name : List Char) (ls : List (List Char)) :
    excess name (ls.map lineContent) = excess name ls := by
  induction ls with
  | nil => rfl
  | cons l ls ih =>
    rw [List.map_cons, excess, excess, ih, ← surplus_map_alone, map_alone_tagsIn_lineContent, surplus_map_alone]

theorem leadsWith_iff : LeadsWith name l ↔
    ∃ t, (TagSpan.scan? (trimLeft l)).map TagSpan.alone = some t ∧ t.opens = true ∧ t.name = name := by
  constructor
  · rintro ⟨t, hscan, hopens, hname⟩
    exact ⟨t.alone, by rw [hscan]; rfl, hopens, hname⟩
  · rintro ⟨t, hscan, hopens, hname⟩
    obtain ⟨t', hscan', rfl⟩ := Option.map_eq_some_iff.1 hscan
    exact ⟨t', hscan', hopens, hname⟩

theorem leadsWith_lineContent (h : allBlank l = false) : LeadsWith name (lineContent l) ↔ LeadsWith name l := by
  rw [← allBlank_lineContent] at h
  obtain ⟨cr, hcr, heq⟩ := exists_lineContent_append l
  have hgt : '>' ∉ cr := by rcases hcr with rfl | rfl <;> decide
  have htrim : trimLeft l = trimLeft (lineContent l) ++ cr := by
    have hvisible : (lineContent l).dropWhile isBlank ≠ [] := by
      intro hnil
      rw [allBlank, List.all_eq_true.2 (List.dropWhile_eq_nil_iff.1 hnil)] at h
      cases h
    calc
      trimLeft l = trimLeft (lineContent l ++ cr) := by rw [heq]
      _ = trimLeft (lineContent l) ++ cr := by
        rw [trimLeft, List.dropWhile_append, if_neg (by simpa using hvisible)]
        rfl
  rw [leadsWith_iff, leadsWith_iff, htrim, map_alone_scan?_append hgt]

/-- Carriage returns at the ends of lines make no difference. -/
theorem IsBlock.map_lineContent (h : IsBlock first more after) :
    IsBlock (lineContent first) (more.map lineContent) (after.map lineContent) := by
  have hexcess : ∀ name j, excess name (lineContent first :: (more.map lineContent).take j) =
      excess name (first :: more.take j) := by
    intro name j
    rw [← List.map_take, ← List.map_cons, excess_map_lineContent]
  have hleads : ∀ name, LeadsWith name (lineContent first) ↔ LeadsWith name first :=
    fun name => leadsWith_lineContent h.visible
  have hline : ∀ (k : Nat) line, (more.map lineContent)[k]? = some line →
      ∃ l, more[k]? = some l ∧ allBlank line = allBlank l := by
    intro k line hk
    rw [List.getElem?_map] at hk
    obtain ⟨l, hl, rfl⟩ := Option.map_eq_some_iff.1 hk
    exact ⟨l, hl, allBlank_lineContent l⟩
  refine ⟨by rw [allBlank_lineContent]; exact h.visible, ?_, ?_, ?_, ?_⟩
  · rcases h.ends with rfl | ⟨line, rest, rfl, hblank⟩
    · exact .inl rfl
    · exact .inr ⟨_, _, rfl, by rw [allBlank_lineContent]; exact hblank⟩
  · intro k line hk hblank
    obtain ⟨l, hl, heq⟩ := hline k line hk
    simp only [hleads, hexcess]
    exact h.held k l hl (heq ▸ hblank)
  · intro name hname j hj k line hjk hk
    obtain ⟨l, hl, heq⟩ := hline k line hk
    rw [hleads] at hname
    rw [hexcess] at hj
    rw [heq]
    exact h.settled name hname j hj k l hjk hl
  · intro hne name hname
    rw [hleads] at hname
    simp only [hexcess, List.length_map]
    exact h.closed (by simpa using hne) name hname

/-! ### Paragraphs -/

def Paragraph.Takes (p : Paragraph) (k : Nat) : Prop := p.startLine ≤ k ∧ k < p.startLine + p.height

theorem existsUnique_of_blocks (h : Blocks n ls ps) (hls : ∀ l ∈ ls, newlines l = 0) {k : Nat}
    (hk : ls[k]? = some l) (hvisible : allBlank l = false) : ∃! p, p ∈ ps ∧ p.Takes (n + k) := by
  induction h generalizing k with
  | nil n => cases hk
  | @blank n l' ls ps hblank hrest ih =>
    obtain ⟨-, hls⟩ := List.forall_mem_cons.1 hls
    cases k with
    | zero =>
      cases hk
      rw [hblank] at hvisible
      cases hvisible
    | succ k =>
      rw [← Nat.add_assoc, Nat.add_right_comm]
      exact ih hls hk
  | @block n first more after ps hblock hrest ih =>
    have hmore : ∀ l ∈ first :: more, newlines l = 0 := fun l hl => hls l (by
      rw [← List.cons_append]
      exact List.mem_append_left _ hl)
    have hheight := height_block hmore n
    by_cases hin : k < 1 + more.length
    · refine ⟨_, ⟨List.mem_cons_self, Nat.le_add_right n k, ?_⟩, ?_⟩
      · rw [hheight]
        dsimp only
        omega
      · rintro q ⟨hq, htakes⟩
        rcases List.mem_cons.1 hq with rfl | hq
        · rfl
        · obtain ⟨before, -, -, -, -, hline, -⟩ := exists_of_mem_blocks hrest hq
          have := htakes.1
          omega
    · obtain ⟨i, rfl⟩ := Nat.exists_eq_add_of_le (Nat.le_of_not_lt hin)
      rw [← List.cons_append, List.getElem?_append_right (by rw [List.length_cons]; omega),
        List.length_cons, Nat.add_comm 1, Nat.add_sub_cancel_left] at hk
      obtain ⟨q, ⟨hq, htakes⟩, hunique⟩ := ih (fun l hl => hls l (by simp [hl])) hk
      rw [Nat.add_assoc n, Nat.add_assoc n] at htakes hunique
      refine ⟨q, ⟨List.mem_cons_of_mem _ hq, htakes⟩, ?_⟩
      rintro q' ⟨hq', htakes'⟩
      rcases List.mem_cons.1 hq' with rfl | hq'
      · have := htakes'.2
        rw [hheight] at this
        dsimp only at this
        omega
      · exact hunique q' ⟨hq', htakes'⟩

def Paragraph.IsBlockOf (document : List Char) (p : Paragraph) : Prop :=
  ∃ first more, p.lines document = first :: more ∧ p.height = more.length + 1 ∧
    p.source = lineContent (joinWith '\n' (((splitLines document).drop p.startLine).take p.height)) ∧
    IsBlock first more ((contents document).drop (p.startLine + p.height))

theorem isBlockOf_of_mem_paragraphs (h : p ∈ paragraphs document) : p.IsBlockOf document := by
  have hnone := newlines_of_mem_splitLines document
  obtain ⟨before, first, more, after, hlines, hstart, hsource, hblock⟩ :=
    exists_of_mem_blocks (blocks_paragraphsFrom 0 (splitLines document)) h
  rw [Nat.zero_add] at hstart
  rw [hlines] at hnone
  have hheight : p.height = more.length + 1 := by
    have hmore : ∀ l ∈ first :: more, newlines l = 0 := fun l hl => hnone l (by
      rw [← List.cons_append]
      exact List.mem_append_right _ (List.mem_append_left _ hl))
    have := height_block hmore p.startLine
    rwa [← hsource, Nat.add_comm] at this
  have hcontents : contents document =
      before.map lineContent ++ ((first :: more).map lineContent ++ after.map lineContent) := by
    rw [contents, hlines, ← List.cons_append, List.map_append, List.map_append]
  refine ⟨lineContent first, more.map lineContent, ?_, by rw [hheight, List.length_map], ?_, ?_⟩
  · rw [Paragraph.lines, hcontents, ← hstart, hheight, List.drop_left' (List.length_map _)]
    exact List.take_left' (by simp)
  · rw [hsource, hlines, ← hstart, hheight, List.drop_left, ← List.cons_append]
    rw [List.take_left' (by simp)]
  · rw [hcontents, ← hstart, hheight, ← List.append_assoc, List.drop_left' (by simp)]
    exact hblock.map_lineContent

/-- The paragraphs are slices of the document in order, each line that is not blank is in exactly one of them,
and each of them is a block. -/
structure Segments (document : List Char) (ps : List Paragraph) : Prop where
  slices : Slices 0 document ps
  ascending : ps.Pairwise fun p q => p.startLine < q.startLine
  covers : ∀ k line, (contents document)[k]? = some line → allBlank line = false →
    ∃! p, p ∈ ps ∧ p.Takes k
  blocks : ∀ p ∈ ps, p.IsBlockOf document

theorem segments_paragraphs (document : List Char) : Segments document (paragraphs document) := by
  have hnone := newlines_of_mem_splitLines document
  have hblocks := blocks_paragraphsFrom 0 (splitLines document)
  refine ⟨?_, pairwise_of_blocks hblocks, fun k line hk hvisible => ?_, fun p => isBlockOf_of_mem_paragraphs⟩
  · exact slices_paragraphs document
  · rw [contents, List.getElem?_map] at hk
    obtain ⟨l, hl, rfl⟩ := Option.map_eq_some_iff.1 hk
    rw [allBlank_lineContent] at hvisible
    have hunique := existsUnique_of_blocks hblocks hnone hl hvisible
    rwa [Nat.zero_add] at hunique

end TaggedProse
