import TaggedProse.Proofs.Inline.Plain
import TaggedProse.Proofs.Paragraph.Segmentation

/-! Another line in the place of a line. If the two lines are the same to the cutting into paragraphs, only the
paragraph changes that the line belongs to. -/
namespace TaggedProse
variable {l l' s t u u' a b before after : List Char} {ls ms : List (List Char)} {open? : Option OpenElement}
  {n k : Nat}
  {p : Paragraph}

structure Interchangeable (l l' : List Char) : Prop where
  blank : allBlank l = allBlank l'
  leading : OpenElement.leading? l = OpenElement.leading? l'
  balance : ∀ name, balance name l = balance name l'

theorem Interchangeable.after?_eq (h : Interchangeable l l') (e : OpenElement) : e.after? l = e.after? l' := by
  rw [OpenElement.after?, OpenElement.after?, h.balance]

theorem Interchangeable.bind_after? (h : Interchangeable l l') (open? : Option OpenElement) :
    open?.bind (·.after? l) = open?.bind (·.after? l') := by
  cases open? with
  | none => rfl
  | some e => exact h.after?_eq e

/-- A block that takes in the line takes in the other one, and a block that ends before the line ends before the
other one. -/
theorem splitBlock_replace (h : Interchangeable l l') (open? : Option OpenElement) (ls ms : List (List Char)) :
    (∃ inner below, splitBlock open? (ls ++ l :: ms) = (ls ++ l :: inner, below) ∧
      splitBlock open? (ls ++ l' :: ms) = (ls ++ l' :: inner, below)) ∨
    ∃ first rest, ls = first ++ rest ∧ splitBlock open? (ls ++ l :: ms) = (first, rest ++ l :: ms) ∧
      splitBlock open? (ls ++ l' :: ms) = (first, rest ++ l' :: ms) := by
  induction ls generalizing open? with
  | nil =>
    rw [List.nil_append, List.nil_append, splitBlock, splitBlock, ← h.blank, ← h.bind_after?]
    by_cases hends : (open?.isNone && allBlank l) = true
    · rw [if_pos hends, if_pos hends]
      exact .inr ⟨[], [], rfl, rfl, rfl⟩
    · rw [if_neg hends, if_neg hends]
      exact .inl ⟨_, _, rfl, rfl⟩
  | cons first ls ih =>
    rw [List.cons_append, List.cons_append, splitBlock, splitBlock]
    by_cases hends : (open?.isNone && allBlank first) = true
    · rw [if_pos hends, if_pos hends]
      exact .inr ⟨[], first :: ls, rfl, rfl, rfl⟩
    · rw [if_neg hends, if_neg hends]
      rcases ih (open?.bind (·.after? first)) with ⟨inner, below, hold, hnew⟩ | ⟨more, rest, hls, hold, hnew⟩
      · rw [hold, hnew]
        exact .inl ⟨inner, below, rfl, rfl⟩
      · rw [hold, hnew]
        exact .inr ⟨first :: more, rest, by rw [hls]; rfl, rfl, rfl⟩

theorem le_of_takes (hp : p ∈ paragraphsFrom n ls) (h : p.Takes k) : n ≤ k := by
  obtain ⟨before, -, -, -, -, hline, -⟩ := exists_of_mem_blocks (blocks_paragraphsFrom n ls) hp
  have hstart := h.1
  omega

/-- The line `l` between `ls` and `ms` belongs to the paragraph `p`, and with `l'` in its place no other paragraph
changes. -/
def ReplacedIn (l l' : List Char) (p : Paragraph) (n : Nat) (ls ms : List (List Char)) : Prop :=
  ∃ above start inner ps qs, ls = above ++ start ∧ n + above.length = p.startLine ∧
    p.source = lineContent (joinWith '\n' (start ++ l :: inner)) ∧
    paragraphsFrom n (ls ++ l :: ms) = ps ++ p :: qs ∧
    paragraphsFrom n (ls ++ l' :: ms) =
      ps ++ ⟨p.startLine, lineContent (joinWith '\n' (start ++ l' :: inner))⟩ :: qs

/-- Lines before the paragraph's, and the paragraphs in them, may be put in front. -/
theorem ReplacedIn.prepend (front : List (List Char)) (ps : List Paragraph) (hn : n + front.length = k)
    (h : ReplacedIn l l' p k ls ms)
    (hold : paragraphsFrom n (front ++ (ls ++ l :: ms)) = ps ++ paragraphsFrom k (ls ++ l :: ms))
    (hnew : paragraphsFrom n (front ++ (ls ++ l' :: ms)) = ps ++ paragraphsFrom k (ls ++ l' :: ms)) :
    ReplacedIn l l' p n (front ++ ls) ms := by
  obtain ⟨above, start, inner, qs, rs, rfl, hline, hsource, hfrom, hfrom'⟩ := h
  refine ⟨front ++ above, start, inner, ps ++ qs, rs, (List.append_assoc ..).symm, ?_, hsource, ?_, ?_⟩
  · rw [List.length_append, ← hline]
    omega
  · rw [List.append_assoc, hold, hfrom, List.append_assoc]
  · rw [List.append_assoc, hnew, hfrom', List.append_assoc]

/-- A paragraph begins with a visible line and takes in the lines of its block. -/
theorem paragraphsFrom_visible {first : List Char} {more below : List (List Char)} (hfirst : ¬allBlank first = true)
    (hblock : splitBlock ((OpenElement.leading? first).bind (·.after? first)) ls = (more, below)) :
    paragraphsFrom n (first :: ls) = ⟨n, lineContent (joinWith '\n' (first :: more))⟩ ::
      paragraphsFrom (n + 1 + more.length) below := by
  rw [paragraphsFrom, if_neg hfirst, hblock]

theorem replacedIn_nil (h : Interchangeable l l') (hp : p ∈ paragraphsFrom n (l :: ms)) (htakes : p.Takes n) :
    ReplacedIn l l' p n [] ms := by
  by_cases hblank : allBlank l = true
  · rw [paragraphsFrom, if_pos hblank] at hp
    exact absurd (le_of_takes hp htakes) (by omega)
  · cases hblock : splitBlock ((OpenElement.leading? l).bind (·.after? l)) ms with
    | mk inner below =>
      have hblock' := hblock
      rw [h.leading, h.bind_after?] at hblock'
      have hold := paragraphsFrom_visible (n := n) hblank hblock
      have hnew := paragraphsFrom_visible (n := n) (h.blank ▸ hblank) hblock'
      rw [hold] at hp
      rcases List.mem_cons.1 hp with rfl | hp
      · exact ⟨[], [], inner, [], _, rfl, rfl, rfl, hold, hnew⟩
      · exact absurd (le_of_takes hp htakes) (by omega)

/-- The line is in the paragraph that begins with `first`. -/
theorem replacedIn_first {first : List Char} {inner below : List (List Char)} (hfirst : ¬allBlank first = true)
    (hold : splitBlock ((OpenElement.leading? first).bind (·.after? first)) (ls ++ l :: ms) =
      (ls ++ l :: inner, below))
    (hnew : splitBlock ((OpenElement.leading? first).bind (·.after? first)) (ls ++ l' :: ms) =
      (ls ++ l' :: inner, below))
    (hp : p ∈ paragraphsFrom n (first :: ls ++ l :: ms)) (htakes : p.Takes (n + (first :: ls).length)) :
    ReplacedIn l l' p n (first :: ls) ms := by
  have hfrom := paragraphsFrom_visible (n := n) hfirst hold
  have hfrom' := paragraphsFrom_visible (n := n) hfirst hnew
  have hlength : (ls ++ l' :: inner).length = (ls ++ l :: inner).length := by simp
  rw [hlength] at hfrom'
  rw [List.cons_append, hfrom] at hp
  rcases List.mem_cons.1 hp with rfl | hp
  · exact ⟨[], first :: ls, inner, [], _, rfl, rfl, rfl, hfrom, hfrom'⟩
  · have hbelow := le_of_takes hp htakes
    simp only [List.length_append, List.length_cons] at hbelow
    omega

/-- The line is behind the paragraph that begins with `first`. -/
theorem mem_paragraphsFrom_of_takes {first : List Char} {more : List (List Char)}
    (hnone : ∀ m ∈ first :: more, newlines m = 0)
    (hp : p ∈ ⟨n, lineContent (joinWith '\n' (first :: more))⟩ :: paragraphsFrom k ls)
    {j : Nat} (htakes : p.Takes j) (hj : n + (1 + more.length) ≤ j) : p ∈ paragraphsFrom k ls := by
  refine (List.mem_cons.1 hp).resolve_left ?_
  rintro rfl
  have hends := htakes.2
  rw [height_block hnone n] at hends
  dsimp only at hends
  omega

/-- The paragraph that the line `l` belongs to is the only one that changes. -/
theorem replacedIn_of_takes (h : Interchangeable l l') (hnone : ∀ m ∈ ls ++ l :: ms, newlines m = 0)
    (hp : p ∈ paragraphsFrom n (ls ++ l :: ms)) (htakes : p.Takes (n + ls.length)) : ReplacedIn l l' p n ls ms := by
  induction hlength : ls.length using Nat.strong_induction_on generalizing n ls with
  | _ k ih =>
    subst hlength
    cases ls with
    | nil => exact replacedIn_nil h hp htakes
    | cons first ls =>
      by_cases hblank : allBlank first = true
      · have hskip : ∀ ls', paragraphsFrom n (first :: ls') = paragraphsFrom (n + 1) ls' := by
          intro ls'
          rw [paragraphsFrom, if_pos hblank]
        rw [List.cons_append, hskip] at hp
        rw [List.length_cons, ← Nat.add_assoc, Nat.add_right_comm] at htakes
        have hrest := ih _ (Nat.lt_succ_self _) (List.forall_mem_cons.1 hnone).2 hp htakes rfl
        exact .prepend [first] [] rfl hrest (hskip _) (hskip _)
      · rcases splitBlock_replace h ((OpenElement.leading? first).bind (·.after? first)) ls ms with
          ⟨inner, below, hold, hnew⟩ | ⟨more, rest, rfl, hold, hnew⟩
        · exact replacedIn_first hblank hold hnew hp htakes
        · -- the paragraph of `first` ends before the line
          have hfrom := paragraphsFrom_visible (n := n) hblank hold
          have hfrom' := paragraphsFrom_visible (n := n) hblank hnew
          rw [List.cons_append, List.append_assoc, ← List.cons_append] at hnone
          obtain ⟨hmore, hbelow⟩ := List.forall_mem_append.1 hnone
          rw [List.cons_append, hfrom] at hp
          simp only [List.length_cons, List.length_append] at htakes
          have hin := mem_paragraphsFrom_of_takes hmore hp htakes (by omega)
          have hstart : n + (more.length + rest.length + 1) = n + 1 + more.length + rest.length := by omega
          rw [hstart] at htakes
          have hshorter : rest.length < (first :: (more ++ rest)).length := by
            simp only [List.length_cons, List.length_append]
            omega
          have hrest := ih _ hshorter hbelow hin htakes rfl
          rw [List.append_assoc] at hfrom hfrom'
          refine .prepend (first :: more) [_] ?_ hrest hfrom hfrom'
          rw [List.length_cons]
          omega

/-! ### The document -/

/-- The lines of a text in which `u` stands between `s` and `t`. -/
theorem splitLines_between (hu : newlines u = 0) (s t : List Char) : splitLines (s ++ (u ++ t)) =
    (splitLines s).dropLast ++ (lastLine s ++ (u ++ firstLine t)) :: (splitLines t).tail := by
  have hfirst := splitLines_append_left hu (splitLines_eq_cons t)
  rw [splitLines_append_eq, firstLine, hfirst]
  rfl

theorem splitLines_after (hs : lastLine s = []) (t : List Char) :
    splitLines (s ++ t) = (splitLines s).dropLast ++ splitLines t := by
  rw [splitLines_append_eq, hs, List.nil_append, ← splitLines_eq_cons]

theorem lineContent_eq_self_iff : lineContent s = s ↔ s.getLast? ≠ some '\r' := by
  unfold lineContent
  split
  · next hlast =>
    refine iff_of_false (fun h => ?_) (not_not_intro hlast)
    have hlength := congrArg List.length h
    have hpos := List.length_pos_of_mem (List.mem_of_getLast? hlast)
    rw [List.length_dropLast] at hlength
    omega
  · next hlast => exact iff_of_true rfl hlast

/-- A paragraph's source after something in it has been replaced, if it does not end in a carriage return now. -/
theorem lineContent_replace
    (hcr : (a ++ (u ++ b)).getLast? ≠ some '\r' → (a ++ (u' ++ b)).getLast? ≠ some '\r')
    (h : lineContent (a ++ (u ++ t)) = a ++ (u ++ b)) : lineContent (a ++ (u' ++ t)) = a ++ (u' ++ b) := by
  obtain ⟨cr, hends, heq⟩ := exists_lineContent_append (a ++ (u ++ t))
  rw [h, List.append_assoc, List.append_assoc] at heq
  obtain rfl := List.append_cancel_left (List.append_cancel_left heq)
  rcases hends with rfl | rfl
  · rw [List.append_nil] at h ⊢
    exact lineContent_eq_self_iff.2 (hcr (lineContent_eq_self_iff.1 h))
  · rw [← List.append_assoc u', ← List.append_assoc a, lineContent_append_cr]

/-- Something in a line of a paragraph is replaced. -/
theorem exists_paragraphs_replace (hbefore : lastLine before = []) (hu : newlines u = 0) (hu' : newlines u' = 0)
    (hcr : (a ++ (u ++ b)).getLast? ≠ some '\r' → (a ++ (u' ++ b)).getLast? ≠ some '\r')
    (h : Interchangeable (lastLine a ++ (u ++ firstLine (b ++ after))) (lastLine a ++ (u' ++ firstLine (b ++ after))))
    (hp : ⟨newlines before, a ++ (u ++ b)⟩ ∈ paragraphs (before ++ (a ++ (u ++ b) ++ after))) :
    ∃ ps qs, paragraphs (before ++ (a ++ (u ++ b) ++ after)) = ps ++ ⟨newlines before, a ++ (u ++ b)⟩ :: qs ∧
      paragraphs (before ++ (a ++ (u' ++ b) ++ after)) = ps ++ ⟨newlines before, a ++ (u' ++ b)⟩ :: qs := by
  have hlines : ∀ w, newlines w = 0 → splitLines (before ++ (a ++ (w ++ b) ++ after)) =
      ((splitLines before).dropLast ++ (splitLines a).dropLast) ++
        (lastLine a ++ (w ++ firstLine (b ++ after))) :: (splitLines (b ++ after)).tail := by
    intro w hw
    rw [splitLines_after hbefore, List.append_assoc a, List.append_assoc w, splitLines_between hw, List.append_assoc]
  have hnone := newlines_of_mem_splitLines (before ++ (a ++ (u ++ b) ++ after))
  rw [paragraphs, hlines u hu] at hp ⊢
  rw [paragraphs, hlines u' hu']
  rw [hlines u hu] at hnone
  have hlength : ((splitLines before).dropLast ++ (splitLines a).dropLast).length = newlines before + newlines a := by
    rw [List.length_append, length_dropLast_splitLines, length_dropLast_splitLines]
  have htakes : Paragraph.Takes ⟨newlines before, a ++ (u ++ b)⟩
      (0 + ((splitLines before).dropLast ++ (splitLines a).dropLast).length) := by
    rw [hlength, Paragraph.Takes, Paragraph.height]
    simp only [newlines_append]
    omega
  obtain ⟨above, start, inner, ps, qs, hsplit, hline, hsource, hold, hnew⟩ := replacedIn_of_takes h hnone hp htakes
  have habove : (splitLines before).dropLast.length = above.length := by
    rw [length_dropLast_splitLines]
    simpa using hline.symm
  obtain ⟨-, rfl⟩ := List.append_inj hsplit habove
  have hjoin : ∀ w, joinWith '\n' ((splitLines a).dropLast ++ (lastLine a ++ (w ++ firstLine (b ++ after))) :: inner) =
      a ++ (w ++ joinWith '\n' (firstLine (b ++ after) :: inner)) := by
    intro w
    have hfirst := joinWith_overlap '\n' [] w (firstLine (b ++ after)) inner
    rw [joinWith_overlap, ← splitLines_eq_concat, joinWith_splitLines, ← List.nil_append ((w ++ _) :: _), hfirst]
    rfl
  rw [hjoin] at hsource hnew
  rw [lineContent_replace hcr hsource.symm] at hnew
  exact ⟨ps, qs, hold, hnew⟩

end TaggedProse
