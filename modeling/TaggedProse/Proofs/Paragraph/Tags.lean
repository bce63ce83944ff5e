import Mathlib.Data.List.Infix
import TaggedProse.Proofs.Inline.Prose
import TaggedProse.Proofs.Paragraph.Segmentation

/-! Tags are found twice: line by line, where a document is cut into paragraphs, and in the pieces of a
paragraph. Where no piece misleads, both find the same tags on the same lines. -/
namespace TaggedProse
variable {s t u rest : List Char} {m : Match} {ms : List Match} {ls : List (List Char)} {n : Nat} {tag : TagSpan}
  {p : Paragraph} {document name : List Char}

def lineTags (n : Nat) : List (List Char) → List (Located TagSpan)
  | [] => []
  | l :: ls => ((tagsIn l).map TagSpan.alone).map (⟨·, n⟩) ++ lineTags (n + 1) ls

def Token.tag? : Token → Option TagSpan
  | .markup source => TagSpan.scan? source
  | _ => none

def pieceTags (n : Nat) : List Match → List (Located TagSpan)
  | [] => []
  | m :: ms => m.token.tag?.toList.map (⟨·, n⟩) ++ pieceTags (n + newlines m.source) ms

def lexedTags (source : List Char) : List (Located TagSpan) := pieceTags 0 (pieces documentRules source)

def beginsTag (s : List Char) : Bool := (TagSpan.scan? (s.takeWhile (· != '\n'))).isSome

/-- Whether a piece looks different line by line: it is a tag on several lines, or else an escape or an image in
which a tag seems to begin. -/
def Match.misleads (m : Match) : Bool :=
  match m.token with
  | .markup source => source.contains '\n'
  | token => token != .text m.source && m.source.tails.any fun b => !b.isEmpty && beginsTag (b ++ m.rest)

/-! ### Tags line by line -/

theorem lineTags_append (n : Nat) (ls ms : List (List Char)) :
    lineTags n (ls ++ ms) = lineTags n ls ++ lineTags (n + ls.length) ms := by
  induction ls generalizing n with
  | nil => rfl
  | cons l ls ih =>
    rw [List.cons_append, lineTags, lineTags, ih, List.append_assoc, List.length_cons, Nat.add_right_comm,
      Nat.add_assoc]

theorem lineTags_map_lineContent (n : Nat) (ls : List (List Char)) :
    lineTags n (ls.map lineContent) = lineTags n ls := by
  induction ls generalizing n with
  | nil => rfl
  | cons l ls ih => rw [List.map_cons, lineTags, lineTags, ih, map_alone_tagsIn_lineContent]

theorem line_of_mem_lineTags {t : Located TagSpan} (h : t ∈ lineTags n ls) : n ≤ t.line := by
  induction ls generalizing n with
  | nil => cases h
  | cons l ls ih =>
    rcases List.mem_append.1 h with h | h
    · obtain ⟨_, -, rfl⟩ := List.mem_map.1 h
      exact Nat.le_refl n
    · exact Nat.le_of_succ_le (ih h)

/-- The tags before line `n + k` are those of the first `k` lines. -/
theorem filter_lineTags (n k : Nat) (ls : List (List Char)) :
    (lineTags n ls).filter (·.line < n + k) = lineTags n (ls.take k) := by
  induction ls generalizing n k with
  | nil => rw [List.take_nil]; rfl
  | cons l ls ih =>
    cases k with
    | zero =>
      refine List.filter_eq_nil_iff.2 fun t ht => ?_
      have := line_of_mem_lineTags ht
      simpa using this
    | succ k =>
      rw [lineTags, List.take_succ_cons, lineTags, List.filter_append, ← ih (n + 1) k,
        List.filter_eq_self.2 (by simp), Nat.add_right_comm, Nat.add_assoc n]

theorem excess_eq_foldr (name : List Char) (ls : List (List Char)) :
    excess name ls = ls.foldr (fun l n => balance name l + n) 0 := by
  induction ls with
  | nil => rfl
  | cons l ls ih => rw [excess_cons, ih, List.foldr_cons]

/-- What is open after some lines can be told from their tags. -/
theorem surplus_lineTags (name : List Char) (n : Nat) (ls : List (List Char)) :
    surplus name ((lineTags n ls).map Located.item) = excess name ls := by
  induction ls generalizing n with
  | nil => rfl
  | cons l ls ih =>
    rw [lineTags, List.map_append, surplus_append, ih, excess_cons, balance_eq_surplus, List.map_map]
    exact congrArg (· + _) (by simp [Function.comp_def, surplus_map_alone])

/-- Without a `>` on it the end of the last line makes no difference. -/
theorem lineTags_splitLines_append (hgt : '>' ∉ u) (hu : newlines u = 0) (n : Nat) (s : List Char) :
    lineTags n (splitLines (s ++ u)) = lineTags n (splitLines s) := by
  have hlast : ∃ init last, splitLines s = init ++ [last] ∧ splitLines (s ++ u) = init ++ [last ++ u] := by
    induction s with
    | nil => exact ⟨[], [], rfl, splitLines_of_newlines hu⟩
    | cons c s ih =>
      obtain ⟨init, last, hs, hsu⟩ := ih
      by_cases hc : c = '\n'
      · exact ⟨[] :: init, last, by simp [hc, splitLines_newline_cons, hs],
          by simp [hc, splitLines_newline_cons, hsu]⟩
      · rw [List.cons_append, splitLines_cons_of_ne hc, splitLines_cons_of_ne hc, hs, hsu]
        cases init with
        | nil => exact ⟨[], c :: last, rfl, rfl⟩
        | cons l init => exact ⟨(c :: l) :: init, last, rfl, rfl⟩
  obtain ⟨init, last, hs, hsu⟩ := hlast
  rw [hs, hsu, lineTags_append, lineTags_append]
  simp only [lineTags, map_alone_tagsIn_append hgt]

theorem lineTags_splitLines_lineContent (n : Nat) (s : List Char) :
    lineTags n (splitLines (lineContent s)) = lineTags n (splitLines s) := by
  obtain ⟨cr, hcr, heq⟩ := exists_lineContent_append s
  have hgt : '>' ∉ cr := by rcases hcr with rfl | rfl <;> decide
  have hnone : newlines cr = 0 := by rcases hcr with rfl | rfl <;> rfl
  rw [← lineTags_splitLines_append hgt hnone, heq]

/-! ### Tags piece by piece -/

theorem lineTags_splitLines_tag (h : TagSpan.scan? s = some tag) (hn : newlines tag.source = 0) (n : Nat) :
    lineTags n (splitLines s) = ⟨tag.alone, n⟩ :: lineTags n (splitLines tag.rest) := by
  obtain ⟨ls, hls⟩ := exists_splitLines tag.rest
  have hscan := TagSpan.scan?_append h (tag.rest.takeWhile (· != '\n'))
  rw [← TagSpan.append_of_scan? h, splitLines_append_left hn hls, hls, lineTags, lineTags, tagsIn_of_scan? hscan]
  rfl

theorem lineTags_splitLines_cons (c : Char) (h : beginsTag (c :: s) = false) (n : Nat) :
    lineTags n (splitLines (c :: s)) = lineTags (n + newlines [c]) (splitLines s) := by
  by_cases hc : c = '\n'
  · subst hc
    rw [splitLines_newline_cons, lineTags, tagsIn]
    rfl
  · obtain ⟨ls, hls⟩ := exists_splitLines s
    have hline : newlines [c] = 0 := newlines_cons_of_ne hc []
    have hscan : TagSpan.scan? (c :: s.takeWhile (· != '\n')) = none := by
      simpa [beginsTag, hc] using h
    rw [← List.singleton_append, splitLines_append_left hline hls, hls, hline, lineTags, List.singleton_append,
      tagsIn_cons c hscan]
    rfl

/-- Where no tag begins on the way, going on makes no difference. -/
theorem lineTags_splitLines_skip (h : ∀ b, b ≠ [] → b <:+ s → beginsTag (b ++ rest) = false) (n : Nat) :
    lineTags n (splitLines (s ++ rest)) = lineTags (n + newlines s) (splitLines rest) := by
  induction s generalizing n with
  | nil => rfl
  | cons c s ih =>
    have hs : ∀ b, b ≠ [] → b <:+ s → beginsTag (b ++ rest) = false :=
      fun b hb hsuffix => h b hb (hsuffix.trans (List.suffix_cons c s))
    have hstep := lineTags_splitLines_cons c (h (c :: s) (List.cons_ne_nil c s) List.suffix_rfl) n
    have hcount : newlines (c :: s) = newlines [c] + newlines s := newlines_append [c] s
    rw [hcount, ← Nat.add_assoc, ← ih hs]
    exact hstep

theorem scan?_eq_none_of_beginsTag (h : TagSpan.scan? s = none) : beginsTag s = false := by
  unfold beginsTag
  cases hscan : TagSpan.scan? (s.takeWhile (· != '\n')) with
  | none => rfl
  | some t =>
    have hlonger := TagSpan.scan?_append hscan (t.rest ++ s.dropWhile (· != '\n'))
    rw [← List.append_assoc, TagSpan.append_of_scan? hscan, List.takeWhile_append_dropWhile, h] at hlonger
    cases hlonger

/-- A piece that is neither prose nor a tag misleads if a tag seems to begin in it. -/
theorem beginsTag_of_misleads (hmarkup : ∀ source, m.token ≠ .markup source) (htext : m.token ≠ .text m.source)
    (h : m.misleads = false) {b : List Char} (hb : b ≠ []) (hsuffix : b <:+ m.source) :
    beginsTag (b ++ m.rest) = false := by
  unfold Match.misleads at h
  split at h
  · next source htoken => exact absurd htoken (hmarkup source)
  · rw [Bool.and_eq_false_iff, bne_eq_false_iff_eq] at h
    have hnone := List.any_eq_false.1 (h.resolve_left htext) b ((List.mem_tails b m.source).2 hsuffix)
    simpa [hb] using hnone

theorem markup_or_text_of_scan {r : Rule} (hr : r ∈ [Rule.escape, .image, .lineBreak]) (h : r.scan s = some m) :
    (∀ source, m.token ≠ .markup source) ∧ m.token ≠ .text m.source := by
  simp only [List.mem_cons, List.not_mem_nil, or_false] at hr
  rcases hr with rfl | rfl | rfl
  · rw [Rule.scan] at h
    unfold scanEscape at h
    split at h
    · split at h
      · cases h
        simp
      · cases h
    · cases h
  · rw [Rule.scan] at h
    unfold scanImage at h
    split at h
    · split at h
      · cases h
      · next hbody =>
        cases h
        obtain ⟨-, url, alt, title, rfl, -⟩ := newlines_of_imageBody? hbody
        simp
    · cases h
  · rw [Rule.scan] at h
    unfold scanLineBreak at h
    obtain ⟨rest, -, rfl⟩ := Option.map_eq_some_iff.1 h
    simp

theorem nextPiece_tag (c : Char) (h : TagSpan.scan? (c :: s) = some tag) :
    nextPiece documentRules c s = ⟨.markup tag.source, tag.source, tag.rest⟩ := by
  rw [nextPiece, firstMatch_eq_findSome? isLiteral_of_mem_documentRules, documentRules, List.findSome?_cons,
    Rule.scan, scanTag, h]
  rfl

/-- The next piece where no tag begins. -/
theorem nextPiece_other (c : Char) (h : TagSpan.scan? (c :: s) = none)
    (hm : (nextPiece documentRules c s).misleads = false) :
    (nextPiece documentRules c s).token.tag? = none ∧
      ∀ b, b ≠ [] → b <:+ (nextPiece documentRules c s).source →
        beginsTag (b ++ (nextPiece documentRules c s).rest) = false := by
  rcases nextPiece_cases isLiteral_of_mem_documentRules c s with hmatch | ⟨-, hchar | hprose⟩
  · obtain ⟨r, hr, hscan⟩ := List.exists_of_findSome?_eq_some hmatch
    rw [rulesBeforeText_documentRules] at hr
    rcases List.mem_cons.1 hr with rfl | hr
    · rw [Rule.scan, scanTag, h] at hscan
      cases hscan
    · obtain ⟨hmarkup, htext⟩ := markup_or_text_of_scan hr hscan
      refine ⟨?_, fun b hb hsuffix => beginsTag_of_misleads hmarkup htext hm hb hsuffix⟩
      cases htoken : (nextPiece documentRules c s).token with
      | markup source => exact absurd htoken (hmarkup source)
      | _ => rfl
  · rw [hchar]
    refine ⟨rfl, fun b hb hsuffix => ?_⟩
    have hwhole : b = [c] :=
      (List.suffix_cons_iff.1 hsuffix).resolve_right fun hnil => hb (List.suffix_nil.1 hnil)
    rw [hwhole]
    exact scan?_eq_none_of_beginsTag h
  · -- a stretch of prose begins where no tag does, and stops in front of the next `<`
    rw [hprose]
    refine ⟨rfl, fun b hb hsuffix => ?_⟩
    rcases List.suffix_cons_iff.1 hsuffix with rfl | hsuffix
    · rw [List.cons_append, Rule.append_splitProse]
      exact scan?_eq_none_of_beginsTag h
    · have hscan := scan_eq_none_of_stopsProse (r := .tag) (stopsProse_of_suffix hb hsuffix) rfl (by decide)
      exact scan?_eq_none_of_beginsTag (Option.map_eq_none_iff.1 hscan)

theorem lineTags_splitLines (h : ∀ m ∈ pieces documentRules s, m.misleads = false) (n : Nat) :
    lineTags n (splitLines s) = pieceTags n (pieces documentRules s) := by
  fun_induction pieces documentRules s generalizing n with
  | case1 => rw [splitLines, cut, lineTags, tagsIn]; rfl
  | case2 c s m ih =>
    obtain ⟨hm, hms⟩ := List.forall_mem_cons.1 h
    have happend := (append_nextPiece documentRules c s).1
    rw [pieceTags, ← ih hms]
    -- a tag is on one line and counts there; no tag begins on the lines of any other piece
    cases hscan : TagSpan.scan? (c :: s) with
    | some tag =>
      have hpiece : m = _ := nextPiece_tag c hscan
      rw [hpiece] at hm ⊢
      have hline : newlines tag.source = 0 := by
        simpa [Match.misleads, newlines, List.count_eq_zero] using hm
      rw [lineTags_splitLines_tag hscan hline, Token.tag?, TagSpan.scan?_source hscan, hline]
      rfl
    | none =>
      obtain ⟨htag, hskip⟩ := nextPiece_other c hscan hm
      rw [← happend, lineTags_splitLines_skip hskip, htag]
      rfl

/-! ### Tags of a paragraph -/

theorem filterMap_tag?_joinText (ts : List Token) :
    (joinText ts).filterMap Token.tag? = ts.filterMap Token.tag? := by
  induction ts with
  | nil => rfl
  | cons t ts ih =>
    cases t with
    | text s =>
      rw [List.filterMap_cons_none rfl, ← ih]
      rcases joinText_text s ts with ⟨s', rest, hts, hjoin⟩ | ⟨-, hjoin⟩
      · rw [hjoin, hts, List.filterMap_cons_none rfl, List.filterMap_cons_none rfl]
      · rw [hjoin, List.filterMap_cons_none rfl]
    | _ => rw [joinText, List.filterMap_cons, List.filterMap_cons, ih]; simp

theorem map_item_pieceTags (n : Nat) (ms : List Match) :
    (pieceTags n ms).map Located.item = (joinText (ms.map Match.token)).filterMap Token.tag? := by
  rw [filterMap_tag?_joinText]
  induction ms generalizing n with
  | nil => rfl
  | cons m ms ih =>
    rw [pieceTags, List.map_append, ih, List.map_cons, List.filterMap_cons]
    cases m.token.tag? <;> rfl

theorem lineTags_lines (h : p ∈ paragraphs document) (n : Nat) :
    lineTags n (p.lines document) = lineTags n (splitLines p.source) := by
  obtain ⟨first, more, hlines, -, hsource, -⟩ := isBlockOf_of_mem_paragraphs h
  have hnone := newlines_of_mem_splitLines document
  have hmap : p.lines document = (((splitLines document).drop p.startLine).take p.height).map lineContent := by
    rw [Paragraph.lines, contents, ← List.map_drop, ← List.map_take]
  have hne : ((splitLines document).drop p.startLine).take p.height ≠ [] := by
    intro hnil
    rw [hmap, hnil] at hlines
    cases hlines
  rw [hsource, lineTags_splitLines_lineContent, splitLines_joinWith hne, hmap, lineTags_map_lineContent]
  exact fun l hl => hnone l (List.mem_of_mem_drop (List.mem_of_mem_take hl))

structure Paragraph.SameTags (document : List Char) (p : Paragraph) : Prop where
  tags : lineTags 0 (p.lines document) = lexedTags p.source
  balanced : ∀ name, (p.lines document).foldr (fun l n => balance name l + n) 0 =
    surplus name ((tokenize documentRules p.source).filterMap Token.tag?)
  /-- The paragraph ends before a blank line when the element of its first line has been closed by the tags that
  the lexer finds on the lines before. -/
  closes : ∀ first name, (p.lines document).head? = some first → LeadsWith name first →
    ∀ k line, 0 < k → k ≤ p.height → (contents document)[p.startLine + k]? = some line → allBlank line = true →
      (k = p.height ↔ ∃ j < k,
        surplus name (((lexedTags p.source).filter (·.line < j + 1)).map Located.item) ≤ 0)

theorem sameTags_of_mem_paragraphs (h : p ∈ paragraphs document)
    (hpieces : ∀ m ∈ pieces documentRules p.source, m.misleads = false) : p.SameTags document := by
  have htags : lineTags 0 (p.lines document) = lexedTags p.source :=
    (lineTags_lines h 0).trans (lineTags_splitLines hpieces 0)
  have hexcess : ∀ name k, surplus name (((lexedTags p.source).filter (·.line < k)).map Located.item) =
      excess name ((p.lines document).take k) := by
    intro name k
    have hfilter := filter_lineTags 0 k (p.lines document)
    rw [Nat.zero_add] at hfilter
    rw [← htags, hfilter, surplus_lineTags]
  refine ⟨htags, fun name => ?_, ?_⟩
  · rw [tokenize, ← map_item_pieceTags 0, ← lexedTags, ← htags, surplus_lineTags, excess_eq_foldr]
  · intro first name hfirst hleads k line hpos hk hline hblank
    obtain ⟨first', more, hlines, hheight, -, hblock⟩ := isBlockOf_of_mem_paragraphs h
    rw [hlines, List.head?_cons] at hfirst
    cases hfirst
    simp only [hexcess, hlines, List.take_succ_cons]
    constructor
    · rintro rfl
      have hafter : (contents document).drop (p.startLine + p.height) ≠ [] := by
        intro hnil
        have hlength := List.drop_eq_nil_iff.1 hnil
        rw [List.getElem?_eq_none hlength] at hline
        cases hline
      obtain ⟨j, hj, hclosed⟩ := hblock.closed hafter name hleads
      exact ⟨j, by omega, hclosed⟩
    · rintro ⟨j, hj, hclosed⟩
      by_contra hne
      have hinside : (p.lines document)[k]? = some line := by
        rw [Paragraph.lines, List.getElem?_take_of_lt (by omega), List.getElem?_drop]
        exact hline
      rw [hlines, ← Nat.succ_pred_eq_of_pos hpos, List.getElem?_cons_succ] at hinside
      have hvisible := hblock.settled name hleads j hclosed (k - 1) line (by omega) hinside
      rw [hblank] at hvisible
      cases hvisible

/-- A block that goes on over a blank line. It has an escaped `<` that no tag begins with. -/
def noteDocument : List Char :=
  "<note>\nless \\< more \\\n![c](d)\n\n<note/> <b\t>\n</note>\n\nend".toList

def noteParagraph : Paragraph := ⟨0, noteDocument.take 51⟩

theorem sameTags_noteParagraph :
    noteParagraph ∈ paragraphs noteDocument ∧
      (∀ m ∈ pieces documentRules noteParagraph.source, m.misleads = false) ∧
      noteParagraph.SameTags noteDocument := by
  have hmem : noteParagraph ∈ paragraphs noteDocument := by decide +kernel
  have hpieces : ∀ m ∈ pieces documentRules noteParagraph.source, m.misleads = false := by decide +kernel
  exact ⟨hmem, hpieces, sameTags_of_mem_paragraphs hmem hpieces⟩

/-- A block in which the closing tag is escaped once, before it stands there as a tag. -/
def escapedDocument : List Char := "<note>\n\\</note>\n\nend</note>".toList

def escapedParagraph : Paragraph := ⟨0, "<note>\n\\</note>".toList⟩

/-- The escaped tag closes the block, and is prose. -/
theorem escapedParagraph_mem_paragraphs :
    escapedParagraph ∈ paragraphs escapedDocument ∧
      (escapedParagraph.lines escapedDocument).foldr (fun l n => balance "note".toList l + n) 0 = 0 ∧
      surplus "note".toList ((tokenize documentRules escapedParagraph.source).filterMap Token.tag?) = 1 := by
  decide +kernel

end TaggedProse
