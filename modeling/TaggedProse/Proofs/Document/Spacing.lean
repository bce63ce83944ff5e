import TaggedProse.Proofs.Assembly.Conformance
import TaggedProse.Proofs.Document.Independence
import TaggedProse.Proofs.Document.Outcome
import TaggedProse.Proofs.Paragraph.Replacing
import TaggedProse.Proofs.Paragraph.Spacing

/-! White space between the tags of an element with fields, in documents. More or less of it makes no difference to the
commands and to the lines that are reported. -/
namespace TaggedProse
variable {schema : Schema} {a b u u' source source' before after : List Char} {n : Nat} {l : Ledger} {g : Progress}
  {r r' : ParagraphResult} {results : List ParagraphResult} {commands : List Command}

/-! ### Results -/

structure ParagraphResult.SameAs (r r' : ParagraphResult) : Prop where
  result : r'.result = r.result
  reports : r'.reports = r.reports

theorem upToFailure_replace (h : r.SameAs r') (above below : List ParagraphResult) :
    (upToFailure (above ++ r' :: below)).result = (upToFailure (above ++ r :: below)).result ∧
      (upToFailure (above ++ r' :: below)).reports = (upToFailure (above ++ r :: below)).reports := by
  induction above with
  | nil =>
    rw [List.nil_append, List.nil_append, upToFailure, upToFailure, h.result, h.reports]
    cases r.result <;> exact ⟨rfl, rfl⟩
  | cons first above ih =>
    rw [List.cons_append, List.cons_append, upToFailure, upToFailure]
    cases first.result with
    | error e => exact ⟨rfl, rfl⟩
    | ok commands =>
      dsimp only
      rw [ih.1, ih.2]
      exact ⟨rfl, rfl⟩

/-- Where a document is parsed, every paragraph is. -/
theorem exists_ok_of_mem (h : (upToFailure results).result = .ok commands) (hr : r ∈ results) :
    ∃ own, r.result = .ok own := by
  induction results generalizing commands with
  | nil => cases hr
  | cons first results ih =>
    rw [upToFailure] at h
    cases hfirst : first.result with
    | error e => rw [hfirst] at h; cases h
    | ok own =>
      rw [hfirst] at h
      dsimp only at h
      cases hothers : (upToFailure results).result with
      | error e => rw [hothers] at h; cases h
      | ok others =>
        rcases List.mem_cons.1 hr with rfl | hr
        · exact ⟨own, hfirst⟩
        · exact ih hothers hr

theorem parseAll_append_cons (rules : List Rule) (schema : Schema) (ps qs : List Paragraph) (p : Paragraph)
    (l : Ledger) : (parseAll rules schema (ps ++ p :: qs) l).1 = (parseAll rules schema ps l).1 ++
      (parseParagraph rules schema p (parseAll rules schema ps l).2).1 ::
        (parseAll rules schema qs (parseParagraph rules schema p (parseAll rules schema ps l).2).2).1 := by
  rw [parseAll_append]
  rfl

/-! ### The paragraph -/

theorem exists_takeAll_of_ok (h : (parseParagraph documentRules schema ⟨n, source⟩ l).1.result = .ok commands) :
    ∃ g, takeAll schema (sourceItems source) (start l) = .ok g := by
  have hreached := reached_parseParagraph schema ⟨n, source⟩ l
  generalize (parseParagraph documentRules schema ⟨n, source⟩ l).1 = r at h hreached
  cases hreached with
  | taken hitems => exact ⟨_, hitems⟩
  | failed => cases h
  | unfinished hitems => exact ⟨_, hitems⟩

/-- Sources whose items lead to the same end have the same commands and the same reports, and leave the same ledger. -/
theorem parseParagraph_congr (hlines : newlines source' = newlines source)
    (h : takeAll schema (sourceItems source) (start l) = .ok g)
    (h' : takeAll schema (sourceItems source') (start l) = .ok g) :
    (parseParagraph documentRules schema ⟨n, source⟩ l).1.SameAs
        (parseParagraph documentRules schema ⟨n, source'⟩ l).1 ∧
      (parseParagraph documentRules schema ⟨n, source'⟩ l).2 =
        (parseParagraph documentRules schema ⟨n, source⟩ l).2 := by
  have hold := assemble_render schema source l
  have hnew := assemble_render schema source' l
  rw [newlines_render_tokenize isLiteral_of_mem_documentRules] at hold hnew
  rw [show takeAll schema (sourceItems source) { assembly := { ledger := l } } = _ from h] at hold
  rw [show takeAll schema (sourceItems source') { assembly := { ledger := l } } = _ from h', hlines] at hnew
  obtain ⟨hresult, hledger⟩ := hold
  obtain ⟨hresult', hledger'⟩ := hnew
  rw [snd_parseParagraph, snd_parseParagraph]
  dsimp only
  rw [hledger, hledger']
  refine ⟨?_, rfl⟩
  unfold parseParagraph
  dsimp only
  rw [hresult, hresult', hledger, hledger']
  cases g.assembly.finish (newlines source) <;> exact ⟨rfl, rfl⟩

/-! ### The line -/

theorem head?_firstLine {d : Char} (hd : d ≠ '\n') (h : source.head? = some d) :
    (firstLine source).head? = some d := by
  obtain ⟨rest, rfl⟩ := List.head?_eq_some_iff.1 h
  obtain ⟨ls, hls⟩ := exists_splitLines (d :: rest)
  rw [firstLine, hls, List.takeWhile_cons_of_pos (by simpa using hd)]
  rfl

/-- To the cutting into paragraphs it makes no difference how many blanks there are at a border. -/
theorem interchangeable_spaced (hb : TagSpan.Borders a b) (hu : allBlank u = true) (hu' : allBlank u' = true)
    (after : List Char) : Interchangeable (lastLine a ++ (u ++ firstLine (b ++ after)))
      (lastLine a ++ (u' ++ firstLine (b ++ after))) := by
  have hline : lastLine a ≠ [] → TagSpan.Borders (lastLine a) (firstLine (b ++ after)) := by
    intro hne
    refine (hb.of_suffix hne (lastLine_suffix a)).imp_right fun hhead => head?_firstLine (by decide) ?_
    rw [List.head?_append, hhead]
    rfl
  exact {
    blank := by
      rw [allBlank, allBlank, List.all_append, List.all_append, List.all_append, List.all_append, ← allBlank,
        ← allBlank, ← allBlank, ← allBlank, hu, hu']
    leading := (leading?_spaced hline hu).trans (leading?_spaced hline hu').symm
    balance := fun name => (balance_spaced hline hu name).trans (balance_spaced hline hu' name).symm }

/-! ### The document -/

/-- Spaces and tabs next to a tag of an element with fields, or on a blank line in such an element, may be added and
removed: the document is parsed to the same commands, with the same reports. The line has to end in a hard break as it
did, and the place may not become part of an image. -/
theorem parseDocument_spaced (hbefore : lastLine before = [])
    (hp : ⟨newlines before, a ++ (u ++ b)⟩ ∈ paragraphs (before ++ (a ++ (u ++ b) ++ after)))
    (gap : FieldGap schema a u b) (hu : ∀ d ∈ u, isPad d = true) (hu' : ∀ d ∈ u', isPad d = true)
    (hbreak : breaksAfter (lastLine a ++ (u ++ firstLine b)) = breaksAfter (lastLine a ++ (u' ++ firstLine b)))
    (himage : ¬InImage a u' b) (l : Ledger)
    (h : (parseDocument documentRules schema (before ++ (a ++ (u ++ b) ++ after)) l).1.result = .ok commands) :
    (parseDocument documentRules schema (before ++ (a ++ (u' ++ b) ++ after)) l).1.result = .ok commands ∧
      (parseDocument documentRules schema (before ++ (a ++ (u' ++ b) ++ after)) l).1.reports =
        (parseDocument documentRules schema (before ++ (a ++ (u ++ b) ++ after)) l).1.reports := by
  obtain ⟨hblank, hnone⟩ := forall_blank_iff.1 fun d hd => isBlank_of_isPad (hu d hd)
  obtain ⟨hblank', hnone'⟩ := forall_blank_iff.1 fun d hd => isBlank_of_isPad (hu' d hd)
  obtain ⟨ps, qs, hold, hnew⟩ := exists_paragraphs_replace hbefore hnone hnone' (gap.getLast?_ne_cr hu')
    (interchangeable_spaced (gap.borders hu) hblank hblank' after) hp
  rw [parseDocument_eq, parseParagraphs, hold, parseAll_append_cons] at h
  rw [parseDocument_eq, parseDocument_eq, parseParagraphs, parseParagraphs, hold, hnew, parseAll_append_cons,
    parseAll_append_cons]
  have hclear := clear_parseAll documentRules schema ps l
  generalize (parseAll documentRules schema ps l.clear).2 = l' at h hclear ⊢
  obtain ⟨own, hown⟩ := exists_ok_of_mem h (List.mem_append_right _ List.mem_cons_self)
  rw [← hclear] at hown h ⊢
  obtain ⟨g, hg⟩ := exists_takeAll_of_ok hown
  have hlines : newlines (a ++ (u' ++ b)) = newlines (a ++ (u ++ b)) := by
    simp only [newlines_append, hnone, hnone']
  obtain ⟨hsame, hledger⟩ := parseParagraph_congr hlines hg (takeAll_sourceItems_spaced gap hu hu' hbreak himage hg)
  rw [hledger]
  obtain ⟨hresult, hreports⟩ := upToFailure_replace hsame _ _
  exact ⟨hresult.trans h, hreports⟩

/-- The place behind the first `n` pieces of a paragraph, the last of which is a tag, with `k` pieces of prose behind
it. -/
def FieldGap.behind (n k : Nat) (y tag : List Char)
    (htag : ((pieces documentRules (a ++ (u ++ b))).take n).getLast?.map Match.token = some (.markup tag))
    (hprose : ∀ m ∈ ((pieces documentRules (a ++ (u ++ b))).drop n).take k, m.token.isProse = true)
    (hleft : a = ((pieces documentRules (a ++ (u ++ b))).take n).flatMap Match.source)
    (hright : b = y ++ (((pieces documentRules (a ++ (u ++ b))).drop n).drop k).flatMap Match.source)
    (hobject : (progressAfter schema ((pieces documentRules (a ++ (u ++ b))).take n)).toOption.any
      Progress.inObject = true) : FieldGap schema a u b where
  front := (pieces documentRules (a ++ (u ++ b))).take n
  gap := ((pieces documentRules (a ++ (u ++ b))).drop n).take k
  back := ((pieces documentRules (a ++ (u ++ b))).drop n).drop k
  x := []
  y := y
  pieces_eq := by rw [List.take_append_drop, List.take_append_drop]
  prose := hprose
  last := by
    intro m hm
    rw [hm] at htag
    rw [Option.some.inj htag]
    rfl
  left := hleft.trans (List.append_nil _).symm
  right := hright
  object := hobject
  beside := by
    obtain ⟨m, hm, htoken⟩ := Option.map_eq_some_iff.1 htag
    exact .afterTag hm htoken

def titledLines : List Char := "\n<title>x</title>\n</card>".toList

def titledGap : FieldGap cardSchema "<card>".toList [' '] titledLines :=
  .behind 1 1 ['\n'] "<card>".toList (by decide +kernel) (by decide +kernel) (by decide +kernel)
    (by decide +kernel) (by decide +kernel)

def titledDocument (blanks : List Char) : List Char :=
  "Hi\n\n".toList ++ ("<card>".toList ++ (blanks ++ titledLines) ++ "\n\nend".toList)

/-- In the place of one space there may be spaces between two tabs. -/
theorem parseDocument_titledDocument :
    ⟨2, "<card>".toList ++ ([' '] ++ titledLines)⟩ ∈ paragraphs (titledDocument [' ']) ∧
      ∃ commands, (parseDocument documentRules cardSchema (titledDocument [' ']) {}).1.result = .ok commands ∧
        (parseDocument documentRules cardSchema (titledDocument ['\t', ' ', ' ', '\t']) {}).1.result = .ok commands ∧
        (parseDocument documentRules cardSchema (titledDocument ['\t', ' ', ' ', '\t']) {}).1.reports =
          (parseDocument documentRules cardSchema (titledDocument [' ']) {}).1.reports := by
  have hparagraph : ⟨2, "<card>".toList ++ ([' '] ++ titledLines)⟩ ∈ paragraphs (titledDocument [' ']) := by
    decide +kernel
  have himage : ¬InImage "<card>".toList ['\t', ' ', ' ', '\t'] titledLines := by
    unfold InImage
    decide +kernel
  cases hresult : (parseDocument documentRules cardSchema (titledDocument [' ']) {}).1.result with
  | error e =>
    have hok : (parseDocument documentRules cardSchema (titledDocument [' ']) {}).1.result.toBool = true := by
      decide +kernel
    rw [hresult] at hok
    cases hok
  | ok commands =>
    exact ⟨hparagraph, commands, rfl, parseDocument_spaced (by decide) hparagraph titledGap (by simp [isPad])
      (by simp [isPad]) (by decide) himage {} hresult⟩

def nestedCard (blanks : List Char) : List Char :=
  "<card><title>![x](</title>".toList ++ (blanks ++ "<item><title>)</title></item></card>".toList)

/-- Two spaces behind the tag are a hard break, which is no field of a card; and without the space between its elements
a card has an image in its title. -/
theorem not_parseDocument_spaced :
    (Nonempty (FieldGap cardSchema "<card>".toList [] titledLines) ∧
      ⟨2, "<card>".toList ++ ([] ++ titledLines)⟩ ∈ paragraphs (titledDocument []) ∧
      (parseDocument documentRules cardSchema (titledDocument []) {}).1.result.toBool = true ∧
      (parseDocument documentRules cardSchema (titledDocument [' ', ' ']) {}).1.result.toBool = false) ∧
    Nonempty (FieldGap cardSchema "<card><title>![x](</title>".toList [' ']
        "<item><title>)</title></item></card>".toList) ∧
      ⟨0, nestedCard [' ']⟩ ∈ paragraphs (nestedCard [' ']) ∧
      (parseDocument documentRules cardSchema (nestedCard [' ']) {}).1.result.toBool = true ∧
      (parseDocument documentRules cardSchema (nestedCard []) {}).1.result.toBool = false := by
  refine ⟨⟨⟨?_⟩, by decide +kernel, by decide +kernel, by decide +kernel⟩, ⟨?_⟩, by decide +kernel,
    by decide +kernel, by decide +kernel⟩
  · exact .behind 1 0 [] "<card>".toList (by decide +kernel) (by decide +kernel) (by decide +kernel)
      (by decide +kernel) (by decide +kernel)
  · exact .behind 4 1 [] "</title>".toList (by decide +kernel) (by decide +kernel)
      (by decide +kernel) (by decide +kernel) (by decide +kernel)

end TaggedProse
