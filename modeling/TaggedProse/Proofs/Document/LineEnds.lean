import TaggedProse.Proofs.Assembly.Conformance
import TaggedProse.Proofs.Document.Independence
import TaggedProse.Proofs.Document.Outcome
import TaggedProse.Proofs.Document.Spacing
import TaggedProse.Proofs.Paragraph.LineEnds

/-! Documents with line ends of two characters. If no tag goes on over a line end, it makes no difference to what a
document means, where its values stand and what is wrong with it. -/
namespace TaggedProse
variable {schema : Schema} {p p' : Paragraph} {ps ps' : List Paragraph} {l : Ledger} {r r' : ParagraphResult}
  {d d' : List Char}

/-! ### One paragraph -/

def Paragraph.reach (p : Paragraph) (schema : Schema) (l : Ledger) : Except Failure Progress :=
  (takeAll schema (sourceItems p.source) (start l)).mapError Prod.snd

namespace Reached

theorem startLine_eq (h : Reached p schema l r) : r.startLine = p.startLine := by cases h <;> rfl

theorem result_eq (h : Reached p schema l r) : r.result =
    ((p.reach schema l).bind (·.assembly.finish (newlines p.source))).mapError (·.shift p.startLine) := by
  cases h with
  | taken items finish | unfinished items finish =>
    rw [Paragraph.reach, items]
    simp only [Except.mapError, Except.bind, finish]
  | failed items =>
    rw [Paragraph.reach, items]
    rfl

theorem reports_eq (h : Reached p schema l r) : r.reports =
    ((p.reach schema l).bind fun g => (g.assembly.finish (newlines p.source)).map fun commands =>
      reportsOf (g.assembly.ledger.notes p.startLine) (commandNodes commands)).toOption.getD [] := by
  cases h with
  | taken items finish | unfinished items finish =>
    rw [Paragraph.reach, items]
    simp only [Except.mapError, Except.bind, finish]
    rfl
  | failed items =>
    rw [Paragraph.reach, items]
    rfl

/-- Where the items of two paragraphs lead to the same, the same comes of the paragraphs. -/
theorem sameAs (h : Reached p schema l r) (h' : Reached p' schema l r') (hstart : p'.startLine = p.startLine)
    (hlines : newlines p'.source = newlines p.source)
    (hreach : Parallel Progress.Matches (p.reach schema l) (p'.reach schema l)) : r.SameAs r' := by
  have hends : ∀ {g g' : Progress}, g.Matches g' → g'.assembly.ledger = g.assembly.ledger := by
    intro g g' hg
    rw [hg.assembly.others]
  constructor
  · rw [h.result_eq, h'.result_eq, hstart, hlines]
    generalize p.reach schema l = x, p'.reach schema l = x' at hreach
    cases hreach with
    | error e => rfl
    | ok related => exact congrArg (Except.mapError _) (related.assembly.finish_eq _)
  · rw [h.reports_eq, h'.reports_eq, hstart, hlines]
    generalize p.reach schema l = x, p'.reach schema l = x' at hreach
    cases hreach with
    | error e => rfl
    | ok related => simp only [Except.bind, related.assembly.finish_eq, hends related]

end Reached

theorem sameAs_parseParagraph (h : p.Matches p')
    (htags : ∀ token ∈ tokenize documentRules p.source, token.staysOnLine = true) (schema : Schema) (l : Ledger) :
    (parseParagraph documentRules schema p l).1.SameAs (parseParagraph documentRules schema p' l).1 := by
  refine (reached_parseParagraph schema p l).sameAs (reached_parseParagraph schema p' l) h.startLine
    h.source.newlines_eq ?_
  exact takeAll_matches (sourceItems_matches h.source h.plain htags) ⟨rfl, .refl l⟩

/-! ### All paragraphs -/

/-- The paragraphs begin on the same line, and the same has come of them but for the identities of the values: like
commands, or the same failure on the same line; and like values are reported on the same lines. -/
structure ParagraphResult.Agrees (r r' : ParagraphResult) : Prop where
  startLine : r'.startLine = r.startLine
  result : Parallel (List.Forall₂ fun c c' => c.alike c' = true) r.result r'.result
  reports : List.Forall₂ (fun x x' => x.value.alike x'.value = true ∧ x'.line = x.line) r.reports r'.reports

theorem ParagraphResult.SameAs.agrees {r₁ : ParagraphResult} (h : r.SameAs r₁) (hstart : r₁.startLine = r.startLine)
    (hmoved : r₁.Moved 0 r') : r.Agrees r' where
  startLine := hmoved.startLine.trans hstart
  result := by
    have hresult := hmoved.result
    rw [h.result] at hresult
    generalize r.result = x, r'.result = x' at hresult
    cases hresult with
    | ok alike => exact .ok alike
    | error item line => exact Located.ext item line ▸ .error _
  reports := by
    rw [← h.reports]
    exact hmoved.reports.imp fun x x' hx => ⟨hx.value, hx.line⟩

theorem parseAll_matches (h : List.Forall₂ Paragraph.Matches ps ps')
    (htags : ∀ p ∈ ps, ∀ token ∈ tokenize documentRules p.source, token.staysOnLine = true) (schema : Schema)
    (l l' : Ledger) : List.Forall₂ ParagraphResult.Agrees (parseAll documentRules schema ps l.clear).1
      (parseAll documentRules schema ps' l'.clear).1 := by
  induction h generalizing l l' with
  | nil => exact .nil
  | @cons p p' ps ps' hp _ ih =>
    obtain ⟨hfirst, hothers⟩ := List.forall_mem_cons.1 htags
    have hsame := sameAs_parseParagraph hp hfirst schema l.clear
    have hmoved := moved_parseParagraph documentRules schema 0 p' l l'
    have hstart : (parseParagraph documentRules schema p' l.clear).1.startLine =
        (parseParagraph documentRules schema p l.clear).1.startLine := by
      rw [(reached_parseParagraph schema p l.clear).startLine_eq,
        (reached_parseParagraph schema p' l.clear).startLine_eq, hp.startLine]
    rw [parseAll, parseAll]
    dsimp only
    -- both ledgers are left without notes, so that only their next identities differ
    rw [← clear_parseParagraph documentRules schema p, ← clear_parseParagraph documentRules schema p']
    exact .cons (hsame.agrees hstart hmoved) (ih hothers _ _)

/-! ### Documents -/

def crlf (s : List Char) : List Char := s.flatMap fun c => if c = '\n' then ['\r', '\n'] else [c]

theorem returned_crlf (s : List Char) : Returned s (crlf s) := by
  induction s with
  | nil => exact .nil
  | cons c s ih =>
    rw [crlf, List.flatMap_cons, ← crlf]
    split
    · next hc =>
      subst hc
      exact ih.newline
    · exact ih.cons c

/-- Carriage returns in front of some newlines make no difference to what becomes of the paragraphs of a document. -/
theorem parseParagraphs_returned (h : Returned d d') (hcr : '\r' ∉ d)
    (htags : ∀ p ∈ paragraphs d, ∀ token ∈ tokenize documentRules p.source, token.staysOnLine = true)
    (schema : Schema) (l l' : Ledger) :
    List.Forall₂ ParagraphResult.Agrees (parseParagraphs documentRules schema d l).1
      (parseParagraphs documentRules schema d' l').1 :=
  parseAll_matches (paragraphs_returned h hcr) htags schema l l'

/-- A document whose lines end in newlines, and no tag of which goes on over a line end, means what it means when its
lines end in carriage returns and newlines. -/
theorem parseParagraphs_crlf (hcr : '\r' ∉ d)
    (htags : ∀ p ∈ paragraphs d, ∀ token ∈ tokenize documentRules p.source, token.staysOnLine = true)
    (schema : Schema) (l l' : Ledger) :
    List.Forall₂ ParagraphResult.Agrees (parseParagraphs documentRules schema d l).1
      (parseParagraphs documentRules schema (crlf d) l').1 :=
  parseParagraphs_returned (returned_crlf d) hcr htags schema l l'

/-- Hard breaks of both kinds, a card that stays open over blank lines, and a tag that may not stand where it does. -/
def brokenLetter : List Char :=
  "Hi  \nyou\\\n there \n\n<card>\n\n<title>T &amp;\\\n x</title>\n</card>\n \n![a](u)\n&nope; <oops/>".toList

theorem parseParagraphs_brokenLetter :
    '\r' ∉ brokenLetter ∧
      (∀ p ∈ paragraphs brokenLetter, ∀ token ∈ tokenize documentRules p.source, token.staysOnLine = true) ∧
      (parseParagraphs documentRules cardSchema brokenLetter {}).1.map
        (fun r => (r.startLine, r.result.toBool, r.reports.map Report.line)) =
          [(0, true, [0]), (4, true, [6, 4]), (10, false, [])] ∧
      List.Forall₂ ParagraphResult.Agrees (parseParagraphs documentRules cardSchema brokenLetter {}).1
        (parseParagraphs documentRules cardSchema (crlf brokenLetter) {}).1 := by
  have hcr : '\r' ∉ brokenLetter := by decide
  have htags : ∀ p ∈ paragraphs brokenLetter, ∀ token ∈ tokenize documentRules p.source,
      token.staysOnLine = true := by decide +kernel
  exact ⟨hcr, htags, by decide +kernel, parseParagraphs_crlf hcr htags cardSchema {} {}⟩

end TaggedProse
