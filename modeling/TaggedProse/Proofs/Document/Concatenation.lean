import TaggedProse.Proofs.Assembly.Conformance
import TaggedProse.Proofs.Document.Independence

/-! Documents compose. With a blank line between them, and no element left open at the end of the first,
both are parsed as they are alone, and the second further down. -/
namespace TaggedProse

/-- The paragraphs of both documents, one document after the other, and what becomes of them. No element is
open after the first document: a full stop would be a paragraph of its own there. -/
theorem parseParagraphs_append {above : List Char} (below : List Char)
    (h : (paragraphs (above ++ ['\n', '\n', '.'])).getLast?.map Paragraph.source = some ['.'])
    (rules : List Rule) (schema : Schema) (l l₁ l₂ : Ledger) :
    paragraphs (above ++ ['\n', '\n'] ++ below) =
        paragraphs above ++ (paragraphs below).map (Paragraph.moveDown (newlines above + 2)) ∧
      ∃ upper lower,
        (parseParagraphs rules schema (above ++ ['\n', '\n'] ++ below) l).1 = upper ++ lower ∧
        List.Forall₂ (ParagraphResult.Moved 0) (parseParagraphs rules schema above l₁).1 upper ∧
        List.Forall₂ (ParagraphResult.Moved (newlines above + 2))
          (parseParagraphs rules schema below l₂).1 lower := by
  have hparagraphs := paragraphs_append below h
  have hupper := moved_parseAll rules schema 0 (paragraphs above) l₁ l
  rw [moveDown_zero] at hupper
  -- The second document begins with the ledger that the first has left, which has no notes.
  have hlower := moved_parseAll rules schema (newlines above + 2) (paragraphs below) l₂
    (parseAll rules schema (paragraphs above) l.clear).2
  rw [clear_parseAll] at hlower
  refine ⟨hparagraphs, _, _, ?_, hupper, hlower⟩
  rw [parseParagraphs, hparagraphs, parseAll_append]

/-- The second of its paragraphs fails. -/
def failingDocument : List Char := "Ho\n\n<card>".toList

theorem parseParagraphs_append_failingDocument :
    (paragraphs ("Hi".toList ++ ['\n', '\n', '.'])).getLast?.map Paragraph.source = some ['.'] ∧
      (paragraphs ("Hi".toList ++ ['\n', '\n'] ++ failingDocument)).map Paragraph.startLine = [0, 2, 4] ∧
      ∃ upper lower,
        (parseParagraphs documentRules cardSchema ("Hi".toList ++ ['\n', '\n'] ++ failingDocument) {}).1 =
          upper ++ lower ∧
        List.Forall₂ (ParagraphResult.Moved 0)
          (parseParagraphs documentRules cardSchema "Hi".toList {}).1 upper ∧
        List.Forall₂ (ParagraphResult.Moved 2)
          (parseParagraphs documentRules cardSchema failingDocument {}).1 lower := by
  have hstop : (paragraphs ("Hi".toList ++ ['\n', '\n', '.'])).getLast?.map Paragraph.source = some ['.'] := by
    decide +kernel
  obtain ⟨-, hresults⟩ := parseParagraphs_append failingDocument hstop documentRules cardSchema {} {} {}
  exact ⟨hstop, by decide +kernel, hresults⟩

end TaggedProse
