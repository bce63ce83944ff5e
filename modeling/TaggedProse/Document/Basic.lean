import TaggedProse.Assembly.Elements
import TaggedProse.Document.Log
import TaggedProse.Inline.Lexer
import TaggedProse.Paragraph.Basic
/-!
Documents. Every paragraph is rendered, assembled and, if that succeeds, reported: its values with
their lines in the document, children before parents. A paragraph that fails reports nothing. A
document is parsed either up to the first paragraph that fails, or paragraph by paragraph whatever
happens to the others.
-/
namespace TaggedProse

structure Report where
  value : Value
  line : Nat

structure ParagraphResult where
  startLine : Nat
  /-- Its commands, or what is wrong with it and on which line of the document. -/
  result : Except Failure (List Command)
  reports : List Report
  log : List LogEntry

def reportsOf (notes : List (Nat × Nat)) (values : List Value) : List Report :=
  values.filterMap fun v => (notes.lookup v.id).map fun line => ⟨v, line⟩

def parseParagraph (rules : List Rule) (schema : Schema) (p : Paragraph) (ledger : Ledger) :
    ParagraphResult × Ledger :=
  let a := assemble schema ledger (render (tokenize rules p.source))
  let ignored := a.ignored.map LogEntry.ignoredMarkup
  match a.result with
  | .ok commands =>
    let values := commands.flatMap fun c => c.value.nodes
    (⟨p.startLine, .ok commands, reportsOf (a.ledger.notes p.startLine) values,
      ignored ++ [.parsed p.startLine commands.length]⟩, a.ledger.clear)
  | .error e =>
    let e : Failure := e.shift p.startLine
    (⟨p.startLine, .error e, [], ignored ++ [.failed p.startLine e.describe]⟩, a.ledger.clear)

/-- What became of a document up to its first faulty paragraph. -/
structure DocumentResult where
  result : Except Failure (List Command)
  reports : List Report
  log : List LogEntry

/-- Parses paragraphs in order and stops at the first that fails. -/
def parseUntilFailure (rules : List Rule) (schema : Schema) :
    List Paragraph → Ledger → DocumentResult × Ledger
  | [], ledger => (⟨.ok [], [], []⟩, ledger)
  | p :: ps, ledger =>
    let (first, ledger) := parseParagraph rules schema p ledger
    match first.result with
    | .error e => (⟨.error e, first.reports, first.log⟩, ledger)
    | .ok commands =>
      let (others, ledger) := parseUntilFailure rules schema ps ledger
      (⟨others.result.map (commands ++ ·), first.reports ++ others.reports, first.log ++ others.log⟩,
        ledger)

/-- Parses all paragraphs, whether or not some of them fail. -/
def parseAll (rules : List Rule) (schema : Schema) :
    List Paragraph → Ledger → List ParagraphResult × Ledger
  | [], ledger => ([], ledger)
  | p :: ps, ledger =>
    let (first, ledger) := parseParagraph rules schema p ledger
    let (others, ledger) := parseAll rules schema ps ledger
    (first :: others, ledger)

/-- The rules for documents: tags, then the standard rules. -/
def documentRules : List Rule := .tag :: Rule.standard

/-- Parses a document. Identities are given out from those that `ledger` has not given yet. -/
def parseDocument (rules : List Rule) (schema : Schema) (document : List Char) (ledger : Ledger) :
    DocumentResult × Ledger :=
  parseUntilFailure rules schema (paragraphs document) ledger.clear

def parseParagraphs (rules : List Rule) (schema : Schema) (document : List Char)
    (ledger : Ledger) : List ParagraphResult × Ledger :=
  parseAll rules schema (paragraphs document) ledger.clear

end TaggedProse
