import TaggedProse.Text.Lines
import TaggedProse.Inline.TagsIn
/-!
Paragraphs of a document. A paragraph is a run of lines that are not blank. When its first line
begins with a tag that opens an element, blank lines belong to it too until as many tags of that
name have closed as have opened; after that it ends before the next blank line.

A carriage return before a newline is white space here like any other, and is left out at the end of
a paragraph.
-/
namespace TaggedProse

structure Paragraph where
  startLine : Nat
  source : List Char
  deriving DecidableEq, Repr

/-- An element that keeps a paragraph open, and how many of its name are open. -/
structure OpenElement where
  name : List Char
  depth : Int
  deriving DecidableEq, Repr

/-- The element that a first line opens, before its tags are counted. -/
def OpenElement.leading? (line : List Char) : Option OpenElement :=
  ((TagSpan.scan? (trimLeft line)).filter TagSpan.opens).map fun t => ⟨t.name, 0⟩

def OpenElement.after? (line : List Char) (e : OpenElement) : Option OpenElement :=
  let depth := e.depth + balance e.name line
  if depth ≤ 0 then none else some { e with depth }

/-- The lines that belong to a paragraph in which `open?` is open, and those after it. -/
def splitBlock (open? : Option OpenElement) : List (List Char) → List (List Char) × List (List Char)
  | [] => ([], [])
  | l :: ls =>
    if open?.isNone && allBlank l then ([], l :: ls)
    else
      let (more, rest) := splitBlock (open?.bind (·.after? l)) ls
      (l :: more, rest)

theorem append_splitBlock (open? : Option OpenElement) (ls : List (List Char)) :
    (splitBlock open? ls).1 ++ (splitBlock open? ls).2 = ls := by
  induction ls generalizing open? with
  | nil => rfl
  | cons l ls ih =>
    rw [splitBlock]
    split
    · rfl
    · simp [ih]

/-- The paragraphs in some lines, the first of which is line `n` of the document. -/
def paragraphsFrom (n : Nat) : List (List Char) → List Paragraph
  | [] => []
  | l :: ls =>
    if allBlank l then paragraphsFrom (n + 1) ls
    else
      let block := splitBlock ((OpenElement.leading? l).bind (·.after? l)) ls
      ⟨n, lineContent (joinWith '\n' (l :: block.1))⟩ ::
        paragraphsFrom (n + 1 + block.1.length) block.2
termination_by ls => ls.length
decreasing_by
  · simp
  · have := congrArg List.length
      (append_splitBlock ((OpenElement.leading? l).bind (·.after? l)) ls)
    simp only [List.length_append, List.length_cons] at this ⊢
    omega

def paragraphs (document : List Char) : List Paragraph := paragraphsFrom 0 (splitLines document)

end TaggedProse
