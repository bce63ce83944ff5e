import TaggedProse.Document.Registry
import TaggedProse.Schema.Source
import TaggedProse.Proofs.Record
import TaggedProse.Proofs.Schema.Conformance
import TaggedProse.Proofs.Assembly.Invariant
import TaggedProse.Proofs.Assembly.Conformance
import TaggedProse.Proofs.Element.Tree
import TaggedProse.Proofs.Ledger
import TaggedProse.Proofs.Element.Evaluation
import TaggedProse.Proofs.Element.Simulation
import TaggedProse.Proofs.Element.Refinement
import TaggedProse.Proofs.Text.Lines
import TaggedProse.Proofs.Inline.Tag
import TaggedProse.Proofs.Text.Glyph
import TaggedProse.Proofs.Inline.Pieces
import TaggedProse.Proofs.Paragraph.Items
import TaggedProse.Proofs.Paragraph.Reading
import TaggedProse.Proofs.Assembly.Text
import TaggedProse.Proofs.Paragraph.Assembling
import TaggedProse.Proofs.Element.Nesting
import TaggedProse.Proofs.Assembly.Lines
import TaggedProse.Proofs.Assembly.Faults
import TaggedProse.Proofs.Paragraph.Segments
import TaggedProse.Proofs.Paragraph.Outcome
import TaggedProse.Proofs.Element.Places
import TaggedProse.Proofs.Document.Reports
import TaggedProse.Proofs.Document.Outcome
import TaggedProse.Proofs.Document.Tags
import TaggedProse.Proofs.Document.Texts
import TaggedProse.Proofs.Value.Renumbering
import TaggedProse.Proofs.Assembly.Renumbering
import TaggedProse.Proofs.Document.Independence
import TaggedProse.Proofs.Document.Concatenation
import TaggedProse.Proofs.Schema.Names
import TaggedProse.Proofs.Value.Walk
import TaggedProse.Proofs.Assembly.Accounts
import TaggedProse.Proofs.Document.Accounts
import TaggedProse.Proofs.Document.FailFast
import TaggedProse.Proofs.Paragraph.Spans
import TaggedProse.Proofs.Document.Markup
import TaggedProse.Proofs.Inline.Prose
import TaggedProse.Proofs.Inline.TagsIn
import TaggedProse.Proofs.Paragraph.Segmentation
import TaggedProse.Proofs.Paragraph.Tags
import TaggedProse.Proofs.Document.Remembering
import TaggedProse.Proofs.Text.Decoding
import TaggedProse.Proofs.Paragraph.Syntax
import TaggedProse.Proofs.Document.Plain
import TaggedProse.Proofs.Element.Bare
import TaggedProse.Proofs.Element.Completeness
import TaggedProse.Proofs.Text.Escaping
import TaggedProse.Proofs.Document.Backslash
import TaggedProse.Proofs.Paragraph.Newlines
import TaggedProse.Proofs.Inline.Names
import TaggedProse.Proofs.Inline.Kinds
import TaggedProse.Proofs.Document.Squeezing
import TaggedProse.Proofs.Text.Invisible
import TaggedProse.Proofs.Inline.Spacing
import TaggedProse.Proofs.Inline.Extent
import TaggedProse.Proofs.Inline.Positions
import TaggedProse.Proofs.Inline.Blanks
import TaggedProse.Proofs.Paragraph.Replacing
import TaggedProse.Proofs.Paragraph.Gaps
import TaggedProse.Proofs.Paragraph.Spacing
import TaggedProse.Proofs.Document.Spacing
import TaggedProse.Proofs.Assembly.Frames
import TaggedProse.Proofs.Assembly.Chunks
import TaggedProse.Proofs.Assembly.Breaks
import TaggedProse.Proofs.Inline.Literals
import TaggedProse.Proofs.Inline.Grammar
import TaggedProse.Proofs.Xml.Attribute
import TaggedProse.Proofs.Document.Images
import TaggedProse.Proofs.Element.Rearranging
import TaggedProse.Proofs.Text.LineEnds
import TaggedProse.Proofs.Assembly.LineEnds
import TaggedProse.Proofs.Inline.LineEnds
import TaggedProse.Proofs.Paragraph.LineEnds
import TaggedProse.Proofs.Document.LineEnds
import TaggedProse.Proofs.Schema.Compiling
import TaggedProse.Proofs.Text.Passage
import TaggedProse.Proofs.Text.Trimming
import TaggedProse.Proofs.Schema.FieldType
import TaggedProse.Proofs.Text.Bytes
import TaggedProse.Proofs.Inline.Offsets
import TaggedProse.Proofs.Paragraph.Offsets
import TaggedProse.Proofs.Assembly.FirstLines
import TaggedProse.Proofs.Text.LineIndex
