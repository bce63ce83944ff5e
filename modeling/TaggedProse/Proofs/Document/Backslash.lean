import TaggedProse.Proofs.Document.Remembering
import TaggedProse.Proofs.Inline.Backslash
import TaggedProse.Proofs.Paragraph.OneText

/-! A line of prose whose punctuation is escaped. It comes out as it is, references apart: an escaped ampersand
begins a reference again when the lexer has taken the backslashes away. -/
namespace TaggedProse
variable {schema : Schema} {rules : List Rule} {s d : List Char} {field : String} {l : Ledger}

/-- A line that is not blank is the only paragraph of its document. -/
theorem paragraphs_line (hn : newlines s = 0) (hs : allBlank s = false) :
    paragraphs s = [⟨0, lineContent s⟩] := by
  rw [paragraphs, splitLines_of_newlines hn, paragraphsFrom, if_neg (Bool.eq_false_iff.1 hs)]
  simp [splitBlock, paragraphsFrom, joinWith]

theorem result_parseDocument_line (hn : newlines s = 0) (hs : allBlank s = false) (l : Ledger) :
    (parseDocument rules schema s l).1.result =
      (parseParagraph rules schema ⟨0, lineContent s⟩ l.clear).1.result := by
  rw [parseDocument, paragraphs_line hn hs, parseUntilFailure]
  cases hresult : (parseParagraph rules schema ⟨0, lineContent s⟩ l.clear).1.result with
  | error e => simp only [hresult]
  | ok commands => simp [hresult, parseUntilFailure, Except.map]

theorem proseCommands_append (hs : allBlank s = true) (d : List Char) :
    proseCommands field l (d ++ s) = proseCommands field l d := by
  have hblank : allBlank (d ++ s) = allBlank d := by
    rw [allBlank, allBlank, List.all_append, ← allBlank, ← allBlank, hs, Bool.and_true]
  rw [proseCommands, proseCommands, hblank, squeeze_append_of_allBlank hs]

/-- The carriage return at the end of a line is neither part of a reference nor of a command. -/
theorem proseCommands_lineContent (field : String) (l : Ledger) (s : List Char) :
    proseCommands field l (dereferenced (lineContent s)) = proseCommands field l (dereferenced s) ∧
      ∀ name, Refers (lineContent s) name ↔ Refers s name := by
  obtain ⟨cr, hcr, heq⟩ := exists_lineContent_append s
  have hamp : '&' ∉ cr := by rcases hcr with rfl | rfl <;> decide
  have hsemi : ';' ∉ cr := by rcases hcr with rfl | rfl <;> decide
  have hblank : allBlank cr = true := by rcases hcr with rfl | rfl <;> rfl
  constructor
  · conv => rhs; rw [← heq]
    rw [dereferenced_append hamp hsemi, proseCommands_append hblank]
  · intro name
    conv => rhs; rw [← heq]
    exact (refers_append_iff hamp hsemi).symm

theorem result_parseDocument_backslashed (hfield : schema.root.prose? = some field) (hn : newlines s = 0)
    (hs : allBlank s = false) (l : Ledger) :
    (parseDocument documentRules schema (backslashed s) l).1.result =
      match Xml.decode (escape .content (lineContent s)) with
      | .error e => .error ⟨.badReference e, 0⟩
      | .ok d => .ok (proseCommands field l.clear d) := by
  have hne : lineContent s ≠ [] := by
    intro hnil
    rw [← allBlank_lineContent, hnil] at hs
    cases hs
  have htokens : tokenize documentRules (lineContent (backslashed s)) = [.text (lineContent s)] := by
    rw [lineContent_backslashed, tokenize_backslashed (by rw [newlines_lineContent, hn]) hne]
  rw [result_parseDocument_line (by rw [newlines_backslashed, hn]) (by rw [allBlank_backslashed, hs])]
  exact result_parseParagraph_oneText hfield htokens hne l.clear

/-- An escaped line becomes the command for its text exactly if no reference is written in it. References are
replaced by the characters they denote, and it fails if one of them denotes none. -/
theorem parseDocument_backslashed (hfield : schema.root.prose? = some field) (hn : newlines s = 0)
    (hs : allBlank s = false) (l : Ledger) :
    ((∃ id, (parseDocument documentRules schema (backslashed s) l).1.result =
        .ok [⟨field, .text id (String.ofList (squeeze s))⟩]) ↔ ∀ name, ¬Refers s name) ∧
      ((∀ name, Refers s name → Denotes name) →
        (parseDocument documentRules schema (backslashed s) l).1.result =
          .ok (proseCommands field l.clear (dereferenced s))) ∧
      (¬(∀ name, Refers s name → Denotes name) →
        ∃ e, (parseDocument documentRules schema (backslashed s) l).1.result = .error ⟨.badReference e, 0⟩) := by
  have hresult := result_parseDocument_backslashed hfield hn hs l
  obtain ⟨hcommands, hrefers⟩ := proseCommands_lineContent field l.clear s
  have hdenoting : (∀ name, Refers s name → Denotes name) →
      (parseDocument documentRules schema (backslashed s) l).1.result =
        .ok (proseCommands field l.clear (dereferenced s)) := by
    intro h
    rw [hresult, decode_escape fun name hname => h name ((hrefers name).1 hname), ← hcommands]
  have hfailing : ¬(∀ name, Refers s name → Denotes name) →
      ∃ e, (parseDocument documentRules schema (backslashed s) l).1.result = .error ⟨.badReference e, 0⟩ := by
    intro h
    cases hd : Xml.decode (escape .content (lineContent s)) with
    | error e => exact ⟨e, by rw [hresult, hd]⟩
    | ok d =>
      have hall := (exists_decode_escape .content (lineContent s)).1 ⟨d, hd⟩
      exact absurd (fun name hname => hall name ((hrefers name).2 hname)) h
  refine ⟨⟨?_, fun hnone => ?_⟩, hdenoting, hfailing⟩
  · rintro ⟨id, hid⟩ name hname
    by_cases h : ∀ name, Refers s name → Denotes name
    · rw [hdenoting h, proseCommands] at hid
      split at hid
      · cases hid
      · -- the text of the command shows the reference
        simp only [Except.ok.injEq, List.cons.injEq, Command.mk.injEq, Value.text.injEq, true_and, and_true,
          String.ofList_inj] at hid
        exact squeeze_dereferenced_ne hname hid.2
    · obtain ⟨e, he⟩ := hfailing h
      rw [he] at hid
      cases hid
  · refine ⟨l.clear.next, ?_⟩
    rw [hdenoting fun name hname => absurd hname (hnone name), dereferenced_of_not_refers hnone, proseCommands,
      hs]
    rfl

/-- Everything here but words and spaces has a meaning in prose, or nearly. -/
def punctuatedLine : List Char := " <b>1 &lt 2; & \\*![a](u)  \"x\"; &copy;\r".toList

theorem parseDocument_punctuatedLine : cardSchema.root.prose? = some "text" ∧ newlines punctuatedLine = 0 ∧
    allBlank punctuatedLine = false ∧ (∀ name, ¬Refers punctuatedLine name) ∧
    ∃ id, (parseDocument documentRules cardSchema (backslashed punctuatedLine) {}).1.result =
      .ok [⟨"text", .text id "<b>1 &lt 2; & \\*![a](u) \"x\"; &copy;"⟩] := by
  have hfield : cardSchema.root.prose? = some "text" := by decide
  have hn : newlines punctuatedLine = 0 := by decide
  have hs : allBlank punctuatedLine = false := by decide
  have hnone : ∀ name, ¬Refers punctuatedLine name := by decide +kernel
  have htext : String.ofList (squeeze punctuatedLine) = "<b>1 &lt 2; & \\*![a](u) \"x\"; &copy;" := by
    decide +kernel
  rw [← htext]
  exact ⟨hfield, hn, hs, hnone, (parseDocument_backslashed hfield hn hs {}).1.2 hnone⟩

def escapedReference : List Char := "&amp;".toList

/-- It is read as a reference all the same. -/
theorem result_escapedReference : backslashed escapedReference = "\\&amp\\;".toList ∧
    newlines escapedReference = 0 ∧ allBlank escapedReference = false ∧ cardSchema.root.prose? = some "text" ∧
    String.ofList (squeeze escapedReference) = "&amp;" ∧
    (parseDocument documentRules cardSchema (backslashed escapedReference) {}).1.result =
      .ok [⟨"text", .text 0 "&"⟩] := by
  have hfield : cardSchema.root.prose? = some "text" := by decide
  have hn : newlines escapedReference = 0 := by decide
  have hs : allBlank escapedReference = false := by decide
  have hdecode : Xml.decode (escape .content (lineContent escapedReference)) = .ok ['&'] := by decide +kernel
  refine ⟨by decide, hn, hs, hfield, by decide +kernel, ?_⟩
  rw [result_parseDocument_backslashed hfield hn hs, hdecode]
  rfl

end TaggedProse
