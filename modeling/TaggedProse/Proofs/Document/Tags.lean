import TaggedProse.Proofs.Document.Values

/-! Tags keep their lines, from the document to the values and failures they lead to. -/
namespace TaggedProse
variable {schema : Schema} {document : List Char} {p : Paragraph} {r : ParagraphResult} {it : Item}

/-- What a paragraph's result tells of the lines of its tags. Values have the lines on which their tags
are written in the document, and so have the failures that are the fault of a tag; that the paragraph's
own element is closed out of place is told of its last line. -/
structure Paragraph.KeepsTagLines (p : Paragraph) (schema : Schema) (document : List Char)
    (r : ParagraphResult) : Prop where
  written : ∀ content line, .tag content line ∈ writtenItems p.source →
    StandsOn document (line + p.startLine) (BeginsTag content)
  values : p.PlacesValues schema r
  failure : ∀ e, r.result = .error e → r.reports = [] ∧ (e.item.concernsTag = true →
    ∃ content line, p.FailsAt schema (.tag content line) ⟨e.item, line⟩ ∧ e.line = line + p.startLine ∧
      (.tag content line ∈ writtenItems p.source ∨
        content = '/' :: paragraphTag.toList ∧ line = newlines p.source))

/-- The paragraph's own element is always opened. -/
theorem Paragraph.FailsAt.ne_opening {e : Failure} (h : p.FailsAt schema it e)
    (hit : it ∉ writtenItems p.source) : it = .tag ('/' :: paragraphTag.toList) (newlines p.source) := by
  obtain ⟨front, rest, l, g, hsplit, hfront, hfail⟩ := h
  obtain ⟨g₁, hopening⟩ := take_opening_paragraph schema l
  cases front with
  | nil =>
    cases hfront
    obtain ⟨rfl, -⟩ := List.cons.inj hsplit
    rw [hopening] at hfail
    cases hfail
  | cons first front =>
    have hmem : it ∈ writtenItems p.source ++ [.tag ('/' :: paragraphTag.toList) (newlines p.source)] := by
      rw [(List.cons.inj hsplit).2]
      simp
    rcases List.mem_append.1 hmem with hwritten | hlast
    · exact absurd hwritten hit
    · exact List.mem_singleton.1 hlast

theorem keepsTagLines_of_outcome (hs : schema.Sound) (hp : p ∈ paragraphs document)
    (h : p.Outcome schema r) : p.KeepsTagLines schema document r := by
  constructor
  case written =>
    intro content line hit
    have hstands := standsIn_of_mem_writtenItems hit
    exact (standsAt_of_mem_paragraphs hp).standsOn hstands fun s t hs => hs.append t
  case values => exact h.placesValues
  case failure =>
    intro e he
    cases h with
    | parsed => cases he
    | unclosed => cases he; exact ⟨rfl, fun hc => by cases hc⟩
    | @failed it e' log hfails =>
      cases he
      refine ⟨rfl, fun hc => ?_⟩
      obtain ⟨content, rfl⟩ := hfails.tag hs hc
      refine ⟨content, e'.line, hfails, rfl, ?_⟩
      by_cases hwritten : .tag content e'.line ∈ writtenItems p.source
      · exact .inl hwritten
      · exact .inr (Item.tag.inj (hfails.ne_opening hwritten))

/-- In every document, whatever is reported of a tag is reported on the line on which the tag stands. -/
theorem forall_keepsTagLines {d : Description} (h : d.compile = .ok schema) (document : List Char)
    (l : Ledger) :
    List.Forall₂ (fun p r => p.KeepsTagLines schema document r) (paragraphs document)
        (parseParagraphs documentRules schema document l).1 ∧
      (parseDocument documentRules schema document l).1 =
        upToFailure (parseParagraphs documentRules schema document l).1 := by
  have hs := Description.sound_of_compile h
  refine ⟨forall₂_parseAll (fun p hp l' => ?_) l, parseDocument_eq _ _ _ _⟩
  exact keepsTagLines_of_outcome hs hp (outcome_parseParagraph hs p l')

def cardDocument : List Char :=
  "Hi\n\n<card id=\"a\">\n<item/>\n <title>T</title>\n</card>".toList

theorem reports_cardDocument :
    (parseDocument documentRules cardSchema cardDocument {}).1.reports.map Report.line =
      [0, 2, 3, 3, 4, 2] := by
  decide +kernel

theorem forall_keepsTagLines_cardDocument : cardDescription.compile = .ok cardSchema ∧
    (parseDocument documentRules cardSchema cardDocument {}).1.reports.map Report.line = [0, 2, 3, 3, 4, 2] ∧
    List.Forall₂ (fun p r => p.KeepsTagLines cardSchema cardDocument r) (paragraphs cardDocument)
      (parseParagraphs documentRules cardSchema cardDocument {}).1 :=
  ⟨compile_cardDescription, reports_cardDocument,
    (forall_keepsTagLines compile_cardDescription cardDocument {}).1⟩

end TaggedProse
