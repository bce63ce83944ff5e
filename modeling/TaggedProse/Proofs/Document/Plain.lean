import TaggedProse.Proofs.Document.Remembering
import TaggedProse.Proofs.Paragraph.Plain
import TaggedProse.Proofs.Paragraph.Runs

/-! A document of plain prose becomes one command for each run of lines. -/
namespace TaggedProse
variable {schema : Schema} {document s : List Char} {field : String} {r : Run} {rs : List Run}
  {results : List ParagraphResult}

def Run.ReportedBy (r : Run) (report : Report) : Prop :=
  report.line = r.startLine ∧ ∃ id, report.value = .text id r.text

def Run.Parsed (field : String) (r : Run) (result : ParagraphResult) : Prop :=
  ∃ report, r.ReportedBy report ∧ result.result = .ok [⟨field, report.value⟩] ∧ result.reports = [report]

theorem visibleLine?_of_newlines {line : Nat} (hn : newlines s = 0) (hs : allBlank s = false) :
    visibleLine? line s = some line := by
  have hsplit := congrArg newlines (List.takeWhile_append_dropWhile (p := isBlank) (l := s))
  rw [newlines_append, hn] at hsplit
  rw [visibleLine?_of_visible hs, (Nat.add_eq_zero_iff.1 hsplit).1, Nat.add_zero]

theorem plain_of_mem_splitLines (h : Plain document) : ∀ l ∈ splitLines document, Plain l := by
  intro l hl c hc
  have hmem : c ∈ (splitLines document).flatten := List.mem_flatten.2 ⟨l, hl, hc⟩
  rw [splitLines, flatten_cut] at hmem
  exact h c (List.mem_filter.1 hmem).1

theorem plain_joinWith {ls : List (List Char)} (h : ∀ l ∈ ls, Plain l) : Plain (joinWith '\n' ls) :=
  forall_mem_joinWith (by decide) h

theorem plain_lineContent (h : Plain s) : Plain (lineContent s) := by
  obtain ⟨cr, -, heq⟩ := exists_lineContent_append s
  rw [← heq] at h
  exact (List.forall_mem_append.1 h).1

namespace Run

theorem IsMaximal.subset (hr : r.IsMaximal 0 (splitLines document)) : r.lines ⊆ splitLines document := by
  obtain ⟨before, after, hsplit, -⟩ := hr.stands
  rw [hsplit]
  intro l hl
  simp [hl]

/-- The first visible character of a run is on its first line. -/
theorem IsMaximal.visibleLine? (hr : r.IsMaximal 0 (splitLines document)) :
    TaggedProse.visibleLine? 0 r.paragraph.source = some 0 := by
  have hnone := newlines_of_mem_splitLines document
  obtain ⟨l, more, hlines⟩ := List.exists_cons_of_ne_nil hr.nonempty
  have hl : l ∈ r.lines := by simp [hlines]
  have hline : TaggedProse.visibleLine? 0 l = some 0 :=
    visibleLine?_of_newlines (hnone l (hr.subset hl)) (hr.visible l hl)
  rw [paragraph, hlines]
  cases more with
  | nil =>
    exact visibleLine?_of_newlines ((newlines_lineContent l).trans (hnone l (hr.subset hl)))
      ((allBlank_lineContent l).trans (hr.visible l hl))
  | cons l' more =>
    dsimp only
    rw [joinWith, lineContent_append_newline, visibleLine?_append, hline]
    rfl

theorem IsMaximal.parsed (hr : r.IsMaximal 0 (splitLines document)) (h : Plain document)
    (hfield : schema.root.prose? = some field) (l : Ledger) :
    r.Parsed field (parseParagraph documentRules schema r.paragraph l.clear).1 := by
  have hplain : ∀ l ∈ r.lines, Plain l := fun l hl => plain_of_mem_splitLines h l (hr.subset hl)
  have hnone : ∀ l ∈ r.lines, newlines l = 0 := fun l hl => newlines_of_mem_splitLines document l (hr.subset hl)
  have hsource : Plain r.paragraph.source := plain_lineContent (plain_joinWith hplain)
  have htext : (plainProse r.paragraph.source).text = r.text := text_plainProse hr.nonempty hnone hplain hsource
  have htake := takeAll_sourceItems_plain hfield hsource hr.visibleLine? l.clear
  rw [htext] at htake
  have hreached := reached_parseParagraph schema r.paragraph l.clear
  generalize (parseParagraph documentRules schema r.paragraph l.clear).1 = result at hreached ⊢
  cases hreached with
  | taken hitems hfinish =>
    rw [htake] at hitems
    cases hitems
    cases hfinish
    refine ⟨⟨.text l.next r.text, r.startLine⟩, ⟨rfl, _, rfl⟩, rfl, ?_⟩
    simp [reportsOf, commandNodes, Value.nodes, Ledger.notes, Ledger.note, Ledger.clear, Value.id, paragraph]
  | failed hitems =>
    rw [htake] at hitems
    cases hitems
  | unfinished hitems hfinish =>
    rw [htake] at hitems
    cases hitems
    cases hfinish

end Run

/-- Commands and reports of paragraphs that have been parsed come one after another. -/
theorem upToFailure_parsed (h : List.Forall₂ (Run.Parsed field) rs results) :
    List.Forall₂ Run.ReportedBy rs (upToFailure results).reports ∧
      (upToFailure results).result = .ok ((upToFailure results).reports.map fun report => ⟨field, report.value⟩) := by
  induction h with
  | nil => exact ⟨.nil, rfl⟩
  | @cons r result rs results hr hrs ih =>
    obtain ⟨report, hreport, hresult, hreports⟩ := hr
    obtain ⟨hothers, hcommands⟩ := ih
    rw [upToFailure, hresult, hreports]
    refine ⟨.cons hreport hothers, ?_⟩
    dsimp only
    rw [hcommands]
    rfl

/-- A document without markup characters parses if the schema has a field for prose. It has one command for each
maximal run of visible lines, in order, with the text of the run, which is reported on the run's first line. -/
theorem parseDocument_plain (hfield : schema.root.prose? = some field) (h : Plain document) (l : Ledger) :
    List.Forall₂ Run.ReportedBy (runs document) (parseDocument documentRules schema document l).1.reports ∧
      (parseDocument documentRules schema document l).1.result =
        .ok ((parseDocument documentRules schema document l).1.reports.map fun report => ⟨field, report.value⟩) := by
  have hbracket : ∀ line ∈ splitLines document, '<' ∉ line := by
    intro line hline hmem
    cases plain_of_mem_splitLines h line hline '<' hmem
  have hall : List.Forall₂
      (fun p result => ∀ r : Run, r.IsMaximal 0 (splitLines document) → r.paragraph = p → r.Parsed field result)
      (paragraphs document) (parseParagraphs documentRules schema document l).1 :=
    forall₂_parseAll (fun p _ l r hr hp => hp ▸ hr.parsed h hfield l) l
  have hruns : ∀ r ∈ runs document, r.IsMaximal 0 (splitLines document) := fun _ => isMaximal_of_mem_runsFrom
  rw [paragraphs, paragraphsFrom_eq_runs 0 hbracket, List.forall₂_map_left_iff] at hall
  rw [parseDocument_eq]
  exact upToFailure_parsed ((List.forall₂_and_left _ _ |>.2 ⟨hruns, hall⟩).imp fun r _ hr => hr.2 r hr.1 rfl)

/-- Two runs; the first of them has a hard break after a line that ends in a carriage return. -/
def plainDocument : List Char := "\n one  > two   \r\n \"three\" \nfour  \n \t\n\n five  ".toList

theorem reports_plainDocument : Registry.textSchema.root.prose? = some "text" ∧ Plain plainDocument ∧
    List.Forall₂ Run.ReportedBy (runs plainDocument)
      (parseDocument documentRules Registry.textSchema plainDocument {}).1.reports ∧
    (runs plainDocument).map (fun r => (r.startLine, r.text)) =
      [(1, "one > two\n\"three\" four"), (6, "five")] := by
  have hfield : Registry.textSchema.root.prose? = some "text" := by decide
  have hall : plainDocument.all (!isMarkupChar ·) = true := by decide
  have hplain : Plain plainDocument := fun c hc => by simpa using List.all_eq_true.1 hall c hc
  exact ⟨hfield, hplain, (parseDocument_plain hfield hplain {}).1, by decide +kernel⟩

end TaggedProse
