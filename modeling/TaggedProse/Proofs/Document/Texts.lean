import TaggedProse.Proofs.Document.Values

/-! Lines of texts. A text is reported on the line on which its first visible character is written, plus
one for every reference to a newline before that character in the same stretch of text. -/
namespace TaggedProse
variable {schema : Schema} {document : List Char} {p : Paragraph} {r : ParagraphResult} {n : Nat} {l : Ledger}

def ParagraphResult.Tells (r : ParagraphResult) (n : Nat) : Prop :=
  (∃ report ∈ r.reports, report.line = n) ∨ ∃ e, r.result = .error e ∧ e.line = n

/-- On this line of the document an item of the paragraph begins, or a visible character is counted. -/
def Paragraph.Accounts (p : Paragraph) (n : Nat) : Prop :=
  (∃ it ∈ sourceItems p.source, n = it.line + p.startLine) ∨ ∃ m c, p.Counts m c ∧ n = m + p.startLine

/-- No visible character comes after a reference to a newline in the same stretch of text. -/
def Paragraph.Plain (p : Paragraph) : Prop :=
  ∀ g ∈ sourceGlyphs p.source, isBlank g.char = false → g.carried = 0

/-- What a paragraph's result tells of the lines of its texts. -/
structure Paragraph.CountsTextLines (p : Paragraph) (schema : Schema) (document : List Char)
    (r : ParagraphResult) : Prop where
  written : ∀ g ∈ sourceGlyphs p.source,
    StandsOn document (g.line + p.startLine) fun s => Begins g.char s ∨ Begins '&' s
  values : p.PlacesValues schema r
  lines : ∀ n, r.Tells n → p.Accounts n
  plain : p.Plain → (∀ n, r.Tells n → p.startLine ≤ n ∧ n ≤ p.startLine + newlines p.source) ∧
    ∀ n c, p.Counts n c → ∃ g ∈ sourceGlyphs p.source, g.char = c ∧ g.line = n

theorem line_of_lookup_notes {offset id : Nat} (h : (l.notes offset).lookup id = some n) :
    ∃ entry ∈ l.pending, n = entry.2 + offset := by
  obtain ⟨front, back, hnotes, -⟩ := List.lookup_eq_some_iff.1 h
  have hmem : (id, n) ∈ l.notes offset := by simp [hnotes]
  obtain ⟨entry, hentry, heq⟩ := List.mem_map.1 hmem
  cases heq
  exact ⟨entry, List.mem_reverse.1 hentry, rfl⟩

/-- Every line that is told comes from an item or a visible character. -/
theorem accounts_of_tells (h : Reached p schema l.clear r) (hn : r.Tells n) : p.Accounts n := by
  have hstart : (start l.clear).assembly.Within fun m => p.Accounts (m + p.startLine) :=
    ⟨List.forall_mem_nil _, List.forall_mem_nil _⟩
  have hitems : TakenWithin (fun m => p.Accounts (m + p.startLine))
      (takeAll schema (sourceItems p.source) (start l.clear)) := by
    refine within_takeAll schema hstart (fun it hit => ?_) fun g hg hvisible => ?_
    · exact .inl ⟨it, hit, rfl⟩
    · rw [glyphs_sourceItems] at hg
      exact .inr ⟨_, g.char, ⟨g, hg, hvisible, rfl, rfl⟩, rfl⟩
  cases h with
  | taken htake hfinish =>
    rw [htake] at hitems
    rcases hn with ⟨report, hreport, rfl⟩ | ⟨e, he, -⟩
    · obtain ⟨entry, hentry, hline⟩ := line_of_lookup_notes (lookup_of_mem_reportsOf hreport).2
      rw [hline]
      exact hitems.ledger entry hentry
    · cases he
  | failed htake =>
    rw [htake] at hitems
    rcases hn with ⟨report, hreport, -⟩ | ⟨e, he, rfl⟩
    · cases hreport
    · cases he
      exact hitems
  | unfinished htake hfinish =>
    rcases hn with ⟨report, hreport, -⟩ | ⟨e, he, rfl⟩
    · cases hreport
    · cases he
      obtain ⟨tag, rfl⟩ := Assembly.exists_of_finish_error hfinish
      exact .inl ⟨_, mem_sourceItems.2 (.inr (.inr rfl)), rfl⟩

theorem Paragraph.Accounts.between (hp : p.Plain) (h : p.Accounts n) :
    p.startLine ≤ n ∧ n ≤ p.startLine + newlines p.source := by
  rcases h with ⟨it, hit, rfl⟩ | ⟨m, c, ⟨g, hg, hvisible, -, rfl⟩, rfl⟩
  · have hle := line_le_of_mem_sourceItems hit
    omega
  · have hle := (standsIn_of_mem_sourceGlyphs hg).le
    have hcarried := hp g hg hvisible
    omega

/-- In every document, all lines that are told are those of tags and of visible characters, references to
newlines counted as line ends. Without such references they are the lines on which tags and characters
are written. -/
theorem forall_countsTextLines {d : Description} (h : d.compile = .ok schema) (document : List Char)
    (l : Ledger) :
    List.Forall₂ (fun p r => p.CountsTextLines schema document r) (paragraphs document)
        (parseParagraphs documentRules schema document l).1 ∧
      (parseDocument documentRules schema document l).1 =
        upToFailure (parseParagraphs documentRules schema document l).1 := by
  have hs := Description.sound_of_compile h
  refine ⟨forall₂_parseAll (fun p hp l' => ?_) l, parseDocument_eq _ _ _ _⟩
  have haccounts : ∀ n, (parseParagraph documentRules schema p l'.clear).1.Tells n → p.Accounts n :=
    fun n hn => accounts_of_tells (reached_parseParagraph schema p l'.clear) hn
  constructor
  case written =>
    intro g hg
    refine (standsAt_of_mem_paragraphs hp).standsOn (standsIn_of_mem_sourceGlyphs hg) fun s t hst => ?_
    exact hst.imp (·.append t) (·.append t)
  case values => exact (outcome_parseParagraph hs p l').placesValues
  case lines => exact haccounts
  case plain =>
    refine fun hplain => ⟨fun n hn => (haccounts n hn).between hplain, ?_⟩
    rintro _ c ⟨g, hg, hvisible, hc, rfl⟩
    exact ⟨g, hg, hc, by rw [hplain g hg hvisible]; rfl⟩

/-- One line, on which a newline is referred to before the text. -/
def referenceDocument : List Char := "&#10;x".toList

theorem forall_countsTextLines_referenceDocument : cardDescription.compile = .ok cardSchema ∧
    List.Forall₂ (fun p r => p.CountsTextLines cardSchema referenceDocument r)
      (paragraphs referenceDocument)
      (parseParagraphs documentRules cardSchema referenceDocument {}).1 :=
  ⟨compile_cardDescription, (forall_countsTextLines compile_cardDescription referenceDocument {}).1⟩

/-- The text is reported on the line after the last one. -/
theorem line_of_referenceDocument : newlines referenceDocument = 0 ∧
    (parseDocument documentRules cardSchema referenceDocument {}).1.reports.map Report.line = [1] := by
  decide +kernel

end TaggedProse
