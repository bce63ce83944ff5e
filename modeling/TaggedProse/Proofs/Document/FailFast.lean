import TaggedProse.Document.Registry
import TaggedProse.Proofs.Document.Accounts

/-! Failing fast and going on agree. To stop at the first paragraph that fails gives what going on gives for
the paragraphs before it, and that failure. A paragraph that fails leaves no trace. -/
namespace TaggedProse
variable {schema : Schema} {rules : List Rule} {l : Ledger} {ps : List Paragraph}

/-! ### Up to the first failure -/

/-- A document is parsed when all its paragraphs are, and then has all their commands and reports. Otherwise
it fails as the first of them that fails, and has the reports of the paragraphs before that. -/
inductive FailsFast (outcomes : List ParagraphResult) (d : DocumentResult) : Prop
  | parsed (lists : List (List Command)) (all : outcomes.map ParagraphResult.result = lists.map .ok)
      (result : ResultMoved 0 (.ok lists.flatten) d.result)
      (reports : List.Forall₂ (Report.Moved 0) (outcomes.flatMap ParagraphResult.reports) d.reports)
  | failed (before after : List ParagraphResult) (r : ParagraphResult) (e : Failure)
      (split : outcomes = before ++ r :: after) (parsed : ∀ b ∈ before, ∃ commands, b.result = .ok commands)
      (first : r.result = .error e) (result : d.result = .error e)
      (reports : List.Forall₂ (Report.Moved 0) (before.flatMap ParagraphResult.reports) d.reports)

def ParagraphResult.Silent (r : ParagraphResult) : Prop := ∀ e, r.result = .error e → r.reports = []

theorem silent_parseParagraph (rules : List Rule) (schema : Schema) (p : Paragraph) (l : Ledger) :
    (parseParagraph rules schema p l).1.Silent := by
  intro e he
  unfold parseParagraph at he ⊢
  dsimp only at he ⊢
  cases hresult : (assemble schema l (render (tokenize rules p.source))).result with
  | ok commands => rw [hresult] at he; cases he
  | error e => rfl

theorem failsFast_upToFailure {outcomes others : List ParagraphResult}
    (h : List.Forall₂ (ParagraphResult.Moved 0) outcomes others) (hs : ∀ r ∈ others, r.Silent) :
    FailsFast outcomes (upToFailure others) := by
  induction h with
  | nil => exact .parsed [] rfl (.ok .nil) .nil
  | @cons r r' outcomes others hr hrest ih =>
    obtain ⟨hfirst, hothers⟩ := List.forall_mem_cons.1 hs
    have hresult := hr.result
    rw [upToFailure]
    cases hfound : r.result with
    | error e =>
      rw [hfound] at hresult
      have hfound' := hresult.eq_error
      rw [hfound']
      refine .failed [] outcomes r e rfl (List.forall_mem_nil _) hfound rfl ?_
      dsimp only
      rw [hfirst _ hfound']
      exact .nil
    | ok commands =>
      rw [hfound] at hresult
      obtain ⟨commands', hfound', hcommands⟩ := hresult.exists_ok
      rw [hfound']
      dsimp only
      cases ih hothers with
      | parsed lists all result reports =>
        refine .parsed (commands :: lists) (by simp [hfound, all]) ?_ (List.rel_append hr.reports reports)
        obtain ⟨later, hlater, hlists⟩ := result.exists_ok
        rw [hlater]
        exact .ok (List.rel_append hcommands hlists)
      | failed before after r₁ e split parsed first result reports =>
        refine .failed (r :: before) after r₁ e (by rw [split]; rfl)
          (List.forall_mem_cons.2 ⟨⟨commands, hfound⟩, parsed⟩) first ?_ (List.rel_append hr.reports reports)
        dsimp only
        rw [result]
        rfl

theorem forall₂_parseParagraphs (rules : List Rule) (schema : Schema) (document : List Char)
    (l l' : Ledger) :
    List.Forall₂ (ParagraphResult.Moved 0) (parseParagraphs rules schema document l).1
      (parseParagraphs rules schema document l').1 := by
  have hmoved := moved_parseAll rules schema 0 (paragraphs document) l l'
  rwa [moveDown_zero] at hmoved

theorem parseDocument_failsFast (rules : List Rule) (schema : Schema) (document : List Char)
    (l l' : Ledger) :
    FailsFast (parseParagraphs rules schema document l).1 (parseDocument rules schema document l').1 := by
  rw [parseDocument_eq]
  exact failsFast_upToFailure (forall₂_parseParagraphs rules schema document l l')
    (forall_parseAll (silent_parseParagraph rules schema) _ _)

/-! ### No trace -/

theorem Ledger.pending_of_clear (h : l.clear = l) : l.pending = [] := by
  rw [← h]
  rfl

theorem clear_parseUntilFailure (rules : List Rule) (schema : Schema) (ps : List Paragraph) (l : Ledger) :
    (parseUntilFailure rules schema ps l.clear).2.clear = (parseUntilFailure rules schema ps l.clear).2 := by
  induction ps generalizing l with
  | nil => rfl
  | cons p ps ih =>
    rw [parseUntilFailure]
    dsimp only
    cases (parseParagraph rules schema p l.clear).1.result with
    | error e => exact clear_parseParagraph rules schema p l.clear
    | ok commands =>
      dsimp only
      rw [← clear_parseParagraph rules schema p]
      exact ih _

/-- Reports are of identities given out for their own paragraph. -/
theorem ids_parseParagraph (hs : schema.Sound) (hn : schema.Named) (p : Paragraph) (l : Ledger) :
    ∀ report ∈ (parseParagraph rules schema p l.clear).1.reports,
      l.next ≤ report.value.id ∧ report.value.id < (parseParagraph rules schema p l.clear).2.next := by
  intro report hreport
  cases hresult : (parseParagraph rules schema p l.clear).1.result with
  | error e =>
    rw [silent_parseParagraph rules schema p l.clear e hresult] at hreport
    cases hreport
  | ok commands =>
    have hall := accounted_parseParagraph hs hn p l hresult
    have hvalue : report.value ∈ commandNodes commands := by
      rw [← hall.values]
      exact List.mem_map.2 ⟨report, hreport, rfl⟩
    have hid := hall.ids.mem_iff.1 (List.mem_map.2 ⟨report.value, hvalue, rfl⟩)
    have hle := hall.le
    simp only [List.mem_range'_1] at hid
    omega

theorem ids_parseAll (rules : List Rule) (hs : schema.Sound) (hn : schema.Named) (ps : List Paragraph) (l : Ledger) :
    l.next ≤ (parseAll rules schema ps l.clear).2.next ∧
      ∀ r ∈ (parseAll rules schema ps l.clear).1, ∀ report ∈ r.reports,
        l.next ≤ report.value.id ∧ report.value.id < (parseAll rules schema ps l.clear).2.next := by
  induction ps generalizing l with
  | nil => exact ⟨Nat.le_refl _, List.forall_mem_nil _⟩
  | cons p ps ih =>
    have hfirst := le_next_parseParagraph rules schema p l
    obtain ⟨hle, hrest⟩ := ih (parseParagraph rules schema p l.clear).2
    rw [clear_parseParagraph] at hle hrest
    rw [parseAll]
    refine ⟨Nat.le_trans hfirst hle, List.forall_mem_cons.2 ⟨fun report hreport => ?_, ?_⟩⟩
    · obtain ⟨hlow, hhigh⟩ := ids_parseParagraph hs hn p l report hreport
      exact ⟨hlow, Nat.lt_of_lt_of_le hhigh hle⟩
    · intro r hr report hreport
      obtain ⟨hlow, hhigh⟩ := hrest r hr report hreport
      exact ⟨Nat.le_trans hfirst hlow, hhigh⟩

theorem exists_of_mem_upToFailure {outcomes : List ParagraphResult} {report : Report}
    (h : report ∈ (upToFailure outcomes).reports) : ∃ r ∈ outcomes, report ∈ r.reports := by
  induction outcomes with
  | nil => cases h
  | cons r outcomes ih =>
    rw [upToFailure] at h
    cases hresult : r.result with
    | error e =>
      rw [hresult] at h
      exact ⟨r, List.mem_cons_self, h⟩
    | ok commands =>
      rw [hresult] at h
      rcases List.mem_append.1 h with h | h
      · exact ⟨r, List.mem_cons_self, h⟩
      · obtain ⟨r', hr', hreport⟩ := ih h
        exact ⟨r', List.mem_cons_of_mem _ hr', hreport⟩

def ledgerAfter (rules : List Rule) (schema : Schema) (ps : List Paragraph) (l : Ledger) : Ledger :=
  (parseAll rules schema ps l.clear).2

/-- What becomes of the paragraph `p` of a document, after the paragraphs `before`. No notes wait before it
or after it. If it fails, none of the identities given out for its values is ever reported. -/
structure Traceless (rules : List Rule) (schema : Schema) (document : List Char) (l : Ledger)
    (before : List Paragraph) (p : Paragraph) (after : List Paragraph) : Prop where
  outcomes : (parseParagraphs rules schema document l).1 =
    (parseAll rules schema before l.clear).1 ++
      (parseParagraph rules schema p (ledgerAfter rules schema before l)).1 ::
        (parseAll rules schema after (ledgerAfter rules schema (before ++ [p]) l)).1
  cleared : ∀ ps, ps = before ∨ ps = before ++ [p] → (ledgerAfter rules schema ps l).pending = [] ∧
    (parseUntilFailure rules schema ps l.clear).2.pending = []
  reports : ∀ e,
    (parseParagraph rules schema p (ledgerAfter rules schema before l)).1.result = .error e →
    (parseParagraph rules schema p (ledgerAfter rules schema before l)).1.reports = [] ∧
    ∀ report ∈ (parseParagraphs rules schema document l).1.flatMap ParagraphResult.reports ++
        (parseDocument rules schema document l).1.reports,
      report.value.id < (ledgerAfter rules schema before l).next ∨
        (ledgerAfter rules schema (before ++ [p]) l).next ≤ report.value.id

theorem ledgerAfter_append (before : List Paragraph) (p : Paragraph) (l : Ledger) :
    ledgerAfter rules schema (before ++ [p]) l =
      (parseParagraph rules schema p (ledgerAfter rules schema before l)).2 := by
  rw [ledgerAfter, parseAll_append]
  rfl

theorem clear_ledgerAfter (rules : List Rule) (schema : Schema) (ps : List Paragraph) (l : Ledger) :
    (ledgerAfter rules schema ps l).clear = ledgerAfter rules schema ps l := clear_parseAll rules schema ps l

theorem parseParagraphs_eq_append {document : List Char} {before after : List Paragraph} {p : Paragraph}
    (h : paragraphs document = before ++ p :: after) (rules : List Rule) (schema : Schema) (l : Ledger) :
    (parseParagraphs rules schema document l).1 =
      (parseAll rules schema before l.clear).1 ++
        (parseParagraph rules schema p (ledgerAfter rules schema before l)).1 ::
          (parseAll rules schema after (ledgerAfter rules schema (before ++ [p]) l)).1 := by
  rw [parseParagraphs, h, parseAll_append, ledgerAfter_append]
  rfl

theorem traceless_of_append (hs : schema.Sound) (hn : schema.Named) {document : List Char}
    {before after : List Paragraph} {p : Paragraph} (h : paragraphs document = before ++ p :: after)
    (rules : List Rule) (l : Ledger) : Traceless rules schema document l before p after := by
  have houtcomes := parseParagraphs_eq_append h rules schema l
  constructor
  case outcomes => exact houtcomes
  case cleared =>
    intro ps _
    exact ⟨Ledger.pending_of_clear (clear_ledgerAfter rules schema ps l),
      Ledger.pending_of_clear (clear_parseUntilFailure rules schema ps l)⟩
  case reports =>
    intro e he
    have hsilent := silent_parseParagraph rules schema p _ e he
    refine ⟨hsilent, fun report hreport => ?_⟩
    have hall : ∃ r ∈ (parseParagraphs rules schema document l).1, report ∈ r.reports := by
      rcases List.mem_append.1 hreport with hreport | hreport
      · exact List.mem_flatMap.1 hreport
      · rw [parseDocument_eq] at hreport
        exact exists_of_mem_upToFailure hreport
    obtain ⟨r, hr, hreport⟩ := hall
    -- identities given out before the paragraph are earlier, and those given out after it later
    rw [houtcomes] at hr
    rcases List.mem_append.1 hr with hr | hr
    · exact .inl ((ids_parseAll rules hs hn before l).2 r hr report hreport).2
    · rcases List.mem_cons.1 hr with rfl | hr
      · rw [hsilent] at hreport
        cases hreport
      · have hids := (ids_parseAll rules hs hn after (ledgerAfter rules schema (before ++ [p]) l)).2
        rw [clear_ledgerAfter] at hids
        exact .inr (hids r hr report hreport).1

/-- However a document is parsed, the first paragraph that fails decides whether it is, and the paragraphs
before that what is reported. A paragraph that fails leaves no trace in either way of parsing. -/
theorem failsFast_and_traceless {d : Description} (h : d.compile = .ok schema) (rules : List Rule)
    (document : List Char) (l l' : Ledger) (registry : Registry) :
    FailsFast (parseParagraphs rules schema document l).1 (parseDocument rules schema document l').1 ∧
    FailsFast (parseParagraphs rules schema document l).1 (registry.parse rules schema document).1 ∧
    ∀ before p after, paragraphs document = before ++ p :: after →
      Traceless rules schema document l before p after := by
  refine ⟨parseDocument_failsFast rules schema document l l',
    parseDocument_failsFast rules schema document l registry.ledger, fun before p after hsplit => ?_⟩
  exact traceless_of_append (Description.sound_of_compile h) (Description.named_of_compile h) hsplit rules l

/-- The second paragraph fails when the value of its attribute has been made. -/
def leavingDocument : List Char := "Hi\n\n<card id=\"a\"><nope/></card>\n\nHo".toList

def failingParagraph : Paragraph := ⟨2, "<card id=\"a\"><nope/></card>".toList⟩

theorem paragraphs_leavingDocument : paragraphs leavingDocument =
    [⟨0, "Hi".toList⟩] ++ failingParagraph :: [⟨4, "Ho".toList⟩] := by
  decide +kernel

theorem failsFast_leavingDocument : cardDescription.compile = .ok cardSchema ∧
    FailsFast (parseParagraphs documentRules cardSchema leavingDocument {}).1
      (parseDocument documentRules cardSchema leavingDocument {}).1 ∧
    (ledgerAfter documentRules cardSchema [⟨0, "Hi".toList⟩] {}).next = 1 ∧
    (ledgerAfter documentRules cardSchema ([⟨0, "Hi".toList⟩] ++ [failingParagraph]) {}).next = 2 ∧
    ((parseParagraphs documentRules cardSchema leavingDocument {}).1.flatMap ParagraphResult.reports).map
      (fun report => (report.value.id, report.line)) = [(0, 0), (2, 4)] ∧
    Traceless documentRules cardSchema leavingDocument {} [⟨0, "Hi".toList⟩] failingParagraph
      [⟨4, "Ho".toList⟩] := by
  obtain ⟨hfast, -, htraceless⟩ :=
    failsFast_and_traceless compile_cardDescription documentRules leavingDocument {} {} {}
  refine ⟨compile_cardDescription, hfast, ?_, ?_, ?_, htraceless _ _ _ paragraphs_leavingDocument⟩
  · decide +kernel
  · decide +kernel
  · decide +kernel

end TaggedProse
