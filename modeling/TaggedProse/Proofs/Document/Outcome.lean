import TaggedProse.Proofs.Document.Reports
import TaggedProse.Proofs.Paragraph.Newlines
import TaggedProse.Proofs.Paragraph.Outcome
import TaggedProse.Proofs.Paragraph.Segments

/-! What becomes of the paragraphs of a document, told from the items in their sources. -/
namespace TaggedProse
variable {schema : Schema} {p : Paragraph} {e : Failure} {commands : List Command} {l : Ledger}
  {rules : List Rule} {ps : List Paragraph}

def Paragraph.HasChildren (p : Paragraph) (children : List Tree) : Prop :=
  itemParts (writtenItems p.source) = .ok (Tree.partsOf children)

/-- All items before this one are taken, and it fails. -/
def Paragraph.FailsAt (p : Paragraph) (schema : Schema) (it : Item) (e : Failure) : Prop :=
  ∃ front rest l g, sourceItems p.source = front ++ it :: rest ∧
    takeAll schema front (start l) = .ok g ∧ it.take schema g = .error e

/-- The commands of a paragraph are those of its element tree; or one of its items fails, or one of its
elements is not closed. -/
inductive Paragraph.Outcome (p : Paragraph) (schema : Schema) : ParagraphResult → Prop
  | parsed {children : List Tree} {lined : List LinedCommand} {commands : List Command}
      {reports : List Report} {log : List LogEntry} (tree : p.HasChildren children)
      (value : Tree.evaluate schema children = .ok lined)
      (reported : Reported reports commands (lined.map (·.shift p.startLine))) :
      Outcome p schema ⟨p.startLine, .ok commands, reports, log⟩
  | failed {it : Item} {e : Failure} {log : List LogEntry} (fails : p.FailsAt schema it e) :
      Outcome p schema ⟨p.startLine, .error (e.shift p.startLine), [], log⟩
  | unclosed (tag : String) {log : List LogEntry} :
      Outcome p schema ⟨p.startLine, .error ⟨.unclosed tag, newlines p.source + p.startLine⟩, [], log⟩

/-! ### One paragraph -/

inductive Reached (p : Paragraph) (schema : Schema) (l : Ledger) : ParagraphResult → Prop
  | taken {g : Progress} {commands : List Command} {log : List LogEntry}
      (items : takeAll schema (sourceItems p.source) (start l) = .ok g)
      (finish : g.assembly.finish (newlines p.source) = .ok commands) :
      Reached p schema l ⟨p.startLine, .ok commands,
        reportsOf (g.assembly.ledger.notes p.startLine) (commandNodes commands), log⟩
  | failed {it : Item} {e : Failure} {log : List LogEntry}
      (items : takeAll schema (sourceItems p.source) (start l) = .error (it, e)) :
      Reached p schema l ⟨p.startLine, .error (e.shift p.startLine), [], log⟩
  | unfinished {g : Progress} {e : Failure} {log : List LogEntry}
      (items : takeAll schema (sourceItems p.source) (start l) = .ok g)
      (finish : g.assembly.finish (newlines p.source) = .error e) :
      Reached p schema l ⟨p.startLine, .error (e.shift p.startLine), [], log⟩

theorem reached_parseParagraph (schema : Schema) (p : Paragraph) (l : Ledger) :
    Reached p schema l (parseParagraph documentRules schema p l).1 := by
  have h := assemble_render schema p.source l
  rw [newlines_render_tokenize isLiteral_of_mem_documentRules] at h
  unfold parseParagraph
  cases hitems : takeAll schema (sourceItems p.source) (start l) with
  | error fault =>
    obtain ⟨it, e⟩ := fault
    rw [show takeAll schema (sourceItems p.source) { assembly := { ledger := l } } = _ from hitems] at h
    dsimp only at h ⊢
    rw [h]
    exact .failed hitems
  | ok g =>
    rw [show takeAll schema (sourceItems p.source) { assembly := { ledger := l } } = _ from hitems] at h
    obtain ⟨hresult, hledger⟩ := h
    dsimp only
    rw [hresult, hledger]
    cases hfinish : g.assembly.finish (newlines p.source) with
    | error e => exact .unfinished hitems hfinish
    | ok commands => exact .taken hitems hfinish

theorem outcome_parseParagraph (_ : schema.Sound) (p : Paragraph) (l : Ledger) :
    p.Outcome schema (parseParagraph documentRules schema p l.clear).1 := by
  have hreached := reached_parseParagraph schema p l.clear
  generalize (parseParagraph documentRules schema p l.clear).1 = r at hreached ⊢
  cases hreached with
  | taken hitems hfinish =>
    obtain ⟨children, lined, htree, hvalue, hlined, hsound⟩ := exists_children_of_takeAll l hitems hfinish
    exact .parsed htree hvalue (reported_of_mapM_lined? hsound p.startLine hlined)
  | failed hitems =>
    obtain ⟨front, rest, g, hsplit, hfront, hfail⟩ := exists_of_takeAll_error hitems
    exact .failed ⟨front, rest, l.clear, g, hsplit, hfront, hfail⟩
  | unfinished hitems hfinish =>
    obtain ⟨tag, rfl⟩ := Assembly.exists_of_finish_error hfinish
    exact .unclosed tag

/-- A tag that is at fault is the item that fails, on its line. -/
theorem Paragraph.FailsAt.tag (hs : schema.Sound) {it : Item} (h : p.FailsAt schema it e)
    (hc : e.item.concernsTag = true) : ∃ content, it = .tag content e.line := by
  obtain ⟨front, rest, l, g, -, hfront, hfail⟩ := h
  exact exists_of_take_error hs (wellFormed_takeAll hs (Assembly.wellFormed_new schema l) hfront) hfail hc

/-! ### All paragraphs -/

/-- What holds of every paragraph alone holds of all of them. -/
theorem forall₂_parseAll {R : Paragraph → ParagraphResult → Prop}
    (h : ∀ p ∈ ps, ∀ l : Ledger, R p (parseParagraph rules schema p l.clear).1) (l : Ledger) :
    List.Forall₂ R ps (parseAll rules schema ps l.clear).1 := by
  induction ps generalizing l with
  | nil => exact .nil
  | cons p ps ih =>
    rw [parseAll]
    dsimp only
    rw [snd_parseParagraph]
    exact .cons (h p List.mem_cons_self l) (ih (fun p' hp' => h p' (List.mem_cons_of_mem _ hp')) _)

/-- What holds of every paragraph, whatever its ledger, holds of all that becomes of them. -/
theorem forall_parseAll {Q : ParagraphResult → Prop} (h : ∀ p l, Q (parseParagraph rules schema p l).1)
    (ps : List Paragraph) (l : Ledger) : ∀ r ∈ (parseAll rules schema ps l).1, Q r := by
  induction ps generalizing l with
  | nil => exact List.forall_mem_nil _
  | cons p ps ih =>
    rw [parseAll]
    exact List.forall_mem_cons.2 ⟨h p l, ih _⟩

/-- What becomes of a document, when its paragraphs are taken up to the first that fails. -/
def upToFailure : List ParagraphResult → DocumentResult
  | [] => ⟨.ok [], [], []⟩
  | r :: rs =>
    match r.result with
    | .error e => ⟨.error e, r.reports, r.log⟩
    | .ok commands =>
      let others := upToFailure rs
      ⟨others.result.map (commands ++ ·), r.reports ++ others.reports, r.log ++ others.log⟩

theorem parseUntilFailure_eq (rules : List Rule) (schema : Schema) (ps : List Paragraph) (l : Ledger) :
    (parseUntilFailure rules schema ps l).1 = upToFailure (parseAll rules schema ps l).1 := by
  induction ps generalizing l with
  | nil => rfl
  | cons p ps ih =>
    rw [parseUntilFailure, parseAll, upToFailure]
    dsimp only
    cases (parseParagraph rules schema p l).1.result with
    | error e => rfl
    | ok commands => rw [← ih]

/-- A document is reported on, and fails, as its paragraphs do up to the first that fails. -/
theorem parseDocument_eq (rules : List Rule) (schema : Schema) (document : List Char) (l : Ledger) :
    (parseDocument rules schema document l).1 =
      upToFailure (parseParagraphs rules schema document l).1 :=
  parseUntilFailure_eq rules schema (paragraphs document) l.clear

end TaggedProse
