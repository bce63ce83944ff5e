import TaggedProse.Proofs.Document.Outcome
import TaggedProse.Proofs.Paragraph.Spans

/-! Markup in documents is what the lexer takes for markup, and no other: no document has comments,
declarations or instructions that would be passed over. -/
namespace TaggedProse
variable {schema : Schema}

theorem ignored_feedAll {events : List (Nat × Xml.Event)} (h : ∀ e ∈ events, e.2 ≠ .ignored) (a : Assembly) :
    (Assembly.feedAll schema events a).ignored = [] := by
  induction events generalizing a with
  | nil => rfl
  | cons e events ih =>
    obtain ⟨hfirst, hrest⟩ := List.forall_mem_cons.1 h
    rw [Assembly.feedAll]
    split
    · rfl
    · rw [if_neg hfirst]
      exact ih hrest _

theorem ignored_assemble_render (schema : Schema) (l : Ledger) (source : List Char) :
    (assemble schema l (render (tokenize documentRules source))).ignored = [] := by
  refine ignored_feedAll (fun e he => ?_) _
  obtain ⟨⟨position, event⟩, hevent, rfl⟩ := List.mem_map.1 he
  exact ((readsAs_render source).plain _ hevent).1

def Unwarned (log : List LogEntry) : Prop := ∀ line, .ignoredMarkup line ∉ log

theorem unwarned_parseParagraph (schema : Schema) (p : Paragraph) (l : Ledger) :
    Unwarned (parseParagraph documentRules schema p l).1.log := by
  have hignored := ignored_assemble_render schema l p.source
  unfold parseParagraph
  dsimp only
  rw [hignored]
  cases (assemble schema l (render (tokenize documentRules p.source))).result <;> simp [Unwarned]

theorem unwarned_upToFailure {outcomes : List ParagraphResult} (h : ∀ r ∈ outcomes, Unwarned r.log) :
    Unwarned (upToFailure outcomes).log := by
  induction outcomes with
  | nil => exact fun _ => List.not_mem_nil
  | cons r outcomes ih =>
    obtain ⟨hfirst, hrest⟩ := List.forall_mem_cons.1 h
    rw [upToFailure]
    cases r.result with
    | error e => exact hfirst
    | ok commands =>
      intro line hline
      exact (List.mem_append.1 hline).elim (hfirst line) (ih hrest line)

/-- Every paragraph is read as its tokens are, and nothing in a document is passed over. -/
theorem readsAs_and_unwarned (schema : Schema) (document : List Char) (l : Ledger) :
    (∀ p ∈ paragraphs document, ReadsAs (render (tokenize documentRules p.source))
      (paragraphSpans (tokenize documentRules p.source))
      (Xml.read (render (tokenize documentRules p.source)))) ∧
    (∀ r ∈ (parseParagraphs documentRules schema document l).1, Unwarned r.log) ∧
    Unwarned (parseDocument documentRules schema document l).1.log := by
  have hall := forall_parseAll (Q := fun r => Unwarned r.log) (unwarned_parseParagraph schema)
    (paragraphs document) l.clear
  refine ⟨fun p _ => readsAs_render p.source, hall, ?_⟩
  rw [parseDocument_eq]
  exact unwarned_upToFailure hall

/-- A bracket that begins no tag is text, and so is a tag that is escaped. -/
example :
    (Xml.read (render (tokenize documentRules "a < b \\<i> <i x=\">\">".toList))).events.map Prod.snd =
      [.opening "p".toList, .text "a &lt; b &lt;i&gt; ".toList,
        .opening "i x=\">\"".toList] := by
  decide +kernel

end TaggedProse
