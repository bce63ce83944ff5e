import TaggedProse.Proofs.Assembly.Renumbering
import TaggedProse.Proofs.Document.Reports
import TaggedProse.Proofs.Paragraph.Concatenation

/-! Paragraphs are independent. What becomes of a paragraph depends on its source and on its first line,
and not on the paragraphs before it: they only decide which identities its values get. -/
namespace TaggedProse
variable {rules : List Rule} {schema : Schema} {notes : List (Nat × Nat)} {values : List Value}

/-! ### Moved results -/

structure Report.Moved (n : Nat) (r r' : Report) : Prop where
  value : r.value.alike r'.value = true
  line : r'.line = r.line + n

/-- Like commands, or the same failure `n` lines further down. -/
inductive ResultMoved (n : Nat) : Except Failure (List Command) → Except Failure (List Command) → Prop
  | ok {commands commands' : List Command}
      (alike : List.Forall₂ (fun c c' => c.alike c' = true) commands commands') :
      ResultMoved n (.ok commands) (.ok commands')
  | error {e e' : Failure} (item : e'.item = e.item) (line : e'.line = e.line + n) :
      ResultMoved n (.error e) (.error e')

theorem ResultMoved.eq_error {e : Failure} {result : Except Failure (List Command)}
    (h : ResultMoved 0 (.error e) result) : result = .error e := by
  cases h with
  | error item line => rw [Located.ext item line]

theorem ResultMoved.exists_ok {n : Nat} {commands : List Command} {result : Except Failure (List Command)}
    (h : ResultMoved n (.ok commands) result) : ∃ commands', result = .ok commands' ∧
      List.Forall₂ (fun c c' => c.alike c' = true) commands commands' := by
  cases h with
  | ok alike => exact ⟨_, rfl, alike⟩

def ParagraphResult.summary (r : ParagraphResult) : LogEntry :=
  match r.result with
  | .ok commands => .parsed r.startLine commands.length
  | .error e => .failed r.startLine e.describe

structure ParagraphResult.Moved (n : Nat) (r r' : ParagraphResult) : Prop where
  startLine : r'.startLine = r.startLine + n
  result : ResultMoved n r.result r'.result
  reports : List.Forall₂ (Report.Moved n) r.reports r'.reports
  log : ∃ ignored, r.log = ignored ++ [r.summary] ∧ r'.log = ignored ++ [r'.summary]

/-! ### Renumbered reports -/

theorem commandNodes_renumber (k : Nat) (commands : List Command) :
    commandNodes (renumberCommands k commands) = (commandNodes commands).map (Value.renumber k) := by
  induction commands with
  | nil => rfl
  | cons c commands ih =>
    have hnodes := Value.nodes_renumber k c.value
    simp only [commandNodes, renumberCommands] at ih ⊢
    simp [Command.renumber, hnodes, ih]

theorem notes_renumber (k : Nat) (l : Ledger) (offset : Nat) :
    (l.renumber k).notes offset = (l.notes offset).map fun e => (e.1 + k, e.2) := by
  simp [Ledger.notes, Ledger.renumber]

theorem lookup_renumber (k id : Nat) :
    (notes.map fun e => (e.1 + k, e.2)).lookup (id + k) = notes.lookup id := by
  induction notes with
  | nil => rfl
  | cons e notes ih =>
    obtain ⟨i, line⟩ := e
    by_cases heq : id = i
    · simp [heq]
    · have hne : id + k ≠ i + k := by omega
      simp only [List.map_cons, List.lookup_cons, beq_false_of_ne heq, beq_false_of_ne hne, ih]

/-- Two renumberings of some values, noted on lines `n` apart, are reported alike. -/
theorem moved_reportsOf (j k n offset : Nat) (l : Ledger) (values : List Value) :
    List.Forall₂ (Report.Moved n)
      (reportsOf ((l.renumber j).notes offset) (values.map (Value.renumber j)))
      (reportsOf ((l.renumber k).notes (offset + n)) (values.map (Value.renumber k))) := by
  rw [notes_renumber, notes_renumber]
  have hlater : ∀ id, (l.notes (offset + n)).lookup id = ((l.notes offset).lookup id).map (· + n) := by
    intro id
    simp only [Ledger.notes]
    induction l.pending.reverse with
    | nil => rfl
    | cons e entries ih =>
      obtain ⟨i, line⟩ := e
      by_cases heq : id = i
      · simp [heq, Nat.add_assoc]
      · simp only [List.map_cons, List.lookup_cons, beq_false_of_ne heq, ih]
  induction values with
  | nil => exact .nil
  | cons v values ih =>
    rw [List.map_cons, List.map_cons, reportsOf, reportsOf, List.filterMap_cons, List.filterMap_cons,
      Value.id_renumber, Value.id_renumber, lookup_renumber, lookup_renumber, hlater]
    cases (l.notes offset).lookup v.id with
    | none => exact ih
    | some line => exact .cons ⟨Value.alike_renumber j k v, rfl⟩ ih

theorem alike_renumberCommands (j k : Nat) (commands : List Command) :
    List.Forall₂ (fun c c' => c.alike c' = true) (renumberCommands j commands)
      (renumberCommands k commands) := by
  induction commands with
  | nil => exact .nil
  | cons c commands ih => exact .cons (Command.alike_renumber j k c) ih

/-! ### Paragraphs -/

theorem moved_parseParagraph (rules : List Rule) (schema : Schema) (n : Nat) (p : Paragraph)
    (l l' : Ledger) :
    (parseParagraph rules schema p l.clear).1.Moved n
      (parseParagraph rules schema (p.moveDown n) l'.clear).1 := by
  unfold parseParagraph Paragraph.moveDown
  rw [← Ledger.renumber_new l, ← Ledger.renumber_new l', assemble_renumber, assemble_renumber]
  generalize assemble schema {} (render (tokenize rules p.source)) = a
  dsimp only
  cases a.result with
  | error e =>
    refine ⟨rfl, ?_, .nil, _, rfl, rfl⟩
    exact .error rfl (Nat.add_assoc e.line p.startLine n).symm
  | ok commands =>
    have hreports := moved_reportsOf l.next l'.next n p.startLine a.ledger (commandNodes commands)
    rw [← commandNodes_renumber, ← commandNodes_renumber] at hreports
    exact ⟨rfl, .ok (alike_renumberCommands l.next l'.next commands), hreports, _, rfl, rfl⟩

theorem moved_parseAll (rules : List Rule) (schema : Schema) (n : Nat) (ps : List Paragraph)
    (l l' : Ledger) :
    List.Forall₂ (ParagraphResult.Moved n) (parseAll rules schema ps l.clear).1
      (parseAll rules schema (ps.map (Paragraph.moveDown n)) l'.clear).1 := by
  induction ps generalizing l l' with
  | nil => exact .nil
  | cons p ps ih =>
    rw [List.map_cons, parseAll, parseAll]
    dsimp only
    -- both ledgers are left without notes, so that only their next identities differ
    rw [← clear_parseParagraph rules schema p, ← clear_parseParagraph rules schema (p.moveDown n)]
    exact .cons (moved_parseParagraph rules schema n p l l') (ih _ _)

theorem parseAll_append (rules : List Rule) (schema : Schema) (ps qs : List Paragraph) (l : Ledger) :
    parseAll rules schema (ps ++ qs) l =
      let (above, l') := parseAll rules schema ps l
      let (below, l'') := parseAll rules schema qs l'
      (above ++ below, l'') := by
  induction ps generalizing l with
  | nil => rfl
  | cons p ps ih =>
    rw [List.cons_append, parseAll, parseAll]
    dsimp only
    rw [ih]
    rfl

theorem clear_parseAll (rules : List Rule) (schema : Schema) (ps : List Paragraph) (l : Ledger) :
    (parseAll rules schema ps l.clear).2.clear = (parseAll rules schema ps l.clear).2 := by
  induction ps generalizing l with
  | nil => rfl
  | cons p ps ih =>
    rw [parseAll]
    dsimp only
    rw [← clear_parseParagraph rules schema p]
    exact ih _

end TaggedProse
