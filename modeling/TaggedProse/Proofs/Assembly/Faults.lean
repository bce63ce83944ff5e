import TaggedProse.Proofs.Assembly.Conformance
import TaggedProse.Proofs.Assembly.Lines
import TaggedProse.Proofs.Assembly.Tags

/-! A failure that concerns a tag has the line of the tag with which the step failed. Tags and texts that
have been read never fail as markup or references. -/
namespace TaggedProse
variable {schema : Schema} {tag : String} {line : Nat} {attributes : List (String × String)}
  {l l' : Ledger} {e : Failure} {s : List Char}

/-- Whether a tag is at fault, and not text or the end of the paragraph. -/
def Fault.concernsTag : Fault → Bool
  | .undescribedText _ | .badReference _ | .unclosed _ => false
  | _ => true

def Part.tagLine? : Part → Option Nat
  | .opening _ _ line | .closing _ line => some line
  | .text _ _ => none

theorem concernsTag_of_proseCommand {prose : Option Prose}
    (h : (proseCommand schema prose l).1 = .error e) : e.item.concernsTag = false := by
  obtain ⟨line, rfl⟩ := exists_of_proseCommand_error h
  rfl

namespace Assembly
variable {a : Assembly}

theorem line_of_openElement_error (h : (openElement schema tag attributes line a).1 = .error e)
    (hc : e.item.concernsTag = true) : e.line = line := by
  unfold openElement at h
  split at h
  · split at h
    · cases h; rfl
    · cases h
  · next breaks f below heq =>
    dsimp only at h
    split at h
    · next e' hchild =>
      cases h
      rcases opened_child (fun _ => True) schema f.tag f.body tag attributes line a.ledger with
        hopened | ⟨prose, commands, e', -, hother, hflush⟩
      · rw [hchild] at hopened
        exact hopened
      · rw [hchild] at hother
        cases hother
        rw [concernsTag_of_proseCommand hflush] at hc
        cases hc
    · cases h

theorem concernsTag_of_write_error (h : (write s line a).1 = .error e) :
    e.item.concernsTag = false := by
  obtain ⟨tag, visible, rfl⟩ := exists_of_write_error h
  rfl

/-- In a well-formed stack the value of an element is welcome in the element around it. -/
theorem accept_of_nested {f around : Frame} {breaks below : List Frame} {v : Value}
    (hn : Nested schema (f :: (breaks ++ around :: below)))
    (hb : ∀ b ∈ breaks, b.body.isLineBreak = true) (ha : around.body.isLineBreak = false)
    (hv : (f.body.close schema line l).1 = .ok (.value v)) (l' : Ledger) :
    ∃ body, (around.body.accept around.tag f v l').1 = .ok body := by
  obtain ⟨-, -, hstands⟩ := hn
  rw [enclosing_append hb ha] at hstands
  have hkind : f.body.kind ≠ .lineBreak := by
    cases hbody : f.body <;> rw [hbody] at hv <;> simp [Body.kind, Body.close] at hv ⊢
  cases hbody : around.body with
  | paragraph prose commands => exact ⟨_, rfl⟩
  | object table fields =>
    rw [Body.accept]
    split
    · exact ⟨_, rfl⟩
    · exact ⟨_, rfl⟩
  | scalar prose => rw [hbody] at hstands; exact absurd hstands hkind
  | content table field fields prose => rw [hbody] at hstands; exact absurd hstands hkind
  | image => rw [hbody] at hstands; exact hstands.elim
  | lineBreak => rw [hbody] at hstands; exact hstands.elim

theorem line_of_deliver_error {f : Frame} {v : Value} (hn : Nested schema (f :: a.frames))
    (hv : (f.body.close schema line l).1 = .ok (.value v)) {closing : Nat}
    (h : (deliver tag closing f v a).1 = .error e) : e.line = closing := by
  unfold deliver at h
  rcases splitBreaks_cases a.frames with ⟨hsplit, -⟩ | ⟨breaks, around, below, hframes, hb, ha⟩
  · rw [hsplit] at h
    cases h
    rfl
  · rw [hframes, splitBreaks_append hb ha] at h
    obtain ⟨body, haccept⟩ := accept_of_nested (hframes ▸ hn) hb ha hv a.ledger
    dsimp only at h
    split at h
    · next e' l' heq => rw [heq] at haccept; cases haccept
    · cases h

theorem line_of_closeElement_error (hw : a.WellFormed schema)
    (h : (closeElement schema tag line a).1 = .error e) (hc : e.item.concernsTag = true) :
    e.line = line := by
  unfold closeElement at h
  cases hframes : a.frames with
  | nil => rw [hframes] at h; cases h; rfl
  | cons f frames =>
    rw [hframes] at h
    dsimp only at h
    split at h
    · next e' l' hclose =>
      cases h
      cases hbody : f.body with
      | paragraph prose commands =>
        rw [hbody, Body.close] at hclose
        split at hclose
        · next e' l' hflush =>
          cases hclose
          rw [concernsTag_of_proseCommand (by rw [hflush])] at hc
          cases hc
        · cases hclose
      | _ => rw [hbody] at hclose; cases hclose
    · cases h
    · cases h
    · next v l' hclose =>
      have hn : Nested schema (f :: frames) := hframes ▸ hw.frames
      exact line_of_deliver_error (a := { a with frames, ledger := l' }) hn (by rw [hclose]) h

theorem tagLine?_of_step_error {part : Part} (hw : a.WellFormed schema)
    (h : (step schema part a).1 = .error e) (hc : e.item.concernsTag = true) :
    part.tagLine? = some e.line := by
  cases part with
  | opening tag attributes line => rw [line_of_openElement_error h hc]; rfl
  | text s line => rw [concernsTag_of_write_error h] at hc; cases hc
  | closing tag line => rw [line_of_closeElement_error hw h hc]; rfl

theorem exists_of_run_error (hs : schema.Sound) (hw : a.WellFormed schema) {parts : List Part}
    (h : (run schema parts a).1 = .error e) (hc : e.item.concernsTag = true) :
    ∃ part ∈ parts, part.tagLine? = some e.line := by
  induction parts generalizing a with
  | nil => cases h
  | cons part parts ih =>
    have hstep := wellFormed_step hs part hw
    rw [run] at h
    split at h
    · next a' heq =>
      rw [heq] at hstep
      obtain ⟨p, hp, hline⟩ := ih hstep h
      exact ⟨p, List.mem_cons_of_mem _ hp, hline⟩
    · next e' a' heq =>
      cases h
      exact ⟨part, List.mem_cons_self, tagLine?_of_step_error hw (by rw [heq]) hc⟩

end Assembly

/-! ### Tags and texts that have been read -/

def Fault.isSyntax : Fault → Bool
  | .badReference _ | .badMarkup _ => true
  | _ => false

def ReadsAll {α : Type} (r : Except Failure α) : Prop := ∀ e, r = .error e → e.item.isSyntax = false

theorem readsAll_ok {α : Type} (x : α) : ReadsAll (.ok x : Except Failure α) := fun _ h => by cases h

theorem readsAll_error {α : Type} (h : e.item.isSyntax = false) : ReadsAll (.error e : Except Failure α) :=
  fun _ heq => by cases heq; exact h

instance {α : Type} (r : Except Failure α) : Decidable (ReadsAll r) :=
  match r with
  | .ok x => isTrue (readsAll_ok x)
  | .error e => decidable_of_iff (e.item.isSyntax = false) ⟨readsAll_error, fun h => h e rfl⟩

theorem ReadsAll.error {α β γ : Type} {x : Except Failure α × γ} {y : γ} (h : ReadsAll x.1)
    (heq : x = (.error e, y)) : ReadsAll (.error e : Except Failure β) := readsAll_error (h e (by rw [heq]))

section Opening
variable {table : Table} {f : Field} {prose : Option Prose} {commands : List Command} {fields : Record Value}

theorem readsAll_attributeFields : ReadsAll (attributeFields table line l fields attributes).1 := by
  induction attributes generalizing l fields with
  | nil => exact readsAll_ok _
  | cons pair rest ih =>
    rw [attributeFields]
    split
    · exact readsAll_error rfl
    · split
      · exact ih
      · exact readsAll_error rfl

theorem readsAll_openObject : ReadsAll (openObject table tag attributes line l).1 := by
  unfold openObject
  split
  · split
    · next heq => exact readsAll_attributeFields.error heq
    · exact readsAll_ok _
  · split
    · split
      · next heq => exact readsAll_attributeFields.error heq
      · exact readsAll_ok _
    · exact readsAll_error rfl

theorem isSyntax_of_table {command : Bool} {fault : Fault} (h : f.table schema tag command = .error fault) :
    fault.isSyntax = false := by
  unfold Field.table at h
  split at h
  · split at h <;> cases h <;> rfl
  · split at h
    · cases h
    · cases h
      cases command <;> rfl

theorem readsAll_openNested {command : Bool} :
    ReadsAll (openNested schema tag f command attributes line l).1 := by
  unfold openNested
  split
  · next heq => exact readsAll_error (isSyntax_of_table heq)
  · exact readsAll_openObject

theorem readsAll_openScalar : ReadsAll (openScalar tag attributes line) := by
  unfold openScalar
  split
  · exact readsAll_ok _
  · exact readsAll_error rfl

theorem readsAll_openCommand : ReadsAll (openCommand schema tag f attributes line l).1 := by
  unfold openCommand
  cases f.role with
  | content | scalar => exact readsAll_openScalar
  | object => exact readsAll_openNested
  | _ => exact readsAll_error rfl

theorem readsAll_openField : ReadsAll (openField schema tag f attributes line l).1 := by
  unfold openField
  cases f.role with
  | scalar => exact readsAll_openScalar
  | object | list => exact readsAll_openNested
  | _ => exact readsAll_error rfl

theorem readsAll_proseCommand : ReadsAll (proseCommand schema prose l).1 := by
  intro e h
  obtain ⟨line, rfl⟩ := exists_of_proseCommand_error h
  rfl

theorem readsAll_openInParagraph :
    ReadsAll (openInParagraph schema prose commands tag attributes line l).child := by
  unfold openInParagraph
  split
  · exact readsAll_ok _
  · split
    · split
      · next heq => exact readsAll_proseCommand.error heq
      · exact readsAll_ok _
    · split
      · exact readsAll_error rfl
      · split
        · next heq => exact readsAll_proseCommand.error heq
        · exact readsAll_openCommand

theorem readsAll_openInObject :
    ReadsAll (openInObject schema table fields tag attributes line l).child := by
  unfold openInObject
  dsimp only
  split
  · exact readsAll_error rfl
  · split
    · exact readsAll_error rfl
    · exact readsAll_openField

theorem Body.readsAll_openChild (around : String) (b : Body) :
    ReadsAll (b.openChild schema around tag attributes line l).child := by
  cases b with
  | paragraph prose commands => exact readsAll_openInParagraph
  | object table fields => exact readsAll_openInObject
  | scalar prose =>
    rw [openChild]
    split
    · exact readsAll_ok _
    · exact readsAll_error rfl
  | content table field fields prose =>
    rw [openChild]
    split
    · exact readsAll_ok _
    · split
      · exact readsAll_error rfl
      · exact readsAll_error rfl
  | image | lineBreak => exact readsAll_error rfl

theorem Body.readsAll_close (b : Body) : ReadsAll (b.close schema line l).1 := by
  cases b with
  | paragraph prose commands =>
    rw [close]
    split
    · next heq => exact readsAll_proseCommand.error heq
    · exact readsAll_ok _
  | _ => exact readsAll_ok _

theorem Body.readsAll_accept (around : String) (b : Body) (child : Frame) (v : Value) :
    ReadsAll (b.accept around child v l).1 := by
  cases b with
  | paragraph prose commands => exact readsAll_ok _
  | object table fields =>
    rw [accept]
    split
    · exact readsAll_ok _
    · exact readsAll_ok _
  | _ => exact readsAll_error rfl

end Opening

namespace Assembly
variable {a : Assembly}

theorem readsAll_openElement : ReadsAll (openElement schema tag attributes line a).1 := by
  unfold openElement
  split
  · split
    · exact readsAll_error rfl
    · exact readsAll_ok _
  · next breaks around below heq =>
    have hchild : ReadsAll (around.body.openChild schema around.tag tag attributes line a.ledger).child :=
      Body.readsAll_openChild _ _
    dsimp only
    split
    · next e he => exact readsAll_error (hchild e he)
    · exact readsAll_ok _

theorem readsAll_deliver (f : Frame) (v : Value) : ReadsAll (deliver tag line f v a).1 := by
  unfold deliver
  split
  · exact readsAll_error rfl
  · split
    · next he => exact (Body.readsAll_accept _ _ _ _).error he
    · exact readsAll_ok _

theorem readsAll_closeElement : ReadsAll (closeElement schema tag line a).1 := by
  unfold closeElement
  split
  · exact readsAll_error rfl
  · split
    · next he => exact (Body.readsAll_close _).error he
    · exact readsAll_ok _
    · exact readsAll_ok _
    · exact readsAll_deliver _ _

theorem readsAll_step (schema : Schema) (part : Part) (a : Assembly) : ReadsAll (step schema part a).1 := by
  cases part with
  | opening tag attributes line => exact readsAll_openElement
  | text s line =>
    intro e h
    obtain ⟨tag, visible, rfl⟩ := exists_of_write_error h
    rfl
  | closing tag line => exact readsAll_closeElement

/-- What the assembly refuses has been read. -/
theorem readsAll_run (schema : Schema) (parts : List Part) (a : Assembly) : ReadsAll (run schema parts a).1 := by
  induction parts generalizing a with
  | nil => exact readsAll_ok _
  | cons part parts ih =>
    have hstep := readsAll_step schema part a
    rw [run]
    split
    · exact ih _
    · next e a' heq => rw [heq] at hstep; exact readsAll_error (hstep e rfl)

end Assembly

end TaggedProse
