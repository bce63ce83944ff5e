import TaggedProse.Proofs.Assembly.Invariant
import TaggedProse.Proofs.Assembly.Run

/-! What stands open while a paragraph is assembled, whatever the schema: the paragraph's own element at the
bottom, inside it elements that are no paragraphs, and nothing once it has closed. Every step keeps this, also one
that fails. -/
namespace TaggedProse
variable {schema : Schema} {table : Table} {f : Field} {tag around : String} {line : Nat} {s : List Char}
  {attributes : List (String × String)} {l l' : Ledger} {e : Failure} {breaks below : List Frame} {frame : Frame}

def Fault.atClosing : Fault → Bool
  | .unexpectedClosing _ => true
  | _ => false

def Inner : Except Failure Body → Prop
  | .ok body => body.kind ≠ .paragraph
  | .error e => e.item.atClosing = false

/-! ### Opening an element inside another -/

theorem atClosing_of_attributeFields {fields : Record Value}
    (h : (attributeFields table line l fields attributes).1 = .error e) : e.item.atClosing = false := by
  induction attributes generalizing fields l with
  | nil => cases h
  | cons a rest ih =>
    rw [attributeFields] at h
    split at h
    · cases h; rfl
    · split at h
      · exact ih h
      · cases h; rfl

theorem inner_openObject : Inner (openObject table tag attributes line l).1 := by
  unfold openObject
  split
  · split
    · next heq => exact atClosing_of_attributeFields (by rw [heq])
    · nofun
  · split
    · split
      · next heq => exact atClosing_of_attributeFields (by rw [heq])
      · nofun
    · rfl

theorem atClosing_of_table {command : Bool} {fault : Fault} (h : f.table schema tag command = .error fault) :
    fault.atClosing = false := by
  unfold Field.table at h
  split at h
  · split at h <;> cases h <;> rfl
  · split at h
    · cases h
    · cases h
      split <;> rfl

theorem inner_openNested {command : Bool} :
    Inner (openNested schema tag f command attributes line l).1 := by
  unfold openNested
  split
  · next heq => exact atClosing_of_table heq
  · exact inner_openObject

theorem inner_openScalar : Inner (openScalar tag attributes line) := by
  unfold openScalar
  split
  · nofun
  · rfl

theorem inner_openCommand : Inner (openCommand schema tag f attributes line l).1 := by
  unfold openCommand
  split
  · rfl
  · rfl
  · exact inner_openScalar
  · exact inner_openScalar
  · exact inner_openNested

theorem inner_openField : Inner (openField schema tag f attributes line l).1 := by
  unfold openField
  split
  · rfl
  · rfl
  · exact inner_openScalar
  · exact inner_openNested
  · exact inner_openNested

theorem exists_of_proseCommand_error {prose : Option Prose} (h : (proseCommand schema prose l).1 = .error e) :
    ∃ line, e = ⟨.undescribedText paragraphTag, line⟩ := by
  unfold proseCommand at h
  split at h
  · cases h
  · split at h
    · cases h
    · dsimp only at h
      split at h
      · cases h; exact ⟨_, rfl⟩
      · cases h

theorem atClosing_of_proseCommand {prose : Option Prose} (h : (proseCommand schema prose l).1 = .error e) :
    e.item.atClosing = false := by
  obtain ⟨line, rfl⟩ := exists_of_proseCommand_error h
  rfl

structure Opening.IsInner (b : Body) (o : Opening) : Prop where
  child : Inner o.child
  kind : o.parent.kind = b.kind

theorem isInner_openInParagraph (schema : Schema) (prose : Option Prose) (commands : List Command) (tag : String)
    (attributes : List (String × String)) (line : Nat) (l : Ledger) :
    (openInParagraph schema prose commands tag attributes line l).IsInner (.paragraph prose commands) := by
  unfold openInParagraph
  split
  · exact ⟨nofun, rfl⟩
  · split
    · split
      · next heq => exact ⟨atClosing_of_proseCommand (by rw [heq]), rfl⟩
      · exact ⟨nofun, rfl⟩
    · split
      · exact ⟨rfl, rfl⟩
      · split
        · next heq => exact ⟨atClosing_of_proseCommand (by rw [heq]), rfl⟩
        · exact ⟨inner_openCommand, rfl⟩

theorem isInner_openInObject (schema : Schema) (table : Table) (fields : Record Value) (tag : String)
    (attributes : List (String × String)) (line : Nat) (l : Ledger) :
    (openInObject schema table fields tag attributes line l).IsInner (.object table fields) := by
  unfold openInObject
  dsimp only
  split
  · exact ⟨rfl, rfl⟩
  · split
    · exact ⟨rfl, rfl⟩
    · exact ⟨inner_openField, rfl⟩

theorem Body.isInner_openChild (schema : Schema) (around : String) (b : Body) (tag : String)
    (attributes : List (String × String)) (line : Nat) (l : Ledger) :
    (b.openChild schema around tag attributes line l).IsInner b := by
  cases b with
  | paragraph prose commands => exact isInner_openInParagraph schema prose commands tag attributes line l
  | object table fields => exact isInner_openInObject schema table fields tag attributes line l
  | scalar prose =>
    rw [openChild]
    split
    · exact ⟨nofun, rfl⟩
    · exact ⟨rfl, rfl⟩
  | content table field fields prose =>
    rw [openChild]
    split
    · exact ⟨nofun, rfl⟩
    · split <;> exact ⟨rfl, rfl⟩
  | image => exact ⟨rfl, rfl⟩
  | lineBreak => exact ⟨rfl, rfl⟩

/-! ### Text and values in an element -/

theorem exists_of_refuseText_error (h : refuseText tag s line = .error e) :
    ∃ visible, e = ⟨.undescribedText tag, visible⟩ := by
  unfold refuseText at h
  split at h
  · cases h
  · cases h; exact ⟨_, rfl⟩

theorem Body.kind_of_write {b body : Body} (h : b.write around s line = .ok body) : body.kind = b.kind := by
  cases b with
  | object | image | lineBreak =>
    rw [write] at h
    cases hrefuse : refuseText around s line with
    | error e => rw [hrefuse] at h; cases h
    | ok u => rw [hrefuse] at h; cases h; rfl
  | _ => cases h; rfl

theorem Body.exists_of_write_error {b : Body} (h : b.write around s line = .error e) :
    ∃ visible, e = ⟨.undescribedText around, visible⟩ := by
  cases b with
  | object | image | lineBreak =>
    rw [write] at h
    cases hrefuse : refuseText around s line with
    | error e => rw [hrefuse] at h; cases h; exact exists_of_refuseText_error hrefuse
    | ok u => rw [hrefuse] at h; cases h
  | _ => cases h

theorem Body.kind_of_accept {b body : Body} {child : Frame} {v : Value}
    (h : (b.accept around child v l).1 = .ok body) : body.kind = b.kind := by
  cases b with
  | object table fields =>
    rw [accept] at h
    split at h <;> cases h <;> rfl
  | paragraph => cases h; rfl
  | _ => cases h

theorem Body.atClosing_of_accept {b : Body} {child : Frame} {v : Value}
    (h : (b.accept around child v l).1 = .error e) : e.item.atClosing = false := by
  cases b with
  | object table fields =>
    rw [accept] at h
    split at h <;> cases h
  | paragraph => cases h
  | _ => cases h; rfl

/-! ### Closing an element -/

theorem Body.atClosing_of_close {b : Body} (h : (b.close schema line l).1 = .error e) :
    e.item.atClosing = false := by
  cases b with
  | paragraph prose commands =>
    rw [close] at h
    split at h
    · next heq => cases h; exact atClosing_of_proseCommand (by rw [heq])
    · cases h
  | _ => cases h

/-- Only the paragraph leaves commands behind, and nothing else. -/
theorem Body.kind_of_close {b : Body} {closed : Closed} (h : (b.close schema line l).1 = .ok closed) :
    b.kind = .paragraph ↔ ∃ commands, closed = .commands commands := by
  cases b with
  | paragraph prose commands =>
    rw [close] at h
    split at h
    · cases h
    · cases h
      exact ⟨fun _ => ⟨_, rfl⟩, fun _ => rfl⟩
  | _ => cases h; simp [kind]

/-! ### The paragraph at the bottom -/

def Rooted : List Frame → Prop
  | [] => True
  | f :: below => (f.body.kind = .paragraph ↔ below = []) ∧ Rooted below

theorem Rooted.eq_nil {frames : List Frame} (h : Rooted frames)
    (hb : ∀ b ∈ frames, b.body.isLineBreak = true) : frames = [] := by
  induction frames with
  | nil => rfl
  | cons f frames ih =>
    obtain ⟨hf, hbelow⟩ := h
    have hkind := hf.2 (ih hbelow fun b hm => hb b (List.mem_cons_of_mem _ hm))
    rw [Body.isLineBreak_iff.1 (hb f List.mem_cons_self)] at hkind
    cases hkind

theorem ne_paragraph_of_writtenBy {f : Field} {item : Bool} {kind : Body.Kind}
    (h : f.WrittenBy schema item kind) : kind ≠ .paragraph := by
  rintro rfl
  cases h with
  | object _ _ _ hfields => cases hfields
  | item _ _ _ hfields => cases hfields

/-- Nothing is open around the paragraph. -/
theorem eq_nil_of_paragraph (h : Nested schema (frame :: below))
    (hf : frame.body.kind = .paragraph) : below = [] := by
  obtain ⟨-, -, hstands⟩ := h
  cases henclosing : enclosing below with
  | none => rw [henclosing] at hstands; exact hstands.1
  | some around =>
    rw [henclosing, hf] at hstands
    cases around with
    | paragraph =>
      rcases hstands with h | h | ⟨_, g, _, hw⟩
      · cases h
      · cases h
      · exact absurd rfl (ne_paragraph_of_writtenBy hw)
    | object table =>
      obtain ⟨g, -, -, hw⟩ := hstands
      exact absurd rfl (ne_paragraph_of_writtenBy hw)
    | _ => cases hstands

theorem Nested.rooted {frames : List Frame} (h : Nested schema frames) : Rooted frames := by
  induction frames with
  | nil => trivial
  | cons f below ih =>
    refine ⟨⟨eq_nil_of_paragraph h, ?_⟩, ih h.2.1⟩
    rintro rfl
    exact h.2.2.2

/-- The bodies may change as long as they stay what they are. -/
theorem Rooted.replace {body : Body} (h : Rooted (breaks ++ frame :: below)) (hkind : body.kind = frame.body.kind) :
    Rooted (breaks ++ { frame with body } :: below) := by
  induction breaks with
  | nil => exact ⟨by simpa only [hkind] using h.1, h.2⟩
  | cons b breaks ih => exact ⟨by simpa using h.1, ih h.2⟩

namespace Assembly
variable {a a' : Assembly} {parts : List Part} {part : Part}

/-! ### What stands open -/

def Settled (a : Assembly) : Prop := a.closed = true → a.frames = []

structure Standing (a : Assembly) : Prop where
  rooted : Rooted a.frames
  settled : a.Settled

theorem standing_new (ledger : Ledger) : Standing { ledger } := ⟨trivial, fun _ => rfl⟩

theorem eq_append_of_splitBreaks {frames : List Frame} (h : splitBreaks frames = (breaks, frame :: below)) :
    frames = breaks ++ frame :: below := by
  rw [splitBreaks, List.span_eq_takeWhile_dropWhile] at h
  obtain ⟨rfl, hbelow⟩ := Prod.mk.inj h
  rw [← hbelow]
  exact List.takeWhile_append_dropWhile.symm

theorem eq_nil_of_splitBreaks {frames : List Frame} (hr : Rooted frames)
    (h : (splitBreaks frames).2 = []) : frames = [] := by
  rcases splitBreaks_cases frames with ⟨-, hbreaks⟩ | ⟨breaks, frame, below, rfl, hbreaks, hframe⟩
  · exact hr.eq_nil hbreaks
  · rw [splitBreaks_append hbreaks hframe] at h
    cases h

theorem standing_openElement (ha : a.Standing) : (openElement schema tag attributes line a).2.Standing := by
  unfold openElement
  split
  · next heq =>
    have hnil := eq_nil_of_splitBreaks ha.rooted (by rw [heq])
    split
    · exact ha
    · next hopen =>
      simp only [Bool.or_eq_true, not_or, Bool.not_eq_true] at hopen
      exact ⟨⟨by simp [hnil, Body.kind], ha.rooted⟩, fun hclosed => absurd hclosed (by simp [hopen.1])⟩
  · next breaks around below heq =>
    have hframes := eq_append_of_splitBreaks heq
    have hopen : a.closed ≠ true := fun hclosed => by simp [ha.settled hclosed] at hframes
    have hinner := around.body.isInner_openChild schema around.tag tag attributes line a.ledger
    have hrooted := (hframes ▸ ha.rooted).replace hinner.kind
    dsimp only
    split
    · exact ⟨hrooted, fun hclosed => absurd hclosed hopen⟩
    · next body hchild =>
      have hkind : body.kind ≠ .paragraph := by
        have hbody := hinner.child
        rwa [hchild] at hbody
      exact ⟨⟨by simpa using hkind, hrooted⟩, fun hclosed => absurd hclosed hopen⟩

theorem standing_write (ha : a.Standing) : (write s line a).2.Standing := by
  unfold write
  split
  · exact ha
  · next breaks around below heq =>
    have hframes := eq_append_of_splitBreaks heq
    split
    · exact ha
    · next body hbody =>
      refine ⟨(hframes ▸ ha.rooted).replace (Body.kind_of_write hbody), fun hclosed => ?_⟩
      simp [ha.settled hclosed] at hframes

theorem standing_deliver {v : Value} (ha : a.Standing) : (deliver tag line frame v a).2.Standing := by
  unfold deliver
  split
  · exact ha
  · next breaks around below heq =>
    have hframes := eq_append_of_splitBreaks heq
    split
    · exact ⟨ha.rooted, ha.settled⟩
    · next body ledger haccept =>
      refine ⟨(hframes ▸ ha.rooted).replace (Body.kind_of_accept (by rw [haccept])), fun hclosed => ?_⟩
      simp [ha.settled hclosed] at hframes

theorem standing_closeElement (ha : a.Standing) : (closeElement schema tag line a).2.Standing := by
  unfold closeElement
  split
  · exact ha
  · next f frames hframes =>
    have hrooted : Rooted (f :: frames) := hframes ▸ ha.rooted
    have hbelow : ∀ ledger, Standing { a with frames, ledger } := fun ledger =>
      ⟨hrooted.2, fun hclosed => by simp [ha.settled hclosed] at hframes⟩
    split
    · exact hbelow _
    · exact hbelow _
    · next commands ledger hclose =>
      have hkind : f.body.kind = .paragraph := (Body.kind_of_close (by rw [hclose])).2 ⟨commands, rfl⟩
      exact ⟨hrooted.2, fun _ => hrooted.1.1 hkind⟩
    · exact standing_deliver (hbelow _)

theorem standing_step (schema : Schema) (part : Part) (ha : a.Standing) : (step schema part a).2.Standing := by
  cases part with
  | opening tag attributes line => exact standing_openElement ha
  | text s line => exact standing_write ha
  | closing tag line => exact standing_closeElement ha

theorem standing_run (schema : Schema) (parts : List Part) (ha : a.Standing) : (run schema parts a).2.Standing := by
  induction parts generalizing a with
  | nil => exact ha
  | cons part parts ih =>
    have hstep := standing_step schema part ha
    rw [run]
    split
    · next a' heq => rw [heq] at hstep; exact ih hstep
    · next e a' heq => rw [heq] at hstep; exact hstep

theorem Standing.of_step {result : Except Failure Unit} (ha : a.Standing) (h : step schema part a = (result, a')) :
    a'.Standing := by
  have hstep := standing_step schema part ha
  rwa [h] at hstep

theorem Standing.of_run {result : Except Failure Unit} (ha : a.Standing) (h : run schema parts a = (result, a')) :
    a'.Standing := by
  have hrun := standing_run schema parts ha
  rwa [h] at hrun

end Assembly

end TaggedProse
