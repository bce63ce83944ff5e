import Mathlib.Data.List.TakeDrop
import TaggedProse.Assembly.Elements
import TaggedProse.Proofs.Value.Renumbering

/-! The assembly takes identities as they come: when the ledger begins at a later identity, the same values
are made, renumbered, and nothing else is different. One equation for each operation says so. -/
namespace TaggedProse
variable {α β : Type} {schema : Schema} {table : Table} {tag around : String} {line : Nat}
  {attributes : List (String × String)}

/-! ### Renumbered states -/

namespace Ledger

def renumber (k : Nat) (l : Ledger) : Ledger := ⟨l.next + k, l.pending.map fun e => (e.1 + k, e.2)⟩

@[simp] theorem next_renumber (k : Nat) (l : Ledger) : (l.renumber k).next = l.next + k := rfl

@[simp] theorem note_renumber (k : Nat) (l : Ledger) (line : Nat) :
    (l.renumber k).note line = (l.note line).renumber k := by
  simp [note, renumber, Nat.add_right_comm]

/-- Every cleared ledger is a new one, renumbered. -/
theorem renumber_new (l : Ledger) : ({} : Ledger).renumber l.next = l.clear := by
  simp [renumber, clear]

end Ledger

def renumbered (k : Nat) (f : α → α) (c : Except Failure α × Ledger) : Except Failure α × Ledger :=
  (c.1.map f, c.2.renumber k)

def renumberCommands (k : Nat) (commands : List Command) : List Command :=
  commands.map (Command.renumber k)

namespace Body

def renumber (k : Nat) : Body → Body
  | .paragraph prose commands => .paragraph prose (renumberCommands k commands)
  | .scalar prose => .scalar prose
  | .object table fields => .object table (Value.renumberFields k fields)
  | .content table field fields prose => .content table field (Value.renumberFields k fields) prose
  | .image => .image
  | .lineBreak => .lineBreak

@[simp] theorem isLineBreak_renumber (k : Nat) (b : Body) : (b.renumber k).isLineBreak = b.isLineBreak := by
  cases b <;> rfl

end Body

namespace Frame

def renumber (k : Nat) (f : Frame) : Frame := { f with body := f.body.renumber k }

@[simp] theorem body_renumber (k : Nat) (f : Frame) : (f.renumber k).body = f.body.renumber k := rfl

@[simp] theorem tag_renumber (k : Nat) (f : Frame) : (f.renumber k).tag = f.tag := rfl

@[simp] theorem line_renumber (k : Nat) (f : Frame) : (f.renumber k).line = f.line := rfl

end Frame

def Opening.renumber (k : Nat) (o : Opening) : Opening :=
  ⟨o.parent.renumber k, o.child.map (Body.renumber k), o.item, o.ledger.renumber k⟩

def Closed.renumber (k : Nat) : Closed → Closed
  | .value v => .value (v.renumber k)
  | .commands l => .commands (renumberCommands k l)
  | .nothing => .nothing

def Assembly.renumber (k : Nat) (a : Assembly) : Assembly :=
  { frames := a.frames.map (Frame.renumber k), commands := renumberCommands k a.commands,
    closed := a.closed, ledger := a.ledger.renumber k }

theorem renumberCommands_append (k : Nat) (xs ys : List Command) :
    renumberCommands k (xs ++ ys) = renumberCommands k xs ++ renumberCommands k ys := List.map_append

/-! ### Opening elements -/

theorem attributeFields_renumber (k : Nat) (l : Ledger) (fields : Record Value) :
    attributeFields table line (l.renumber k) (Value.renumberFields k fields) attributes =
      renumbered k (Value.renumberFields k) (attributeFields table line l fields attributes) := by
  induction attributes generalizing l fields with
  | nil => rfl
  | cons a rest ih =>
    rw [attributeFields, attributeFields]
    cases table.get? a.1 with
    | none => rfl
    | some f =>
      by_cases hrole : f.role = .attribute
      · have hrest := ih (l.note line) (Record.insert a.1 (.text l.next a.2) fields)
        rw [← Value.insert_renumberFields, ← Ledger.note_renumber] at hrest
        simpa [hrole, Value.renumber] using hrest
      · simp [hrole, renumbered, Except.map]

theorem imageFields_renumber (k : Nat) (l : Ledger) (fields : Record Value) :
    imageFields line (l.renumber k) (Value.renumberFields k fields) attributes =
      (Value.renumberFields k (imageFields line l fields attributes).1,
        (imageFields line l fields attributes).2.renumber k) := by
  induction attributes generalizing l fields with
  | nil => rfl
  | cons a rest ih =>
    have hrest := ih (l.note line) (Record.insert a.1 (.text l.next a.2) fields)
    rw [← Value.insert_renumberFields, ← Ledger.note_renumber] at hrest
    exact hrest

theorem openObject_renumber (k : Nat) (l : Ledger) :
    openObject table tag attributes line (l.renumber k) =
      renumbered k (Body.renumber k) (openObject table tag attributes line l) := by
  have hfields : attributeFields table line (l.renumber k) [] attributes = _ :=
    attributeFields_renumber k l []
  unfold openObject
  rw [hfields]
  cases attributeFields table line l [] attributes with
  | mk result l' =>
    cases table.content? with
    | none => cases result <;> rfl
    | some field =>
      cases table.elements with
      | nil => cases result <;> rfl
      | cons child children => rfl

theorem openNested_renumber (k : Nat) (f : Field) (command : Bool) (l : Ledger) :
    openNested schema tag f command attributes line (l.renumber k) =
      renumbered k (Body.renumber k) (openNested schema tag f command attributes line l) := by
  unfold openNested
  cases f.table schema tag command with
  | error fault => rfl
  | ok table => exact openObject_renumber k l

theorem openScalar_renumber (k : Nat) :
    (openScalar tag attributes line).map (Body.renumber k) = openScalar tag attributes line := by
  cases attributes <;> rfl

theorem openCommand_renumber (k : Nat) (f : Field) (l : Ledger) :
    openCommand schema tag f attributes line (l.renumber k) =
      renumbered k (Body.renumber k) (openCommand schema tag f attributes line l) := by
  unfold openCommand
  cases f.role with
  | content | scalar => simp [renumbered, openScalar_renumber]
  | object => exact openNested_renumber k f true l
  | _ => rfl

theorem openField_renumber (k : Nat) (f : Field) (l : Ledger) :
    openField schema tag f attributes line (l.renumber k) =
      renumbered k (Body.renumber k) (openField schema tag f attributes line l) := by
  unfold openField
  cases f.role with
  | scalar => simp [renumbered, openScalar_renumber]
  | object | list => exact openNested_renumber k f false l
  | _ => rfl

theorem proseCommand_renumber (k : Nat) (prose : Option Prose) (l : Ledger) :
    proseCommand schema prose (l.renumber k) =
      renumbered k (renumberCommands k) (proseCommand schema prose l) := by
  unfold proseCommand
  cases prose with
  | none => rfl
  | some p =>
    by_cases hblank : p.isBlank = true
    · simp [hblank, renumbered, renumberCommands, Except.map]
    · cases schema.root.prose? with
      | none => simp [hblank, renumbered, Except.map]
      | some field =>
        simp [hblank, renumbered, renumberCommands, Except.map, Command.renumber, Value.renumber]

theorem openInParagraph_renumber (k : Nat) (prose : Option Prose) (commands : List Command) (l : Ledger) :
    openInParagraph schema prose (renumberCommands k commands) tag attributes line (l.renumber k) =
      (openInParagraph schema prose commands tag attributes line l).renumber k := by
  unfold openInParagraph
  rw [proseCommand_renumber]
  by_cases hbreak : tag = breakTag
  · simp [hbreak, Opening.renumber, Body.renumber, Except.map]
  · cases proseCommand schema prose l with
    | mk result l' =>
      by_cases himage : tag = imageTag
      · subst himage
        cases result with
        | error e => simp [hbreak, renumbered, Opening.renumber, Body.renumber, Except.map]
        | ok before =>
          have hfields : imageFields line (l'.renumber k) [] attributes = _ := imageFields_renumber k l' []
          simp [hbreak, renumbered, Opening.renumber, Body.renumber, Except.map, hfields,
            renumberCommands, Command.renumber, Value.renumber]
      · cases schema.command? tag with
        | none => simp [hbreak, himage, Opening.renumber, Body.renumber, Except.map]
        | some f =>
          cases result with
          | error e => simp [hbreak, himage, renumbered, Opening.renumber, Body.renumber, Except.map]
          | ok before =>
            simp [hbreak, himage, renumbered, Opening.renumber, Body.renumber, Except.map,
              openCommand_renumber, renumberCommands]

theorem openInObject_renumber (k : Nat) (fields : Record Value) (l : Ledger) :
    openInObject schema table (Value.renumberFields k fields) tag attributes line (l.renumber k) =
      (openInObject schema table fields tag attributes line l).renumber k := by
  unfold openInObject
  rw [Value.contains_renumberFields]
  cases table.get? tag with
  | none => rfl
  | some f =>
    dsimp only
    split
    · rfl
    · rw [openField_renumber]
      rfl

namespace Body

theorem openChild_renumber (k : Nat) (b : Body) (l : Ledger) :
    (b.renumber k).openChild schema around tag attributes line (l.renumber k) =
      (b.openChild schema around tag attributes line l).renumber k := by
  cases b with
  | paragraph prose commands => exact openInParagraph_renumber k prose commands l
  | object table fields => exact openInObject_renumber k fields l
  | scalar prose =>
    by_cases hbreak : tag = breakTag <;> simp [renumber, openChild, hbreak, Opening.renumber, Except.map]
  | content table field fields prose =>
    by_cases hbreak : tag = breakTag
    · simp [renumber, openChild, hbreak, Opening.renumber, Except.map]
    · cases hfield : table.get? tag <;>
        simp [renumber, openChild, hbreak, hfield, Opening.renumber, Except.map]
  | image => rfl
  | lineBreak => rfl

/-! ### Text and closing -/

theorem write_renumber (k : Nat) (b : Body) (s : List Char) :
    (b.renumber k).write tag s line = (b.write tag s line).map (renumber k) := by
  cases b with
  | paragraph prose commands => rfl
  | scalar prose => rfl
  | content table field fields prose => rfl
  | object table fields => cases hs : refuseText tag s line <;> simp [renumber, write, hs, Except.map]
  | image => cases hs : refuseText tag s line <;> simp [renumber, write, hs, Except.map]
  | lineBreak => cases hs : refuseText tag s line <;> simp [renumber, write, hs, Except.map]

theorem close_renumber (k : Nat) (b : Body) (l : Ledger) :
    (b.renumber k).close schema line (l.renumber k) =
      renumbered k (Closed.renumber k) (b.close schema line l) := by
  cases b with
  | paragraph prose commands =>
    rw [renumber, close, close, proseCommand_renumber]
    cases proseCommand schema prose l with
    | mk result l' =>
      cases result with
      | error e => rfl
      | ok last => simp [renumbered, Except.map, Closed.renumber, renumberCommands_append]
  | content table field fields prose =>
    have hinsert := Value.insert_renumberFields k field (.text l.next prose.text) fields
    simp only [Value.renumber] at hinsert
    simp [renumber, close, renumbered, Except.map, Closed.renumber, Value.renumber, hinsert]
  | scalar prose => simp [renumber, close, renumbered, Except.map, Closed.renumber, Value.renumber]
  | object table fields => simp [renumber, close, renumbered, Except.map, Closed.renumber, Value.renumber]
  | image => rfl
  | lineBreak => rfl

end Body

theorem addItem_renumber (k : Nat) (name : String) (v : Value) (fields : Record Value) (l : Ledger) :
    addItem name (v.renumber k) line (Value.renumberFields k fields) (l.renumber k) =
      (Value.renumberFields k (addItem name v line fields l).1, (addItem name v line fields l).2.renumber k) := by
  unfold addItem
  rw [Value.get?_renumberFields]
  cases Record.get? name fields with
  | none => simp [← Value.insert_renumberFields, Value.renumber, Value.renumberItems]
  | some w =>
    cases w with
    | list id items =>
      simp [← Value.insert_renumberFields, Value.renumber, Value.renumberItems_eq_map]
    | text id t => rfl
    | object id fields => rfl
    | content id fields field => rfl

theorem Body.accept_renumber (k : Nat) (b : Body) (child : Frame) (v : Value) (l : Ledger) :
    (b.renumber k).accept around (child.renumber k) (v.renumber k) (l.renumber k) =
      renumbered k (Body.renumber k) (b.accept around child v l) := by
  cases b with
  | paragraph prose commands =>
    simp [renumber, accept, renumbered, Except.map, renumberCommands, Command.renumber, Frame.renumber]
  | object table fields =>
    rw [renumber, accept, accept]
    cases hitem : child.item with
    | true =>
      simp [Frame.renumber, hitem, addItem_renumber, renumbered, Except.map, renumber]
    | false =>
      simp [Frame.renumber, hitem, Value.insert_renumberFields, renumbered, Except.map, renumber]
  | scalar prose => rfl
  | content table field fields prose => rfl
  | image => rfl
  | lineBreak => rfl

/-! ### Steps -/

namespace Assembly

def renumberEnd (k : Nat) (r : Except Failure Unit × Assembly) : Except Failure Unit × Assembly :=
  (r.1, r.2.renumber k)

theorem splitBreaks_renumber (k : Nat) (frames : List Frame) :
    splitBreaks (frames.map (Frame.renumber k)) =
      ((splitBreaks frames).1.map (Frame.renumber k), (splitBreaks frames).2.map (Frame.renumber k)) := by
  have hbreak : (fun f : Frame => f.body.isLineBreak) ∘ Frame.renumber k = fun f => f.body.isLineBreak := by
    funext f
    exact Body.isLineBreak_renumber k f.body
  simp [splitBreaks, List.span_eq_takeWhile_dropWhile, List.takeWhile_map, List.dropWhile_map, hbreak]

theorem openElement_renumber (k : Nat) (a : Assembly) :
    openElement schema tag attributes line (a.renumber k) =
      renumberEnd k (openElement schema tag attributes line a) := by
  unfold openElement
  rw [renumber, splitBreaks_renumber]
  cases splitBreaks a.frames with
  | mk breaks others =>
    cases others with
    | nil => cases (a.closed || tag != paragraphTag) <;> simp [renumberEnd, renumber, Frame.renumber,
        Body.renumber, renumberCommands]
    | cons f below =>
      have hopening : (f.body.renumber k).openChild schema f.tag tag attributes line (a.ledger.renumber k) = _ :=
        Body.openChild_renumber k f.body a.ledger
      simp only [List.map_cons, Frame.renumber, hopening]
      cases hchild : (f.body.openChild schema f.tag tag attributes line a.ledger).child with
      | error e =>
        simp [Opening.renumber, hchild, Except.map, renumberEnd, renumber, Frame.renumber]
      | ok body =>
        simp [Opening.renumber, hchild, Except.map, renumberEnd, renumber, Frame.renumber]

theorem write_renumber (k : Nat) (s : List Char) (a : Assembly) :
    write s line (a.renumber k) = renumberEnd k (write s line a) := by
  unfold write
  rw [renumber, splitBreaks_renumber]
  cases splitBreaks a.frames with
  | mk breaks others =>
    cases others with
    | nil => rfl
    | cons f below =>
      simp only [List.map_cons, Frame.renumber, Body.write_renumber]
      cases f.body.write f.tag s line with
      | error e => rfl
      | ok body => simp [Except.map, renumberEnd, renumber, Frame.renumber]

theorem deliver_renumber (k : Nat) (child : Frame) (v : Value) (a : Assembly) :
    deliver tag line (child.renumber k) (v.renumber k) (a.renumber k) =
      renumberEnd k (deliver tag line child v a) := by
  unfold deliver
  rw [renumber, splitBreaks_renumber]
  cases splitBreaks a.frames with
  | mk breaks others =>
    cases others with
    | nil => rfl
    | cons f below =>
      have haccept : (f.body.renumber k).accept f.tag (child.renumber k) (v.renumber k) (a.ledger.renumber k) = _ :=
        Body.accept_renumber k f.body child v a.ledger
      simp only [List.map_cons, Frame.body_renumber, Frame.tag_renumber, haccept]
      cases f.body.accept f.tag child v a.ledger with
      | mk result l =>
        cases result with
        | error e => rfl
        | ok body => simp [renumbered, Except.map, renumberEnd, renumber, Frame.renumber]

theorem closeElement_renumber (k : Nat) (a : Assembly) :
    closeElement schema tag line (a.renumber k) = renumberEnd k (closeElement schema tag line a) := by
  unfold closeElement
  cases hframes : a.frames with
  | nil => simp [renumber, hframes, renumberEnd]
  | cons f frames =>
    have hclose : (f.body.renumber k).close schema f.line (a.ledger.renumber k) = _ :=
      Body.close_renumber k f.body a.ledger
    simp only [renumber, hframes, List.map_cons, Frame.body_renumber, Frame.line_renumber, hclose]
    cases f.body.close schema f.line a.ledger with
    | mk result l =>
      cases result with
      | error e => rfl
      | ok closed =>
        cases closed with
        | nothing => rfl
        | commands more => simp [renumbered, Except.map, Closed.renumber, renumberEnd, renumber,
            renumberCommands_append]
        | value v => exact deliver_renumber k f v { a with frames, ledger := l }

theorem step_renumber (k : Nat) (part : Part) (a : Assembly) :
    step schema part (a.renumber k) = renumberEnd k (step schema part a) := by
  cases part with
  | opening tag attributes line => exact openElement_renumber k a
  | text s line => exact write_renumber k s a
  | closing tag line => exact closeElement_renumber k a

theorem run_renumber (k : Nat) (parts : List Part) (a : Assembly) :
    run schema parts (a.renumber k) = renumberEnd k (run schema parts a) := by
  induction parts generalizing a with
  | nil => rfl
  | cons part parts ih =>
    rw [run, run, step_renumber]
    cases step schema part a with
    | mk result a' =>
      cases result with
      | error e => rfl
      | ok u => exact ih a'

theorem finish_renumber (k : Nat) (a : Assembly) :
    (a.renumber k).finish line = (a.finish line).map (renumberCommands k) := by
  unfold finish renumber
  cases a.closed with
  | true => rfl
  | false => cases a.frames <;> rfl

theorem feedAll_renumber (k : Nat) (events : List (Nat × Xml.Event)) (a : Assembly) :
    feedAll schema events (a.renumber k) =
      { feedAll schema events a with assembly := (feedAll schema events a).assembly.renumber k } := by
  induction events generalizing a with
  | nil => rfl
  | cons event events ih =>
    have hfeed : feed schema event.1 event.2 (a.renumber k) = renumberEnd k (feed schema event.1 event.2 a) := by
      unfold feed
      cases event.2.parts event.1 with
      | error e => rfl
      | ok parts => exact run_renumber k parts a
    rw [feedAll, feedAll, hfeed]
    cases feed schema event.1 event.2 a with
    | mk result a' =>
      cases result with
      | error e => rfl
      | ok u =>
        dsimp only [renumberEnd]
        rw [ih]
        split <;> rfl

end Assembly

/-- The commands in a text of elements are the same from every ledger, renumbered. -/
theorem assemble_renumber (k : Nat) (l : Ledger) (s : List Char) :
    assemble schema (l.renumber k) s =
      ⟨(assemble schema l s).result.map (renumberCommands k), (assemble schema l s).ledger.renumber k,
        (assemble schema l s).ignored⟩ := by
  have hnew : ({ ledger := l.renumber k } : Assembly) = ({ ledger := l } : Assembly).renumber k := rfl
  unfold assemble
  rw [hnew]
  dsimp only
  rw [Assembly.feedAll_renumber]
  generalize Assembly.feedAll schema _ { ledger := l } = fed
  cases fed.result with
  | error e => rfl
  | ok u =>
    cases (Xml.read s).fault with
    | some fault => rfl
    | none =>
      dsimp only
      rw [Assembly.finish_renumber]
      rfl

end TaggedProse
