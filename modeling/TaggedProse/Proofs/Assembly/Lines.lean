import TaggedProse.Proofs.Assembly.Invariant
import TaggedProse.Proofs.Assembly.Prose
import TaggedProse.Proofs.Assembly.Run

/-! Where lines come from. Every line that is noted, and the line of every failure, is that of a tag or of
a visible character that has been fed. -/
namespace TaggedProse
variable {P : Nat → Prop} {schema : Schema} {table : Table} {f : Field} {tag around : String}
  {line : Nat} {attributes : List (String × String)} {l l' : Ledger} {e : Failure} {s : List Char}

/-! ### Prose -/

structure Prose.Within (P : Nat → Prop) (p : Prose) : Prop where
  line : ∀ n, p.firstLine = some n → P n
  visible : p.isBlank = false → p.firstLine ≠ none

theorem Prose.within_empty (P : Nat → Prop) : Prose.Within P {} := ⟨by simp, by decide⟩

theorem Prose.Within.write {p : Prose} (h : p.Within P) (hs : ∀ n, visibleLine? line s = some n → P n) :
    (p.write s line).Within P := by
  constructor
  · intro n hn
    rcases Option.or_eq_some_iff.1 hn with hn | ⟨-, hn⟩
    · exact h.line n hn
    · exact hs n hn
  · intro hblank hnone
    obtain ⟨hfirst, hs⟩ := Option.or_eq_none_iff.1 hnone
    have hold : p.isBlank = true := by
      cases hb : p.isBlank with
      | true => rfl
      | false => exact absurd hfirst (h.visible hb)
    rw [Prose.isBlank_write, hold, visibleLine?_eq_none.1 hs] at hblank
    cases hblank

theorem Prose.Within.lineBreak {p : Prose} (h : p.Within P) : p.lineBreak.Within P := by
  refine ⟨h.line, fun hblank => h.visible ?_⟩
  rwa [Prose.isBlank_lineBreak] at hblank

def Body.Within (P : Nat → Prop) : Body → Prop
  | .paragraph prose _ => ∀ p ∈ prose, p.Within P
  | .scalar prose | .content _ _ _ prose => prose.Within P
  | .object _ _ | .image | .lineBreak => True

/-! ### Opening an element -/

def Opened (P : Nat → Prop) (line : Nat) : Except Failure Body → Prop
  | .error e => e.line = line
  | .ok body => body.Within P

theorem line_of_attributeFields {fields : Record Value}
    (h : attributeFields table line l fields attributes = (.error e, l')) : e.line = line := by
  induction attributes generalizing l fields with
  | nil => cases h
  | cons pair rest ih =>
    rw [attributeFields] at h
    split at h
    · cases h; rfl
    · split at h
      · exact ih h
      · cases h; rfl

theorem opened_openObject : Opened P line (openObject table tag attributes line l).1 := by
  unfold openObject
  split
  · split
    · next hfields => exact line_of_attributeFields hfields
    · trivial
  · split
    · split
      · next hfields => exact line_of_attributeFields hfields
      · exact Prose.within_empty P
    · rfl

theorem opened_openNested {command : Bool} :
    Opened P line (openNested schema tag f command attributes line l).1 := by
  unfold openNested
  split
  · rfl
  · exact opened_openObject

theorem opened_openScalar : Opened P line (openScalar tag attributes line) := by
  unfold openScalar
  split
  · exact Prose.within_empty P
  · rfl

theorem opened_openCommand : Opened P line (openCommand schema tag f attributes line l).1 := by
  unfold openCommand
  cases f.role with
  | content | scalar => exact opened_openScalar
  | object => exact opened_openNested
  | _ => rfl

theorem opened_openField : Opened P line (openField schema tag f attributes line l).1 := by
  unfold openField
  cases f.role with
  | scalar => exact opened_openScalar
  | object | list => exact opened_openNested
  | _ => rfl

/-! ### Noted lines -/

def Ledger.Within (P : Nat → Prop) (l : Ledger) : Prop := ∀ entry ∈ l.pending, P entry.2

theorem Ledger.Within.note (h : l.Within P) (hline : P line) : (l.note line).Within P := by
  intro entry hm
  rcases List.mem_cons.1 hm with rfl | hm
  · exact hline
  · exact h entry hm

theorem within_attributeFields (table : Table) (attributes : List (String × String)) (h : l.Within P)
    (hline : P line) (fields : Record Value) :
    (attributeFields table line l fields attributes).2.Within P := by
  induction attributes generalizing l fields with
  | nil => exact h
  | cons pair rest ih =>
    rw [attributeFields]
    split
    · exact h
    · split
      · exact ih (h.note hline) _
      · exact h

theorem within_imageFields (h : l.Within P) (hline : P line) (fields : Record Value) :
    (imageFields line l fields attributes).2.Within P := by
  induction attributes generalizing l fields with
  | nil => exact h
  | cons pair rest ih => exact ih (h.note hline) _

theorem within_openObject (h : l.Within P) (hline : P line) :
    (openObject table tag attributes line l).2.Within P := by
  have hfields := within_attributeFields table attributes h hline []
  unfold openObject
  split
  · split
    · next heq => rw [heq] at hfields; exact hfields
    · next heq => rw [heq] at hfields; exact hfields
  · split
    · split
      · next heq => rw [heq] at hfields; exact hfields
      · next heq => rw [heq] at hfields; exact hfields
    · exact h

theorem within_openNested {command : Bool} (h : l.Within P) (hline : P line) :
    (openNested schema tag f command attributes line l).2.Within P := by
  unfold openNested
  split
  · exact h
  · exact within_openObject h hline

theorem within_openCommand (h : l.Within P) (hline : P line) :
    (openCommand schema tag f attributes line l).2.Within P := by
  unfold openCommand
  split
  · exact h
  · exact h
  · exact h
  · exact h
  · exact within_openNested h hline

theorem within_openField (h : l.Within P) (hline : P line) :
    (openField schema tag f attributes line l).2.Within P := by
  unfold openField
  split
  · exact h
  · exact h
  · exact h
  · exact within_openNested h hline
  · exact within_openNested h hline

theorem within_proseCommand (schema : Schema) {prose : Option Prose} (hp : ∀ p ∈ prose, p.Within P)
    (h : l.Within P) :
    (proseCommand schema prose l).2.Within P ∧
      ∀ e, (proseCommand schema prose l).1 = .error e → P e.line := by
  unfold proseCommand
  cases prose with
  | none => exact ⟨h, fun e he => by cases he⟩
  | some p =>
    have hwithin := hp p rfl
    dsimp only
    cases hb : p.isBlank with
    | true => exact ⟨h, fun e he => by cases he⟩
    | false =>
      obtain ⟨n, hn⟩ := Option.ne_none_iff_exists'.1 (hwithin.visible hb)
      have hline : P (p.firstLine.getD 0) := by rw [hn]; exact hwithin.line n hn
      simp only [Bool.false_eq_true, if_false]
      cases schema.root.prose? with
      | none => exact ⟨h, fun e he => by cases he; exact hline⟩
      | some field => exact ⟨h.note hline, fun e he => by cases he⟩

/-! ### Bodies -/

theorem within_openInParagraph {prose : Option Prose} {commands : List Command}
    (hp : ∀ p ∈ prose, p.Within P) (hl : l.Within P) (hline : P line) :
    (openInParagraph schema prose commands tag attributes line l).parent.Within P ∧
      (openInParagraph schema prose commands tag attributes line l).ledger.Within P := by
  have hempty : ∀ p ∈ (none : Option Prose), p.Within P := fun p hp => by cases hp
  obtain ⟨hflush, -⟩ := within_proseCommand schema hp hl
  unfold openInParagraph
  split
  · refine ⟨fun p hm => ?_, hl⟩
    cases hm
    cases prose with
    | none => exact (Prose.within_empty P).lineBreak
    | some p => exact (hp p rfl).lineBreak
  · split
    · split
      · next heq => rw [heq] at hflush; exact ⟨hempty, hflush⟩
      · next heq =>
        rw [heq] at hflush
        exact ⟨hempty, (within_imageFields hflush hline []).note hline⟩
    · split
      · exact ⟨hp, hl⟩
      · split
        · next heq => rw [heq] at hflush; exact ⟨hempty, hflush⟩
        · next heq => rw [heq] at hflush; exact ⟨hempty, within_openCommand hflush hline⟩

theorem within_openInObject {fields : Record Value} (hl : l.Within P) (hline : P line) :
    (openInObject schema table fields tag attributes line l).parent.Within P ∧
      (openInObject schema table fields tag attributes line l).ledger.Within P := by
  unfold openInObject
  dsimp only
  split
  · exact ⟨trivial, hl⟩
  · split
    · exact ⟨trivial, hl⟩
    · exact ⟨trivial, within_openField hl hline⟩

theorem within_openChild (schema : Schema) (around tag : String) (attributes : List (String × String))
    {b : Body} (hb : b.Within P) (hl : l.Within P) (hline : P line) :
    (b.openChild schema around tag attributes line l).parent.Within P ∧
      (b.openChild schema around tag attributes line l).ledger.Within P := by
  cases b with
  | paragraph prose commands => exact within_openInParagraph hb hl hline
  | object table fields => exact within_openInObject hl hline
  | scalar prose =>
    rw [Body.openChild]
    split
    · exact ⟨Prose.Within.lineBreak hb, hl⟩
    · exact ⟨hb, hl⟩
  | content table field fields prose =>
    rw [Body.openChild]
    split
    · exact ⟨Prose.Within.lineBreak hb, hl⟩
    · split
      · exact ⟨hb, hl⟩
      · exact ⟨hb, hl⟩
  | image => exact ⟨trivial, hl⟩
  | lineBreak => exact ⟨trivial, hl⟩

/-- An element is refused on its own line. Only the prose before it, in a paragraph, may be refused
instead. -/
theorem opened_child (P : Nat → Prop) (schema : Schema) (around : String) (b : Body) (tag : String)
    (attributes : List (String × String)) (line : Nat) (l : Ledger) :
    Opened P line (b.openChild schema around tag attributes line l).child ∨
      ∃ prose commands e, b = .paragraph prose commands ∧
        (b.openChild schema around tag attributes line l).child = .error e ∧
        (proseCommand schema prose l).1 = .error e := by
  cases b with
  | paragraph prose commands =>
    rw [Body.openChild]
    unfold openInParagraph
    split
    · exact .inl trivial
    · split
      · split
        · next e l' heq => exact .inr ⟨prose, commands, e, rfl, rfl, by rw [heq]⟩
        · exact .inl trivial
      · split
        · exact .inl rfl
        · split
          · next e l' heq => exact .inr ⟨prose, commands, e, rfl, rfl, by rw [heq]⟩
          · exact .inl opened_openCommand
  | object table fields =>
    rw [Body.openChild]
    unfold openInObject
    dsimp only
    split
    · exact .inl rfl
    · split
      · exact .inl rfl
      · exact .inl opened_openField
  | scalar prose =>
    rw [Body.openChild]
    split
    · exact .inl trivial
    · exact .inl rfl
  | content table field fields prose =>
    rw [Body.openChild]
    split
    · exact .inl trivial
    · split
      · exact .inl rfl
      · exact .inl rfl
  | image => exact .inl rfl
  | lineBreak => exact .inl rfl

theorem within_child (schema : Schema) (around tag : String) (attributes : List (String × String))
    {b : Body} (hb : b.Within P) (hl : l.Within P) (hline : P line) :
    match (b.openChild schema around tag attributes line l).child with
    | .error e => P e.line
    | .ok body => body.Within P := by
  rcases opened_child P schema around b tag attributes line l with h | ⟨prose, commands, e, rfl, h, hflush⟩
  · cases hchild : (b.openChild schema around tag attributes line l).child with
    | error e =>
      rw [hchild] at h
      have hat : e.line = line := h
      change P e.line
      rw [hat]
      exact hline
    | ok body => rw [hchild] at h; exact h
  · rw [h]
    exact (within_proseCommand schema hb hl).2 e hflush

theorem within_refuseText (hs : ∀ n, visibleLine? line s = some n → P n)
    (h : refuseText tag s line = .error e) : P e.line := by
  unfold refuseText at h
  split at h
  · cases h
  · next n hn => cases h; exact hs n hn

theorem within_write (tag : String) {b : Body} (hb : b.Within P)
    (hs : ∀ n, visibleLine? line s = some n → P n) :
    match b.write tag s line with
    | .error e => P e.line
    | .ok body => body.Within P := by
  have hrefuse : ∀ b : Body, b.Within P →
      match (refuseText tag s line).map fun _ => b with
      | .error e => P e.line
      | .ok body => body.Within P := by
    intro b hb
    cases hr : refuseText tag s line with
    | error e => exact within_refuseText hs hr
    | ok u => exact hb
  cases b with
  | paragraph prose commands =>
    intro p hm
    cases hm
    cases prose with
    | none => exact (Prose.within_empty P).write hs
    | some p => exact (hb p rfl).write hs
  | scalar prose => exact Prose.Within.write hb hs
  | content table field fields prose => exact Prose.Within.write hb hs
  | object table fields => exact hrefuse _ trivial
  | image => exact hrefuse _ trivial
  | lineBreak => exact hrefuse _ trivial

theorem within_close (schema : Schema) {b : Body} (hb : b.Within P) (hl : l.Within P) (hline : P line) :
    (b.close schema line l).2.Within P ∧ ∀ e, (b.close schema line l).1 = .error e → P e.line := by
  cases b with
  | paragraph prose commands =>
    obtain ⟨hflush, hfault⟩ := within_proseCommand schema hb hl
    rw [Body.close]
    split
    · next e l' heq =>
      rw [heq] at hflush hfault
      exact ⟨hflush, fun e' he => hfault e' (by cases he; rfl)⟩
    · next last l' heq =>
      rw [heq] at hflush
      exact ⟨hflush, fun e' he => by cases he⟩
  | scalar prose => exact ⟨hl.note hline, fun e he => by cases he⟩
  | object table fields => exact ⟨hl.note hline, fun e he => by cases he⟩
  | content table field fields prose =>
    have htext : P (prose.firstLine.getD line) := by
      cases hfirst : prose.firstLine with
      | none => exact hline
      | some n => exact hb.line n hfirst
    exact ⟨(hl.note htext).note hline, fun e he => by cases he⟩
  | image => exact ⟨hl, fun e he => by cases he⟩
  | lineBreak => exact ⟨hl, fun e he => by cases he⟩

theorem within_addItem {name : String} {v : Value} {fields : Record Value} (hl : l.Within P)
    (hline : P line) : (addItem name v line fields l).2.Within P := by
  unfold addItem
  split
  · exact hl
  · exact hl
  · exact hl.note hline

theorem within_accept (around : String) (v : Value) {b : Body} {child : Frame} (hb : b.Within P)
    (hl : l.Within P) (hline : P child.line) :
    (b.accept around child v l).2.Within P ∧
      match (b.accept around child v l).1 with
      | .error e => P e.line
      | .ok body => body.Within P := by
  cases b with
  | paragraph prose commands => exact ⟨hl, hb⟩
  | object table fields =>
    rw [Body.accept]
    split
    · exact ⟨within_addItem hl hline, trivial⟩
    · exact ⟨hl, trivial⟩
  | scalar prose => exact ⟨hl, hline⟩
  | content table field fields prose => exact ⟨hl, hline⟩
  | image => exact ⟨hl, hline⟩
  | lineBreak => exact ⟨hl, hline⟩

/-! ### Steps and runs -/

structure Frame.Within (P : Nat → Prop) (f : Frame) : Prop where
  line : P f.line
  body : f.body.Within P

structure Assembly.Within (P : Nat → Prop) (a : Assembly) : Prop where
  frames : ∀ f ∈ a.frames, f.Within P
  ledger : a.ledger.Within P

def Part.Within (P : Nat → Prop) : Part → Prop
  | .opening _ _ line | .closing _ line => P line
  | .text s line => ∀ n, visibleLine? line s = some n → P n

namespace Assembly
variable {a : Assembly}

def EndsWithin (P : Nat → Prop) (r : Except Failure Unit × Assembly) : Prop :=
  r.2.Within P ∧ ∀ e, r.1 = .error e → P e.line

theorem forall_splitBreaks {breaks below : List Frame} {f : Frame} {p : Frame → Prop}
    (h : splitBreaks a.frames = (breaks, f :: below)) (hp : ∀ f ∈ a.frames, p f) :
    (∀ f ∈ breaks, p f) ∧ p f ∧ ∀ f ∈ below, p f := by
  rw [splitBreaks, List.span_eq_takeWhile_dropWhile] at h
  obtain ⟨rfl, hdrop⟩ := Prod.mk.inj h
  rw [← List.takeWhile_append_dropWhile (p := (·.body.isLineBreak)) (l := a.frames), hdrop] at hp
  refine ⟨fun g hg => hp g (List.mem_append_left _ hg), hp f (by simp), fun g hg => hp g (by simp [hg])⟩

theorem within_replace {breaks below : List Frame} {f : Frame} {body : Body} {l : Ledger}
    (hframes : (∀ f ∈ breaks, f.Within P) ∧ f.Within P ∧ ∀ f ∈ below, f.Within P)
    (hbody : body.Within P) (hl : l.Within P) :
    ({ a with frames := breaks ++ { f with body } :: below, ledger := l } : Assembly).Within P := by
  refine ⟨fun g hg => ?_, hl⟩
  rcases List.mem_append.1 hg with hg | hg
  · exact hframes.1 g hg
  · rcases List.mem_cons.1 hg with rfl | hg
    · exact ⟨hframes.2.1.line, hbody⟩
    · exact hframes.2.2 g hg

theorem within_openElement (h : a.Within P) (hline : P line) :
    EndsWithin P (openElement schema tag attributes line a) := by
  unfold openElement
  split
  · split
    · exact ⟨h, fun e he => by cases he; exact hline⟩
    · refine ⟨⟨fun f hf => ?_, h.ledger⟩, fun e he => by cases he⟩
      rcases List.mem_cons.1 hf with rfl | hf
      · exact ⟨hline, fun p hp => by cases hp⟩
      · exact h.frames f hf
  · next breaks f below heq =>
    have hframes := forall_splitBreaks heq h.frames
    obtain ⟨hparent, hledger⟩ := within_openChild schema f.tag tag attributes hframes.2.1.body h.ledger hline
    have hchild := within_child schema f.tag tag attributes hframes.2.1.body h.ledger hline
    have hnew := within_replace (a := a) hframes hparent hledger
    dsimp only
    split
    · next e heq =>
      rw [heq] at hchild
      exact ⟨hnew, fun e' he => by cases he; exact hchild⟩
    · next body heq =>
      rw [heq] at hchild
      refine ⟨⟨fun g hg => ?_, hledger⟩, fun e he => by cases he⟩
      rcases List.mem_cons.1 hg with rfl | hg
      · exact ⟨hline, hchild⟩
      · exact hnew.frames g hg

theorem within_writeText (h : a.Within P) (hs : ∀ n, visibleLine? line s = some n → P n) :
    EndsWithin P (write s line a) := by
  unfold write
  split
  · exact ⟨h, fun e he => within_refuseText hs he⟩
  · next breaks f below heq =>
    have hframes := forall_splitBreaks heq h.frames
    have hwrite := within_write f.tag hframes.2.1.body hs
    split
    · next e heq =>
      rw [heq] at hwrite
      exact ⟨h, fun e' he => by cases he; exact hwrite⟩
    · next body heq =>
      rw [heq] at hwrite
      exact ⟨within_replace (a := a) hframes hwrite h.ledger, fun e he => by cases he⟩

theorem within_deliver {f : Frame} {v : Value} (h : a.Within P) (hf : P f.line) (hline : P line) :
    EndsWithin P (deliver tag line f v a) := by
  unfold deliver
  split
  · exact ⟨h, fun e he => by cases he; exact hline⟩
  · next breaks g below heq =>
    have hframes := forall_splitBreaks heq h.frames
    obtain ⟨hledger, haccept⟩ := within_accept g.tag v hframes.2.1.body h.ledger hf
    split
    · next e l heq =>
      rw [heq] at hledger haccept
      exact ⟨⟨h.frames, hledger⟩, fun e' he => by cases he; exact haccept⟩
    · next body l heq =>
      rw [heq] at hledger haccept
      exact ⟨within_replace (a := a) hframes haccept hledger, fun e he => by cases he⟩

theorem within_closeElement (h : a.Within P) (hline : P line) :
    EndsWithin P (closeElement schema tag line a) := by
  unfold closeElement
  cases hframes : a.frames with
  | nil => exact ⟨h, fun e he => by cases he; exact hline⟩
  | cons f frames =>
    have hf := h.frames f (by simp [hframes])
    have hbelow : ∀ g ∈ frames, g.Within P := fun g hg => h.frames g (by simp [hframes, hg])
    obtain ⟨hledger, hfault⟩ := within_close schema hf.body h.ledger hf.line
    dsimp only
    split
    · next e l heq =>
      rw [heq] at hledger hfault
      exact ⟨⟨hbelow, hledger⟩, fun e' he => hfault e' (by cases he; rfl)⟩
    · next l heq =>
      rw [heq] at hledger
      exact ⟨⟨hbelow, hledger⟩, fun e he => by cases he⟩
    · next commands l heq =>
      rw [heq] at hledger
      exact ⟨⟨hbelow, hledger⟩, fun e he => by cases he⟩
    · next v l heq =>
      rw [heq] at hledger
      exact within_deliver ⟨hbelow, hledger⟩ hf.line hline

theorem within_step (schema : Schema) {part : Part} (h : a.Within P) (hp : part.Within P) :
    EndsWithin P (step schema part a) := by
  cases part with
  | opening tag attributes line => exact within_openElement h hp
  | text s line => exact within_writeText h hp
  | closing tag line => exact within_closeElement h hp

theorem within_run (schema : Schema) {parts : List Part} (h : a.Within P)
    (hp : ∀ part ∈ parts, part.Within P) :
    EndsWithin P (run schema parts a) := by
  induction parts generalizing a with
  | nil => exact ⟨h, fun e he => by cases he⟩
  | cons part parts ih =>
    have hstep := within_step schema h (hp part List.mem_cons_self)
    rw [run]
    split
    · next a' heq =>
      rw [heq] at hstep
      exact ih hstep.1 fun q hq => hp q (List.mem_cons_of_mem _ hq)
    · next e a' heq =>
      rw [heq] at hstep
      exact ⟨hstep.1, fun e' he => hstep.2 e' (by cases he; rfl)⟩

end Assembly

end TaggedProse
