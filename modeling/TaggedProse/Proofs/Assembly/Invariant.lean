import Mathlib.Data.List.TakeDrop
import TaggedProse.Assembly.Basic
import TaggedProse.Proofs.Schema.Conformance

/-! The invariant of the assembly: every open element stands in an element that may hold it, and what
it has gathered so far conforms to the schema. Every step keeps it, also one that fails. -/
namespace TaggedProse

inductive Body.Kind where
  | paragraph
  | scalar
  | object (table : Table)
  | content (table : Table) (field : String)
  | image
  | lineBreak

def Body.kind : Body → Body.Kind
  | .paragraph _ _ => .paragraph
  | .scalar _ => .scalar
  | .object table _ => .object table
  | .content table field _ _ => .content table field
  | .image => .image
  | .lineBreak => .lineBreak

def Body.Kind.IsOf (table : Table) : Body.Kind → Prop
  | .object t => t = table ∧ table.content? = none
  | .content t field => t = table ∧ table.content? = some field ∧ table.elements = []
  | _ => False

structure Table.Attributes (table : Table) (fields : Record Value) : Prop where
  ascending : Record.Ascending fields
  text : ∀ e ∈ fields, ∃ f i t, table.get? e.1 = some f ∧ f.role = .attribute ∧ e.2 = .text i t

structure Schema.HasFields (schema : Schema) (table : Table) (fields : Record Value) : Prop where
  sound : table.Sound
  ascending : Record.Ascending fields
  holds : ∀ e ∈ fields, ∃ f, table.get? e.1 = some f ∧ schema.Holds f e.2

def Body.Fits (schema : Schema) : Body → Prop
  | .paragraph _ commands => ∀ c ∈ commands, schema.Admits c
  | .object table fields => schema.HasFields table fields
  | .content table _ fields _ => table.Attributes fields
  | .scalar _ | .image | .lineBreak => True

/-- An element of this kind writes the field; `item` tells whether as one item of a list. -/
inductive Field.WrittenBy (schema : Schema) (f : Field) : Bool → Body.Kind → Prop
  | text (role : f.role = .scalar ∨ f.role = .content) : WrittenBy schema f false .scalar
  | object {name : String} {table : Table} {kind : Body.Kind} (role : f.role = .object)
      (type : f.type = .object name) (found : schema.table? name = some table)
      (fields : kind.IsOf table) : WrittenBy schema f false kind
  | item {name : String} {table : Table} {kind : Body.Kind} (role : f.role = .list)
      (type : f.type = .list (.object name)) (found : schema.table? name = some table)
      (fields : kind.IsOf table) : WrittenBy schema f true kind

def StandsIn (schema : Schema) (tag : String) (item : Bool) (kind : Body.Kind) :
    Body.Kind → Prop
  | .paragraph => kind = .lineBreak ∨ kind = .image ∨
      item = false ∧ ∃ f, schema.command? tag = some f ∧ f.WrittenBy schema false kind
  | .object table => ∃ f, table.get? tag = some f ∧ f.role.isElement ∧ f.WrittenBy schema item kind
  | .scalar | .content _ _ => kind = .lineBreak
  | .image | .lineBreak => False

/-- The kind of the innermost element that is no line break. -/
def enclosing (frames : List Frame) : Option Body.Kind :=
  (Assembly.splitBreaks frames).2.head?.map (·.body.kind)

/-- The stack is well formed: the paragraph is at the bottom, and only there. -/
def Nested (schema : Schema) : List Frame → Prop
  | [] => True
  | f :: below => f.body.Fits schema ∧ Nested schema below ∧
      match enclosing below with
      | none => below = [] ∧ f.body.kind = .paragraph
      | some around => StandsIn schema f.tag f.item f.body.kind around

structure Assembly.WellFormed (schema : Schema) (a : Assembly) : Prop where
  frames : Nested schema a.frames
  commands : ∀ c ∈ a.commands, schema.Admits c

/-! ### Line breaks on the stack -/

theorem Body.isLineBreak_iff {b : Body} : b.isLineBreak = true ↔ b.kind = .lineBreak := by
  cases b <;> simp [isLineBreak, kind]

theorem Assembly.splitBreaks_append {breaks below : List Frame} {around : Frame}
    (hb : ∀ b ∈ breaks, b.body.isLineBreak = true) (ha : around.body.isLineBreak = false) :
    splitBreaks (breaks ++ around :: below) = (breaks, around :: below) := by
  rw [splitBreaks, List.span_eq_takeWhile_dropWhile, List.takeWhile_append_of_pos hb,
    List.dropWhile_append_of_pos hb]
  simp [ha]

/-- Either all frames are line breaks, or an innermost other one stands under some of them. -/
theorem Assembly.splitBreaks_cases (frames : List Frame) :
    (splitBreaks frames = (frames, []) ∧ ∀ b ∈ frames, b.body.isLineBreak = true) ∨
    ∃ breaks around below, frames = breaks ++ around :: below ∧
      (∀ b ∈ breaks, b.body.isLineBreak = true) ∧ around.body.isLineBreak = false := by
  induction frames with
  | nil => exact .inl ⟨rfl, by simp⟩
  | cons f frames ih =>
    cases hf : f.body.isLineBreak with
    | false => exact .inr ⟨[], f, frames, rfl, by simp, hf⟩
    | true =>
      rcases ih with ⟨hs, hb⟩ | ⟨breaks, around, below, rfl, hb, ha⟩
      · have hall : ∀ b ∈ f :: frames, b.body.isLineBreak = true := by simpa [hf] using hb
        refine .inl ⟨?_, hall⟩
        rw [splitBreaks, List.span_eq_takeWhile_dropWhile, ← List.append_nil (f :: frames),
          List.takeWhile_append_of_pos hall, List.dropWhile_append_of_pos hall]
        rfl
      · exact .inr ⟨f :: breaks, around, below, rfl, by simpa [hf] using hb, ha⟩

theorem enclosing_append {breaks below : List Frame} {around : Frame}
    (hb : ∀ b ∈ breaks, b.body.isLineBreak = true) (ha : around.body.isLineBreak = false) :
    enclosing (breaks ++ around :: below) = some around.body.kind := by
  rw [enclosing, Assembly.splitBreaks_append hb ha]
  rfl

/-- The bottom frame is no line break. -/
theorem Nested.eq_nil {schema : Schema} {frames : List Frame} (h : Nested schema frames)
    (hb : ∀ b ∈ frames, b.body.isLineBreak = true) : frames = [] := by
  induction frames with
  | nil => rfl
  | cons f frames ih =>
    obtain ⟨-, hbelow, hf⟩ := h
    obtain rfl := ih hbelow fun b hm => hb b (List.mem_cons_of_mem _ hm)
    have hk := hf.2.symm.trans (Body.isLineBreak_iff.1 (hb f (by simp)))
    cases hk

/-- A well-formed stack is empty or has a frame that is no line break. -/
theorem Nested.cases {schema : Schema} {frames : List Frame} (h : Nested schema frames) :
    frames = [] ∨ ∃ breaks around below, frames = breaks ++ around :: below ∧
      (∀ b ∈ breaks, b.body.isLineBreak = true) ∧ around.body.isLineBreak = false :=
  (Assembly.splitBreaks_cases frames).imp (fun hs => h.eq_nil hs.2) id

theorem Nested.of_append {schema : Schema} {breaks frames : List Frame}
    (h : Nested schema (breaks ++ frames)) : Nested schema frames := by
  induction breaks with
  | nil => exact h
  | cons b breaks ih => exact ih h.2.1

/-- What an open element has gathered may change. -/
theorem Nested.replace {schema : Schema} {breaks below : List Frame} {around : Frame} {body : Body}
    (h : Nested schema (breaks ++ around :: below))
    (hb : ∀ b ∈ breaks, b.body.isLineBreak = true) (ha : around.body.isLineBreak = false)
    (hkind : body.kind = around.body.kind) (hfits : body.Fits schema) :
    Nested schema (breaks ++ { around with body } :: below) := by
  induction breaks with
  | nil =>
    obtain ⟨-, hbelow, hstands⟩ := h
    refine ⟨hfits, hbelow, ?_⟩
    simpa only [hkind] using hstands
  | cons b breaks ih =>
    rw [List.cons_append] at h ⊢
    obtain ⟨hf, hbelow, hstands⟩ := h
    have hb' : ∀ b ∈ breaks, b.body.isLineBreak = true := fun c hc => hb c (by simp [hc])
    have hbody : body.isLineBreak = false := by
      rw [Bool.eq_false_iff, Ne, Body.isLineBreak_iff, hkind, ← Body.isLineBreak_iff, ha]
      simp
    refine ⟨hf, ih hbelow hb', ?_⟩
    rw [enclosing_append hb' ha] at hstands
    rw [enclosing_append hb' hbody, hkind]
    exact hstands

end TaggedProse
