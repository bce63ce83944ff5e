import TaggedProse.Proofs.Text.Visible

/-! The first line of a text under way is known as soon as something visible has been written, and stays the same from
then on. -/
namespace TaggedProse
variable {s : List Char} {line n : Nat}

theorem visibleLine?_eq_some_iff : visibleLine? line s = some n ↔
    ∃ u c v, s = u ++ c :: v ∧ allBlank u = true ∧ isBlank c = false ∧ n = line + newlines u := by
  constructor
  · intro h
    induction s generalizing line with
    | nil => cases h
    | cons c s ih =>
      rw [visibleLine?] at h
      split at h
      · next hc =>
        obtain ⟨u, d, v, rfl, hu, hd, rfl⟩ := ih h
        refine ⟨c :: u, d, v, rfl, by simpa [allBlank, hc] using hu, hd, ?_⟩
        rw [newlines_cons]
        split <;> omega
      · next hc =>
        cases h
        exact ⟨[], c, s, rfl, rfl, Bool.eq_false_iff.2 hc, rfl⟩
  · rintro ⟨u, c, v, rfl, hu, hc, rfl⟩
    rw [visibleLine?_append, visibleLine?_eq_none.2 hu, Option.none_or, visibleLine?, if_neg (by simp [hc])]

namespace Prose
variable {p : Prose}

@[simp] theorem isBlank_empty : ({} : Prose).isBlank = true := rfl

@[simp] theorem isBlank_write (p : Prose) (s : List Char) (line : Nat) :
    (p.write s line).isBlank = (p.isBlank && allBlank s) := by
  simp [isBlank, write, Passage.isBlank, Passage.pieces, Passage.write, allBlank, Bool.and_assoc]

@[simp] theorem isBlank_lineBreak (p : Prose) : p.lineBreak.isBlank = p.isBlank := by
  simp [isBlank, lineBreak, Passage.isBlank, allBlank]

def Begun (p : Prose) : Prop := p.isBlank = true ↔ p.firstLine = none

theorem begun_empty : Begun {} := by simp [Begun]

theorem Begun.write (h : p.Begun) (s : List Char) (line : Nat) : (p.write s line).Begun := by
  have hline : visibleLine? line s = none ↔ allBlank s = true := visibleLine?_eq_none
  unfold Begun at h ⊢
  rw [isBlank_write, Bool.and_eq_true, h, ← hline]
  exact Option.or_eq_none_iff.symm

theorem Begun.lineBreak (h : p.Begun) : p.lineBreak.Begun := by
  rw [Begun, isBlank_lineBreak]
  exact h

/-! ### Runs of edits -/

inductive Edit where
  /-- Text is written that begins on the line. -/
  | write (s : List Char) (line : Nat)
  | lineBreak

def Edit.visibleLine? : Edit → Option Nat
  | .write s line => TaggedProse.visibleLine? line s
  | .lineBreak => none

def edit (p : Prose) : Edit → Prose
  | .write s line => p.write s line
  | .lineBreak => p.lineBreak

def ofEdits (edits : List Edit) : Prose := edits.foldl edit {}

/-- The edits write a first visible character on line `n`: nothing visible is written before it, and it is so many
lines below the beginning of its own text as that has newlines before it. -/
inductive BeginsOn : List Edit → Nat → Prop
  | visible {u v : List Char} {c : Char} {line : Nat} {later : List Edit} (blank : allBlank u = true)
      (visible : TaggedProse.isBlank c = false) : BeginsOn (.write (u ++ c :: v) line :: later) (line + newlines u)
  | blank {s : List Char} {line n : Nat} {later : List Edit} (blank : allBlank s = true) (rest : BeginsOn later n) :
      BeginsOn (.write s line :: later) n
  | lineBreak {n : Nat} {later : List Edit} (rest : BeginsOn later n) : BeginsOn (.lineBreak :: later) n

variable {edits : List Edit}

theorem beginsOn_iff : BeginsOn edits n ↔ edits.findSome? Edit.visibleLine? = some n := by
  constructor
  · intro h
    induction h with
    | visible hu hc =>
      rw [List.findSome?_cons, Edit.visibleLine?, visibleLine?_eq_some_iff.2 ⟨_, _, _, rfl, hu, hc, rfl⟩]
    | blank hs _ ih => rw [List.findSome?_cons, Edit.visibleLine?, visibleLine?_eq_none.2 hs, ih]
    | lineBreak _ ih => exact ih
  · intro h
    induction edits with
    | nil => cases h
    | cons e edits ih =>
      rw [List.findSome?_cons] at h
      cases e with
      | lineBreak => exact .lineBreak (ih h)
      | write s line =>
        cases hline : Edit.visibleLine? (.write s line) with
        | none =>
          rw [hline] at h
          exact .blank (visibleLine?_eq_none.1 hline) (ih h)
        | some m =>
          rw [hline] at h
          cases h
          obtain ⟨u, c, v, rfl, hu, hc, rfl⟩ := visibleLine?_eq_some_iff.1 hline
          exact .visible hu hc

theorem firstLine_edit (p : Prose) (e : Edit) : (p.edit e).firstLine = p.firstLine.or e.visibleLine? := by
  cases e with
  | write s line => rfl
  | lineBreak => exact Option.or_none.symm

theorem Begun.edit (h : p.Begun) (e : Edit) : (p.edit e).Begun := by
  cases e with
  | write s line => exact h.write s line
  | lineBreak => exact h.lineBreak

/-- A first line stays, and the first visible character that is written later makes one where there is none. -/
theorem firstLine_foldl_edit (edits : List Edit) (p : Prose) :
    (edits.foldl edit p).firstLine = p.firstLine.or (edits.findSome? Edit.visibleLine?) := by
  induction edits generalizing p with
  | nil => exact Option.or_none.symm
  | cons e edits ih =>
    rw [List.foldl_cons, ih, firstLine_edit, Option.or_assoc, List.findSome?_cons]
    cases e.visibleLine? <;> rfl

theorem Begun.foldl_edit (edits : List Edit) (h : p.Begun) : (edits.foldl Prose.edit p).Begun := by
  induction edits generalizing p with
  | nil => exact h
  | cons e edits ih => exact ih (h.edit e)

theorem begun_ofEdits (edits : List Edit) : (ofEdits edits).Begun := begun_empty.foldl_edit edits

theorem firstLine_ofEdits (edits : List Edit) : (ofEdits edits).firstLine = edits.findSome? Edit.visibleLine? :=
  firstLine_foldl_edit edits {}

theorem firstLine_ofEdits_eq_some_iff : (ofEdits edits).firstLine = some n ↔ BeginsOn edits n := by
  rw [firstLine_ofEdits, beginsOn_iff]

/-- What is written later makes no difference to a first line. -/
theorem firstLine_ofEdits_append (h : (ofEdits edits).firstLine = some n) (later : List Edit) :
    (ofEdits (edits ++ later)).firstLine = some n := by
  rw [ofEdits, List.foldl_append, firstLine_foldl_edit, ← ofEdits, h, Option.some_or]

end Prose

end TaggedProse
