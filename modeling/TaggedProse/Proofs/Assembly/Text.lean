import TaggedProse.Proofs.Assembly.Invariant
import TaggedProse.Proofs.Assembly.Run
import TaggedProse.Proofs.Text.Glyph

/-! Text may be fed to the assembly in pieces of any size: as a whole, or character by character with
each on its own line. -/
namespace TaggedProse
variable {s t : List Char} {line : Nat} {a : Assembly}

theorem Prose.write_append (p : Prose) (s t : List Char) (line : Nat) :
    p.write (s ++ t) line = (p.write s line).write t (line + newlines s) := by
  simp only [Prose.write, Passage.write, List.append_assoc, visibleLine?_append, Option.or_assoc]

theorem refuseText_append (tag : String) (s t : List Char) (line : Nat) :
    refuseText tag (s ++ t) line =
      (refuseText tag s line).bind fun _ => refuseText tag t (line + newlines s) := by
  unfold refuseText
  rw [visibleLine?_append]
  cases visibleLine? line s <;> rfl

/-- A body takes up any text, or refuses some texts and is not changed by the others. -/
theorem Body.write_cases (b : Body) (tag : String) :
    (∃ f : List Char → Nat → Body, (∀ s line, b.write tag s line = .ok (f s line)) ∧
      (∀ s t line, (f s line).write tag t (line + newlines s) = .ok (f (s ++ t) line)) ∧
      ∀ s line, (f s line).isLineBreak = b.isLineBreak) ∨
    ∀ s line, b.write tag s line = (refuseText tag s line).map fun _ => b := by
  cases b with
  | paragraph prose commands =>
    refine .inl ⟨fun s line => .paragraph (some ((prose.getD {}).write s line)) commands,
      fun _ _ => rfl, fun s t line => ?_, fun _ _ => rfl⟩
    simp only [write, Prose.write_append, Option.getD_some]
  | scalar prose =>
    refine .inl ⟨fun s line => .scalar (prose.write s line), fun _ _ => rfl, fun s t line => ?_,
      fun _ _ => rfl⟩
    simp only [write, Prose.write_append]
  | content table field fields prose =>
    refine .inl ⟨fun s line => .content table field fields (prose.write s line), fun _ _ => rfl,
      fun s t line => ?_, fun _ _ => rfl⟩
    simp only [write, Prose.write_append]
  | object table fields => exact .inr fun _ _ => rfl
  | image => exact .inr fun _ _ => rfl
  | lineBreak => exact .inr fun _ _ => rfl

namespace Assembly

theorem write_append (s t : List Char) (line : Nat) (a : Assembly) :
    write (s ++ t) line a =
      match write s line a with
      | (.ok (), a') => write t (line + newlines s) a'
      | (.error e, a') => (.error e, a') := by
  rcases splitBreaks_cases a.frames with ⟨hsplit, -⟩ | ⟨breaks, around, below, hframes, hb, ha⟩
  · have hwrite : ∀ u line', write u line' a = (refuseText paragraphTag u line', a) := by
      intro u line'
      rw [write, hsplit]
    rw [hwrite, hwrite, refuseText_append]
    cases refuseText paragraphTag s line with
    | error e => rfl
    | ok u => exact (hwrite t _).symm
  · have hsplit : splitBreaks a.frames = (breaks, around :: below) := hframes ▸ splitBreaks_append hb ha
    rcases around.body.write_cases around.tag with ⟨f, hok, happend, hbreak⟩ | hrefuse
    · have hf : splitBreaks (breaks ++ { around with body := f s line } :: below) =
          (breaks, { around with body := f s line } :: below) :=
        splitBreaks_append hb ((hbreak s line).trans ha)
      simp only [write, hsplit, hok, hf, happend]
    · have hwrite : ∀ u line', write u line' a = (refuseText around.tag u line', a) := by
        intro u line'
        rw [write, hsplit]
        dsimp only
        rw [hrefuse]
        cases refuseText around.tag u line' with
        | error e => rfl
        | ok u => simp only [Except.map, ← hframes]
      rw [hwrite, hwrite, refuseText_append]
      cases refuseText around.tag s line with
      | error e => rfl
      | ok u => exact (hwrite t _).symm

/-- The characters of a text, one by one, come to the same as the text. -/
theorem run_textParts (schema : Schema) (s : List Char) (hs : s ≠ []) (line : Nat) (a : Assembly) :
    run schema (textParts line s) a = step schema (.text s line) a := by
  induction s generalizing line a with
  | nil => exact absurd rfl hs
  | cons c s ih =>
    rw [textParts, run]
    cases s with
    | nil =>
      rw [textParts]
      split
      · next a' heq => exact heq.symm
      · next e a' heq => exact heq.symm
    | cons d s =>
      have happend := write_append [c] (d :: s) line a
      rw [List.singleton_append] at happend
      simp only [step] at happend ih ⊢
      rw [happend]
      cases hwrite : write [c] line a with
      | mk result a' =>
        cases result with
        | error e => rfl
        | ok u => exact ih (by simp) _ a'

end Assembly

end TaggedProse
