import Mathlib.Data.List.Forall2
import TaggedProse.Proofs.Assembly.Text
import TaggedProse.Proofs.Text.LineEnds

/-! Texts with line ends of two characters, assembled. Two assemblies that have the same elements open, with the same
texts in them up to carriage returns in front of newlines, take the same tags and such texts in the same way. -/
namespace TaggedProse
variable {schema : Schema} {tag : String} {attributes : List (String × String)} {line : Nat} {s t : List Char}
  {l : Ledger}

/-! ### Prose -/

theorem map_eq_of_forall₂ {α β γ : Type} {R : α → β → Prop} {f : α → γ} {g : β → γ} {xs : List α} {ys : List β}
    (h : List.Forall₂ R xs ys) (hfg : ∀ x y, R x y → f x = g y) : xs.map f = ys.map g := by
  induction h with
  | nil => rfl
  | cons hxy _ ih => rw [List.map_cons, List.map_cons, hfg _ _ hxy, ih]

structure Passage.Matches (p p' : Passage) : Prop where
  before : List.Forall₂ Returned p.before p'.before
  current : Returned p.current p'.current

namespace Passage.Matches
variable {p p' : Passage}

theorem refl (p : Passage) : p.Matches p := ⟨List.forall₂_same.2 fun s _ => .refl s, .refl _⟩

theorem pieces (h : p.Matches p') : List.Forall₂ Returned p.pieces p'.pieces :=
  List.rel_append h.before (.cons h.current .nil)

theorem write (h : p.Matches p') (hs : Returned s t) : (p.write s).Matches (p'.write t) :=
  ⟨h.before, h.current.append hs⟩

theorem lineBreak (h : p.Matches p') : p.lineBreak.Matches p'.lineBreak := ⟨h.pieces, .nil⟩

theorem isBlank_eq (h : p.Matches p') : p'.isBlank = p.isBlank := by
  have hblank := map_eq_of_forall₂ h.pieces fun _ _ hs => hs.allBlank_eq.symm
  simpa [Passage.isBlank, List.all_map] using congrArg (List.all · id) hblank.symm

theorem text_eq (h : p.Matches p') : p'.text = p.text := by
  rw [text, text, chars, chars, map_eq_of_forall₂ h.pieces fun _ _ hs => hs.squeeze_eq.symm]

end Passage.Matches

structure Prose.Matches (p p' : Prose) : Prop where
  passage : p.passage.Matches p'.passage
  firstLine : p'.firstLine = p.firstLine

namespace Prose.Matches
variable {p p' : Prose}

theorem refl (p : Prose) : p.Matches p := ⟨.refl _, rfl⟩

theorem write (h : p.Matches p') (hs : Returned s t) (line : Nat) : (p.write s line).Matches (p'.write t line) :=
  ⟨h.passage.write hs, by rw [Prose.write, Prose.write, h.firstLine, hs.visibleLine?_eq]⟩

theorem lineBreak (h : p.Matches p') : p.lineBreak.Matches p'.lineBreak := ⟨h.passage.lineBreak, h.firstLine⟩

theorem isBlank_eq (h : p.Matches p') : p'.isBlank = p.isBlank := h.passage.isBlank_eq

theorem text_eq (h : p.Matches p') : p'.text = p.text := h.passage.text_eq

end Prose.Matches

/-! ### Bodies -/

/-- The same in both elements but for carriage returns in their text. No prose is as good as empty prose. -/
inductive Body.Matches : Body → Body → Prop
  | paragraph {prose prose' : Option Prose} (commands : List Command)
      (text : (prose.getD {}).Matches (prose'.getD {})) :
      Matches (.paragraph prose commands) (.paragraph prose' commands)
  | scalar {prose prose' : Prose} (text : prose.Matches prose') : Matches (.scalar prose) (.scalar prose')
  | object (table : Table) (fields : List (String × Value)) : Matches (.object table fields) (.object table fields)
  | content (table : Table) (field : String) (fields : List (String × Value)) {prose prose' : Prose}
      (text : prose.Matches prose') :
      Matches (.content table field fields prose) (.content table field fields prose')
  | image : Matches .image .image
  | lineBreak : Matches .lineBreak .lineBreak

theorem proseCommand_getD (schema : Schema) (prose : Option Prose) (l : Ledger) :
    proseCommand schema (some (prose.getD {})) l = proseCommand schema prose l := by
  cases prose <;> rfl

theorem proseCommand_eq {prose prose' : Option Prose} (h : (prose.getD {}).Matches (prose'.getD {}))
    (schema : Schema) (l : Ledger) : proseCommand schema prose' l = proseCommand schema prose l := by
  rw [← proseCommand_getD, ← proseCommand_getD schema prose]
  simp only [proseCommand, h.isBlank_eq, h.text_eq, h.firstLine]

theorem refuseText_eq (h : Returned s t) (tag : String) (line : Nat) :
    refuseText tag t line = refuseText tag s line := by
  rw [refuseText, refuseText, h.visibleLine?_eq]

namespace Body.Matches
variable {b b' : Body}

theorem refl (b : Body) : b.Matches b := by
  cases b with
  | paragraph prose commands => exact .paragraph commands (.refl _)
  | scalar prose => exact .scalar (.refl _)
  | object table fields => exact .object table fields
  | content table field fields prose => exact .content table field fields (.refl _)
  | image => exact .image
  | lineBreak => exact .lineBreak

theorem isLineBreak_eq (h : b.Matches b') : b'.isLineBreak = b.isLineBreak := by cases h <;> rfl

theorem write (h : b.Matches b') (hs : Returned s t) (tag : String) (line : Nat) :
    Parallel Matches (b.write tag s line) (b'.write tag t line) := by
  cases h with
  | paragraph commands text => exact .ok (.paragraph commands (text.write hs line))
  | scalar text => exact .ok (.scalar (text.write hs line))
  | content table field fields text => exact .ok (.content table field fields (text.write hs line))
  | object | image | lineBreak =>
    rw [Body.write, Body.write, refuseText_eq hs]
    cases refuseText tag s line with
    | error e => exact .error e
    | ok u => exact .ok (.refl _)

/-- The same comes of opening an element in both, but for the text around it. -/
theorem openInParagraph (schema : Schema) {prose prose' : Option Prose} (h : (prose.getD {}).Matches (prose'.getD {}))
    (commands : List Command) (tag : String) (attributes : List (String × String)) (line : Nat) (l : Ledger) :
    ∃ parent, TaggedProse.openInParagraph schema prose' commands tag attributes line l =
        { TaggedProse.openInParagraph schema prose commands tag attributes line l with parent } ∧
      (TaggedProse.openInParagraph schema prose commands tag attributes line l).parent.Matches parent := by
  unfold TaggedProse.openInParagraph
  rw [proseCommand_eq h]
  split
  · exact ⟨_, rfl, .paragraph commands h.lineBreak⟩
  · split
    · cases proseCommand schema prose l with
      | mk result l' => cases result <;> exact ⟨_, rfl, .refl _⟩
    · cases schema.command? tag with
      | none => exact ⟨_, rfl, .paragraph commands h⟩
      | some f =>
        dsimp only
        cases proseCommand schema prose l with
        | mk result l' => cases result <;> exact ⟨_, rfl, .refl _⟩

theorem openChild (h : b.Matches b') (schema : Schema) (around tag : String) (attributes : List (String × String))
    (line : Nat) (l : Ledger) :
    ∃ parent, b'.openChild schema around tag attributes line l =
        { b.openChild schema around tag attributes line l with parent } ∧
      (b.openChild schema around tag attributes line l).parent.Matches parent := by
  cases h with
  | paragraph commands text => exact openInParagraph schema text commands tag attributes line l
  | scalar text =>
    unfold Body.openChild
    dsimp only
    split
    · exact ⟨_, rfl, .scalar text.lineBreak⟩
    · exact ⟨_, rfl, .scalar text⟩
  | content table field fields text =>
    unfold Body.openChild
    dsimp only
    split
    · exact ⟨_, rfl, .content table field fields text.lineBreak⟩
    · cases table.get? tag <;> exact ⟨_, rfl, .content table field fields text⟩
  | object | image | lineBreak => exact ⟨_, rfl, .refl _⟩

theorem close_eq (h : b.Matches b') (schema : Schema) (line : Nat) (l : Ledger) :
    b'.close schema line l = b.close schema line l := by
  cases h with
  | paragraph commands text => simp only [Body.close, proseCommand_eq text]
  | scalar text => simp only [Body.close, text.text_eq]
  | content table field fields text => simp only [Body.close, text.text_eq, text.firstLine]
  | object | image | lineBreak => rfl

theorem accept (h : b.Matches b') (around : String) (child : Frame) (v : Value) (l : Ledger) :
    Parallel Matches (b.accept around child v l).1 (b'.accept around child v l).1 ∧
      (b'.accept around child v l).2 = (b.accept around child v l).2 := by
  cases h with
  | paragraph commands text => exact ⟨.ok (.paragraph _ text), rfl⟩
  | scalar | content | image | lineBreak => exact ⟨.error _, rfl⟩
  | object table fields =>
    unfold Body.accept
    dsimp only
    split <;> exact ⟨.ok (.refl _), rfl⟩

end Body.Matches

/-! ### Frames -/

structure Frame.Matches (f f' : Frame) : Prop where
  body : f.body.Matches f'.body
  others : f' = { f with body := f'.body }

theorem Frame.Matches.mk_body {b b' : Body} (f : Frame) (h : b.Matches b') :
    Frame.Matches { f with body := b } { f with body := b' } := ⟨h, rfl⟩

namespace Assembly
variable {a a' : Assembly} {frames frames' : List Frame}

/-- In both stacks the innermost element is a line break, or the same other one is the innermost. -/
theorem splitBreaks_matches (h : List.Forall₂ Frame.Matches frames frames') :
    (splitBreaks frames = (frames, []) ∧ splitBreaks frames' = (frames', [])) ∨
      ∃ breaks breaks' around body below below', splitBreaks frames = (breaks, around :: below) ∧
        splitBreaks frames' = (breaks', { around with body } :: below') ∧
        List.Forall₂ Frame.Matches breaks breaks' ∧ around.body.Matches body ∧
        List.Forall₂ Frame.Matches below below' := by
  have hcons : ∀ (f : Frame) (frames : List Frame), f.body.isLineBreak = true →
      splitBreaks (f :: frames) = (f :: (splitBreaks frames).1, (splitBreaks frames).2) := by
    intro f frames hf
    simp [splitBreaks, List.span_eq_takeWhile_dropWhile, hf]
  induction h with
  | nil => exact .inl ⟨rfl, rfl⟩
  | @cons f f' frames frames' hf hframes ih =>
    have hkind := hf.body.isLineBreak_eq
    cases hbreak : f.body.isLineBreak with
    | false =>
      refine .inr ⟨[], [], f, f'.body, frames, frames', ?_, ?_, .nil, hf.body, hframes⟩
      · exact splitBreaks_append (List.forall_mem_nil _) hbreak
      · rw [← hf.others]
        exact splitBreaks_append (List.forall_mem_nil _) (hkind.trans hbreak)
    | true =>
      rw [hcons f frames hbreak, hcons f' frames' (hkind.trans hbreak)]
      rcases ih with ⟨hsplit, hsplit'⟩ | ⟨breaks, breaks', around, body, below, below', hsplit, hsplit', hb, ha, hl⟩
      · rw [hsplit, hsplit']
        exact .inl ⟨rfl, rfl⟩
      · rw [hsplit, hsplit']
        exact .inr ⟨_, _, around, body, below, below', rfl, rfl, hb.cons hf, ha, hl⟩

/-! ### Steps -/

structure Matches (a a' : Assembly) : Prop where
  frames : List.Forall₂ Frame.Matches a.frames a'.frames
  others : a' = { a with frames := a'.frames }

structure StepMatches (r r' : Except Failure Unit × Assembly) : Prop where
  result : r'.1 = r.1
  assembly : r.2.Matches r'.2

namespace Matches

theorem refl (l : Ledger) : Matches { ledger := l } { ledger := l } := ⟨.nil, rfl⟩

theorem openElement (h : a.Matches a') (schema : Schema) (tag : String) (attributes : List (String × String))
    (line : Nat) :
    StepMatches (openElement schema tag attributes line a) (Assembly.openElement schema tag attributes line a') := by
  rw [h.others]
  rcases splitBreaks_matches h.frames with
    ⟨hsplit, hsplit'⟩ | ⟨breaks, breaks', around, body, below, below', hsplit, hsplit', hb, ha, hl⟩
  · simp only [Assembly.openElement, hsplit, hsplit']
    cases a.closed || tag != paragraphTag with
    | true => exact ⟨rfl, h.frames, rfl⟩
    | false => exact ⟨rfl, .cons ⟨.refl _, rfl⟩ h.frames, rfl⟩
  · obtain ⟨parent, hopen, hparent⟩ := ha.openChild schema around.tag tag attributes line a.ledger
    have hframes := List.rel_append hb (.cons (Frame.Matches.mk_body around hparent) hl)
    simp only [Assembly.openElement, hsplit, hsplit', hopen]
    cases (around.body.openChild schema around.tag tag attributes line a.ledger).child with
    | error e => exact ⟨rfl, hframes, rfl⟩
    | ok body => exact ⟨rfl, .cons ⟨.refl _, rfl⟩ hframes, rfl⟩

theorem write (h : a.Matches a') (hs : Returned s t) (line : Nat) :
    StepMatches (write s line a) (Assembly.write t line a') := by
  rw [h.others]
  rcases splitBreaks_matches h.frames with
    ⟨hsplit, hsplit'⟩ | ⟨breaks, breaks', around, body, below, below', hsplit, hsplit', hb, ha, hl⟩
  · simp only [Assembly.write, hsplit, hsplit']
    exact ⟨refuseText_eq hs _ _, h.frames, rfl⟩
  · have hwrite := ha.write hs around.tag line
    simp only [Assembly.write, hsplit, hsplit']
    generalize around.body.write around.tag s line = r, body.write around.tag t line = r' at hwrite
    cases hwrite with
    | error e => exact ⟨rfl, h.frames, rfl⟩
    | ok related => exact ⟨rfl, List.rel_append hb (.cons (.mk_body around related) hl), rfl⟩

theorem deliver (h : a.Matches a') (tag : String) (line : Nat) (child : Frame) (v : Value) :
    StepMatches (deliver tag line child v a) (Assembly.deliver tag line child v a') := by
  rw [h.others]
  rcases splitBreaks_matches h.frames with
    ⟨hsplit, hsplit'⟩ | ⟨breaks, breaks', around, body, below, below', hsplit, hsplit', hb, ha, hl⟩
  · simp only [Assembly.deliver, hsplit, hsplit']
    exact ⟨rfl, h.frames, rfl⟩
  · obtain ⟨haccept, hledger⟩ := ha.accept around.tag child v a.ledger
    simp only [Assembly.deliver, hsplit, hsplit']
    generalize around.body.accept around.tag child v a.ledger = r, body.accept around.tag child v a.ledger = r'
      at haccept hledger
    obtain ⟨result, l⟩ := r
    obtain ⟨result', l'⟩ := r'
    obtain rfl : l' = l := hledger
    cases haccept with
    | error e => exact ⟨rfl, h.frames, rfl⟩
    | ok related => exact ⟨rfl, List.rel_append hb (.cons (.mk_body around related) hl), rfl⟩

/-- What the closed element held is not asked for any more. -/
theorem deliver_body (f : Frame) (body : Body) (v : Value) (tag : String) (line : Nat) (a : Assembly) :
    Assembly.deliver tag line { f with body } v a = Assembly.deliver tag line f v a := by
  have haccept : ∀ (b : Body) (around : String) (l : Ledger),
      b.accept around { f with body } v l = b.accept around f v l := by
    intro b around l
    cases b <;> rfl
  simp only [Assembly.deliver, haccept]

theorem closeElement (h : a.Matches a') (schema : Schema) (tag : String) (line : Nat) :
    StepMatches (closeElement schema tag line a) (Assembly.closeElement schema tag line a') := by
  obtain ⟨frames, commands, closed, l⟩ := a
  obtain ⟨hframes, hothers⟩ := h
  rw [hothers]
  generalize a'.frames = frames' at hframes
  cases hframes with
  | nil => exact ⟨rfl, .nil, rfl⟩
  | @cons f f' rest rest' hf hrest =>
    rw [hf.others]
    simp only [Assembly.closeElement, hf.body.close_eq]
    cases f.body.close schema f.line l with
    | mk result l' =>
      cases result with
      | error e => exact ⟨rfl, hrest, rfl⟩
      | ok left =>
        cases left with
        | nothing => exact ⟨rfl, hrest, rfl⟩
        | commands others => exact ⟨rfl, hrest, rfl⟩
        | value v =>
          dsimp only
          rw [deliver_body]
          exact Matches.deliver ⟨hrest, rfl⟩ tag line f v

theorem step (h : a.Matches a') (schema : Schema) (part : Part) :
    StepMatches (step schema part a) (Assembly.step schema part a') := by
  cases part with
  | opening tag attributes line => exact h.openElement schema tag attributes line
  | text s line => exact h.write (.refl s) line
  | closing tag line => exact h.closeElement schema tag line

theorem run (h : a.Matches a') (schema : Schema) (parts : List Part) :
    StepMatches (run schema parts a) (Assembly.run schema parts a') := by
  induction parts generalizing a a' with
  | nil => exact ⟨rfl, h⟩
  | cons part parts ih =>
    obtain ⟨hresult, hassembly⟩ := h.step schema part
    rw [Assembly.run, Assembly.run]
    generalize Assembly.step schema part a = r, Assembly.step schema part a' = r' at hresult hassembly
    obtain ⟨result, b⟩ := r
    obtain ⟨result', b'⟩ := r'
    obtain rfl : result' = result := hresult
    cases result' with
    | error e => exact ⟨rfl, hassembly⟩
    | ok u => exact ih hassembly

/-- A text that is taken character by character. -/
theorem run_textParts (h : a.Matches a') (hs : Returned s t) (schema : Schema) (line : Nat) :
    StepMatches (Assembly.run schema (textParts line s) a) (Assembly.run schema (textParts line t) a') := by
  by_cases hempty : s = []
  · subst hempty
    cases hs
    exact h.run schema _
  · have hnonempty : t ≠ [] := by
      rintro rfl
      cases hs
      exact hempty rfl
    rw [Assembly.run_textParts schema s hempty, Assembly.run_textParts schema t hnonempty]
    exact h.write hs line

theorem finish_eq (h : a.Matches a') (line : Nat) : a'.finish line = a.finish line := by
  rw [h.others, finish, finish]
  have hframes := h.frames
  generalize a.frames = frames, a'.frames = frames' at hframes
  cases hframes with
  | nil => rfl
  | cons hf hrest => rw [hf.others]

end Matches

end Assembly

end TaggedProse
