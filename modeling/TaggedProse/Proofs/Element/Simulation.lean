import TaggedProse.Proofs.Assembly.Invariant
import TaggedProse.Proofs.Assembly.Run
import TaggedProse.Proofs.Element.Evaluation
import TaggedProse.Proofs.Ledger

/-! The assembly and the recursive meaning of element trees agree: on the commands and the lines of all
values in them, and on the failure where there is one. -/
namespace TaggedProse
variable {α β : Type} {schema : Schema} {table : Table} {f : Field} {tag : String} {line : Nat}
  {attributes : List (String × String)} {l l' : Ledger} {e : Failure} {s : List Char} {a a' : Assembly}
  {breaks below : List Frame} {around : Frame} {body parent : Body}

/-! ### Steps around an element under line breaks -/

namespace Assembly

theorem step_text (hb : ∀ b ∈ breaks, b.body.isLineBreak = true) (ha : around.body.isLineBreak = false)
    (h : around.body.write around.tag s line = .ok body) :
    step schema (.text s line) { a with frames := breaks ++ around :: below, ledger := l } =
      (.ok (), { a with frames := breaks ++ { around with body } :: below, ledger := l }) := by
  rw [step, write, splitBreaks_append hb ha]
  simp only [h]

theorem step_text_error (hb : ∀ b ∈ breaks, b.body.isLineBreak = true)
    (ha : around.body.isLineBreak = false) (h : around.body.write around.tag s line = .error e) :
    (step schema (.text s line)
      { a with frames := breaks ++ around :: below, ledger := l }).1 = .error e := by
  rw [step, write, splitBreaks_append hb ha]
  simp only [h]

theorem step_opening {child : Body} {item : Bool}
    (hb : ∀ b ∈ breaks, b.body.isLineBreak = true) (ha : around.body.isLineBreak = false)
    (h : around.body.openChild schema around.tag tag attributes line l =
      ⟨parent, .ok child, item, l'⟩) :
    step schema (.opening tag attributes line)
        { a with frames := breaks ++ around :: below, ledger := l } =
      (.ok (), { a with
        frames := ⟨tag, line, item, child⟩ :: (breaks ++ { around with body := parent } :: below)
        ledger := l' }) := by
  rw [step, openElement, splitBreaks_append hb ha]
  simp only [h]

theorem step_opening_error (hb : ∀ b ∈ breaks, b.body.isLineBreak = true)
    (ha : around.body.isLineBreak = false)
    (h : (around.body.openChild schema around.tag tag attributes line l).child = .error e) :
    (step schema (.opening tag attributes line)
      { a with frames := breaks ++ around :: below, ledger := l }).1 = .error e := by
  rw [step, openElement, splitBreaks_append hb ha]
  simp only [h]

theorem step_closing {f : Frame} {frames : List Frame}
    (h : f.body.close schema f.line l = (.ok .nothing, l')) :
    step schema (.closing tag line) { a with frames := f :: frames, ledger := l } =
      (.ok (), { a with frames := frames, ledger := l' }) := by
  simp only [step, closeElement, h]

theorem step_closing_value {f : Frame} {v : Value} {l'' : Ledger}
    (hb : ∀ b ∈ breaks, b.body.isLineBreak = true) (ha : around.body.isLineBreak = false)
    (hc : f.body.close schema f.line l = (.ok (.value v), l'))
    (hv : around.body.accept around.tag f v l' = (.ok body, l'')) :
    step schema (.closing tag line)
        { a with frames := f :: (breaks ++ around :: below), ledger := l } =
      (.ok (), { a with frames := breaks ++ { around with body } :: below, ledger := l'' }) := by
  simp only [step, closeElement, hc, deliver, splitBreaks_append hb ha, hv]

end Assembly

/-! ### Agreement -/

/-- The parts lead to the failure, or to a state that stands in the relation to the result. -/
def Gives (schema : Schema) (parts : List Part) (a : Assembly) (r : Except Failure α)
    (R : α → Assembly → Prop) : Prop :=
  match r with
  | .error e => (Assembly.run schema parts a).1 = .error e
  | .ok x => ∃ a', Assembly.run schema parts a = (.ok (), a') ∧ R x a'

section Gives
variable {R : α → Assembly → Prop} {R' : β → Assembly → Prop} {r : Except Failure α} {part : Part}
  {parts xs ys : List Part}

theorem gives_nil {x : α} (h : R x a) : Gives schema [] a (.ok x) R := ⟨a, rfl, h⟩

theorem gives_cons (hs : Assembly.step schema part a = (.ok (), a')) (h : Gives schema parts a' r R) :
    Gives schema (part :: parts) a r R := by
  cases r <;> simpa only [Gives, Assembly.run, hs] using h

theorem gives_error (hs : (Assembly.step schema part a).1 = .error e) :
    Gives schema (part :: parts) a (.error e) R := by
  rw [Gives, Assembly.run]
  split
  · next a' heq => rw [heq] at hs; cases hs
  · next e' a' heq => rw [heq] at hs; exact hs

theorem Gives.append {f : α → Except Failure β} (h : Gives schema xs a r R)
    (hf : ∀ x a', R x a' → Gives schema ys a' (f x) R') :
    Gives schema (xs ++ ys) a (r.bind f) R' := by
  cases r with
  | error e =>
    rw [Gives] at h
    rw [Except.bind, Gives, Assembly.run_append]
    split
    · next a' heq => rw [heq] at h; cases h
    · next e' a' heq => rw [heq] at h; exact h
  | ok x =>
    obtain ⟨a', hrun, hR⟩ := h
    have hrest := hf x a' hR
    rw [Except.bind]
    cases hfx : f x <;> simpa only [hfx, Gives, Assembly.run_append, hrun] using hrest

/-- Parts that only close what is open leave the result as it is. -/
theorem Gives.append_ok {R' : α → Assembly → Prop} (h : Gives schema xs a r R)
    (hf : ∀ x a', R x a' → Gives schema ys a' (.ok x) R') : Gives schema (xs ++ ys) a r R' := by
  have hr : r.bind Except.ok = r := by cases r <;> rfl
  exact hr ▸ h.append hf

theorem Gives.mono {R' : α → Assembly → Prop} (h : Gives schema parts a r R)
    (hR : ∀ x a', R x a' → R' x a') : Gives schema parts a r R' := by
  cases r with
  | error e => exact h
  | ok x =>
    obtain ⟨a', hrun, hx⟩ := h
    exact ⟨a', hrun, hR x a' hx⟩

theorem Gives.map {f : α → β} (h : Gives schema parts a r R) (hf : ∀ x a', R x a' → R' (f x) a') :
    Gives schema parts a (r.map f) R' := by
  cases r with
  | error e => exact h
  | ok x =>
    obtain ⟨a', hrun, hR⟩ := h
    exact ⟨a', hrun, hf x a' hR⟩

end Gives

/-- A computation that notes values agrees with one that gives them their lines at once. -/
def Agrees (l : Ledger) (c : Except Failure α × Ledger) (r : Except Failure β)
    (R : (Nat → Option Nat) → α → β → Prop) : Prop :=
  match r with
  | .error e => c.1 = .error e
  | .ok y => ∃ x l', c = (.ok x, l') ∧ l.Grows l' ∧ R l'.line? x y

theorem Agrees.of_grows {c : Except Failure α × Ledger} {r : Except Failure β}
    {R : (Nat → Option Nat) → α → β → Prop} (hl : l.Grows l') (h : Agrees l' c r R) :
    Agrees l c r R := by
  cases r with
  | error e => exact h
  | ok y =>
    obtain ⟨x, l'', hc, hgrows, hR⟩ := h
    exact ⟨x, l'', hc, hl.trans hgrows, hR⟩

theorem Agrees.cases {c : Except Failure α × Ledger} {r : Except Failure β}
    {R : (Nat → Option Nat) → α → β → Prop} (h : Agrees l c r R) :
    (∃ e l', c = (.error e, l') ∧ r = .error e) ∨
      ∃ x y l', c = (.ok x, l') ∧ r = .ok y ∧ l.Grows l' ∧ R l'.line? x y := by
  cases r with
  | error e => exact .inl ⟨e, c.2, Prod.ext h rfl, rfl⟩
  | ok y =>
    obtain ⟨x, l', hc, hgrows, hR⟩ := h
    exact .inr ⟨x, y, l', hc, rfl, hgrows, hR⟩

/-! ### Text and line breaks -/

/-- Bodies that take up text and line breaks, and refuse everything else. -/
structure Gathers (schema : Schema) (tag : String) (refuse : String → Fault) (body : Prose → Body) :
    Prop where
  stands : ∀ p, (body p).isLineBreak = false
  write : ∀ p s line, (body p).write tag s line = .ok (body (p.write s line))
  lineBreak : ∀ p attributes line l, (body p).openChild schema tag breakTag attributes line l =
    ⟨body p.lineBreak, .ok .lineBreak, false, l⟩
  refuse : ∀ p child attributes line l, child ≠ breakTag →
    ((body p).openChild schema tag child attributes line l).child = .error ⟨refuse child, line⟩

theorem gathers_scalar (schema : Schema) (tag : String) :
    Gathers schema tag (.undescribedChild tag) .scalar := by
  refine ⟨fun _ => rfl, fun _ _ _ => rfl, fun _ _ _ _ => rfl, fun p child _ _ _ hne => ?_⟩
  rw [Body.openChild, if_neg hne]

theorem gathers_content (schema : Schema) (tag : String) (table : Table) (field : String)
    (fields : Record Value) : Gathers schema tag table.refuse (.content table field fields) := by
  refine ⟨fun _ => rfl, fun _ _ _ => rfl, fun _ _ _ _ => rfl, fun p child _ _ _ hne => ?_⟩
  rw [Body.openChild, if_neg hne, Table.refuse]
  cases table.get? child <;> rfl

theorem forall_cons_lineBreak {f : Frame} (hb : ∀ b ∈ breaks, b.body.isLineBreak = true)
    (hf : f.body = .lineBreak) : ∀ b ∈ f :: breaks, b.body.isLineBreak = true := by
  intro b hm
  rcases List.mem_cons.1 hm with rfl | hm
  · rw [hf]; rfl
  · exact hb b hm

mutual

theorem Gathers.gives {refuse : String → Fault} {body : Prose → Body} {start : Nat} {item : Bool}
    (hg : Gathers schema tag refuse body) (n : Tree) (p : Prose) (a : Assembly)
    {breaks below : List Frame} (hb : ∀ b ∈ breaks, b.body.isLineBreak = true) :
    Gives schema n.parts { a with frames := breaks ++ ⟨tag, start, item, body p⟩ :: below }
      (n.gather refuse p) fun q a' =>
        a' = { a with frames := breaks ++ ⟨tag, start, item, body q⟩ :: below } := by
  cases n with
  | text s line =>
    exact gives_cons (Assembly.step_text hb (hg.stands p) (hg.write p s line)) (gives_nil rfl)
  | element child attributes line children closing =>
    rw [Tree.gather, Tree.parts]
    by_cases hchild : child = breakTag
    · subst hchild
      rw [if_pos rfl]
      refine gives_cons (Assembly.step_opening (l := a.ledger) hb (hg.stands p)
        (hg.lineBreak p attributes line a.ledger)) ?_
      refine (hg.givesAll children p.lineBreak a (forall_cons_lineBreak hb rfl)).append_ok ?_
      rintro q _ rfl
      exact gives_cons (Assembly.step_closing rfl) (gives_nil rfl)
    · rw [if_neg hchild]
      exact gives_error (Assembly.step_opening_error (l := a.ledger) hb (hg.stands p)
        (hg.refuse p child attributes line a.ledger hchild))

theorem Gathers.givesAll {refuse : String → Fault} {body : Prose → Body} {start : Nat} {item : Bool}
    (hg : Gathers schema tag refuse body) (ns : List Tree) (p : Prose) (a : Assembly)
    {breaks below : List Frame} (hb : ∀ b ∈ breaks, b.body.isLineBreak = true) :
    Gives schema (Tree.partsOf ns)
      { a with frames := breaks ++ ⟨tag, start, item, body p⟩ :: below }
      (Tree.gatherAll refuse p ns) fun q a' =>
        a' = { a with frames := breaks ++ ⟨tag, start, item, body q⟩ :: below } := by
  match ns with
  | [] => exact gives_nil rfl
  | n :: ns =>
    refine (hg.gives n p a hb).append ?_
    rintro q _ rfl
    exact hg.givesAll ns q a hb

end

end TaggedProse
