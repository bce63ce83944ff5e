import Mathlib.Logic.Relation
import TaggedProse.Proofs.Assembly.Conformance

/-! A line break that stays open is transparent: what is inside it might as well come after it. An assembly in which
one more line break is open takes the same parts in the same way, until a closing tag reaches the line break. -/
namespace TaggedProse
variable {schema : Schema} {tag : String} {line m n : Nat} {s : List Char} {attributes : List (String × String)}
  {f frame : Frame} {frames frames' upper breaks below : List Frame} {parts parts' : List Part} {part : Part}

/-! ### One more line break -/

/-- The first frames are the second and `f`, which stands under `n` of them. -/
def Widened (f : Frame) (n : Nat) (frames' frames : List Frame) : Prop :=
  ∃ upper lower, upper.length = n ∧ frames = upper ++ lower ∧ frames' = upper ++ f :: lower

theorem widened_cons (f : Frame) (frames : List Frame) : Widened f 0 (f :: frames) frames := ⟨[], frames, rfl, rfl, rfl⟩

theorem Widened.cons (h : Widened f n frames' frames) (g : Frame) : Widened f (n + 1) (g :: frames') (g :: frames) := by
  obtain ⟨upper, lower, rfl, rfl, rfl⟩ := h
  exact ⟨g :: upper, lower, rfl, rfl, rfl⟩

theorem Widened.eq_cons (h : Widened f 0 frames' frames) : frames' = f :: frames := by
  obtain ⟨upper, lower, hlength, rfl, rfl⟩ := h
  rw [List.length_eq_zero_iff.1 hlength]
  rfl

theorem Widened.exists_cons (h : Widened f (n + 1) frames' frames) :
    ∃ g below' below, frames' = g :: below' ∧ frames = g :: below ∧ Widened f n below' below := by
  obtain ⟨upper, lower, hlength, rfl, rfl⟩ := h
  cases upper with
  | nil => cases hlength
  | cons g upper => exact ⟨g, _, _, rfl, rfl, upper, lower, Nat.succ.inj hlength, rfl, rfl⟩

namespace Assembly
variable {a a' : Assembly}

theorem splitBreaks_of_forall (h : ∀ b ∈ frames, b.body.isLineBreak = true) : splitBreaks frames = (frames, []) := by
  rcases splitBreaks_cases frames with ⟨hsplit, -⟩ | ⟨breaks, around, below, rfl, -, ha⟩
  · exact hsplit
  · rw [h around (by simp)] at ha
    cases ha

/-- The line break does not change which element is the innermost other one. -/
theorem splitBreaks_widened (hf : f.body.isLineBreak = true) (h : Widened f n frames' frames) :
    (splitBreaks frames' = (frames', []) ∧ splitBreaks frames = (frames, [])) ∨
      ∃ breaks' breaks around below' below, splitBreaks frames' = (breaks', around :: below') ∧
        splitBreaks frames = (breaks, around :: below) ∧
        ∀ body, Widened f n (breaks' ++ { around with body } :: below') (breaks ++ { around with body } :: below) := by
  obtain ⟨upper, lower, hlength, rfl, rfl⟩ := h
  rcases splitBreaks_cases upper with ⟨-, hupper⟩ | ⟨breaks, around, below, rfl, hb, ha⟩
  · rcases splitBreaks_cases lower with ⟨-, hlower⟩ | ⟨breaks, around, below, rfl, hb, ha⟩
    · refine .inl ⟨splitBreaks_of_forall ?_, splitBreaks_of_forall ?_⟩
      · exact List.forall_mem_append.2 ⟨hupper, List.forall_mem_cons.2 ⟨hf, hlower⟩⟩
      · exact List.forall_mem_append.2 ⟨hupper, hlower⟩
    · have hall : ∀ b ∈ upper ++ breaks, b.body.isLineBreak = true := List.forall_mem_append.2 ⟨hupper, hb⟩
      have hall' : ∀ b ∈ upper ++ f :: breaks, b.body.isLineBreak = true :=
        List.forall_mem_append.2 ⟨hupper, List.forall_mem_cons.2 ⟨hf, hb⟩⟩
      refine .inr ⟨upper ++ f :: breaks, upper ++ breaks, around, below, below, ?_, ?_, fun body => ?_⟩
      · have hsplit : splitBreaks (upper ++ f :: breaks ++ around :: below) = _ := splitBreaks_append hall' ha
        simpa using hsplit
      · have hsplit : splitBreaks (upper ++ breaks ++ around :: below) = _ := splitBreaks_append hall ha
        simpa using hsplit
      · exact ⟨upper, breaks ++ { around with body } :: below, hlength, by simp, by simp⟩
  · refine .inr ⟨breaks, breaks, around, below ++ f :: lower, below ++ lower, ?_, ?_, fun body => ?_⟩
    · have hsplit : splitBreaks (breaks ++ around :: (below ++ f :: lower)) = _ := splitBreaks_append hb ha
      simpa using hsplit
    · have hsplit : splitBreaks (breaks ++ around :: (below ++ lower)) = _ := splitBreaks_append hb ha
      simpa using hsplit
    · exact ⟨breaks ++ { around with body } :: below, lower, by simpa using hlength, by simp, by simp⟩

structure Wraps (f : Frame) (n : Nat) (a' a : Assembly) : Prop where
  frames : Widened f n a'.frames a.frames
  others : a' = { a with frames := a'.frames }

def InStep (f : Frame) (n : Nat) : Except Failure Unit × Assembly → Except Failure Unit × Assembly → Prop
  | (.ok (), a'), (.ok (), a) => Wraps f n a' a
  | (.error e', _), (.error e, _) => e' = e
  | _, _ => False

theorem InStep.cases {r' r : Except Failure Unit × Assembly} (h : InStep f n r' r) :
    (∃ e b' b, r' = (.error e, b') ∧ r = (.error e, b)) ∨
      ∃ b' b, r' = (.ok (), b') ∧ r = (.ok (), b) ∧ Wraps f n b' b := by
  obtain ⟨result', b'⟩ := r'
  obtain ⟨result, b⟩ := r
  cases result' with
  | error e' =>
    cases result with
    | error e => exact .inl ⟨e, b', b, by rw [show e' = e from h], rfl⟩
    | ok u => exact h.elim
  | ok u' =>
    cases result with
    | error e => exact h.elim
    | ok u => exact .inr ⟨b', b, rfl, rfl, h⟩

theorem inStep_openElement (hf : f.body.isLineBreak = true) (h : Wraps f n a' a) :
    InStep f (n + 1) (openElement schema tag attributes line a') (openElement schema tag attributes line a) := by
  rw [h.others]
  rcases splitBreaks_widened hf h.frames with
    ⟨hsplit', hsplit⟩ | ⟨breaks', breaks, around, below', below, hsplit', hsplit, hwide⟩
  · simp only [openElement, hsplit', hsplit]
    cases a.closed || tag != paragraphTag with
    | true => exact rfl
    | false => exact ⟨h.frames.cons _, rfl⟩
  · simp only [openElement, hsplit', hsplit]
    cases (around.body.openChild schema around.tag tag attributes line a.ledger).child with
    | error e => exact rfl
    | ok body => exact ⟨(hwide _).cons _, rfl⟩

theorem inStep_write (hf : f.body.isLineBreak = true) (h : Wraps f n a' a) :
    InStep f n (write s line a') (write s line a) := by
  have hself : Wraps f n { a with frames := a'.frames } a := h.others ▸ h
  rw [h.others]
  rcases splitBreaks_widened hf h.frames with
    ⟨hsplit', hsplit⟩ | ⟨breaks', breaks, around, below', below, hsplit', hsplit, hwide⟩
  · simp only [write, hsplit', hsplit]
    cases refuseText paragraphTag s line with
    | error e => exact rfl
    | ok u => exact hself
  · simp only [write, hsplit', hsplit]
    cases around.body.write around.tag s line with
    | error e => exact rfl
    | ok body => exact ⟨hwide _, rfl⟩

theorem inStep_deliver (hf : f.body.isLineBreak = true) (h : Wraps f n a' a) (child : Frame) (v : Value) :
    InStep f n (deliver tag line child v a') (deliver tag line child v a) := by
  rw [h.others]
  rcases splitBreaks_widened hf h.frames with
    ⟨hsplit', hsplit⟩ | ⟨breaks', breaks, around, below', below, hsplit', hsplit, hwide⟩
  · simp only [deliver, hsplit', hsplit]
    exact rfl
  · simp only [deliver, hsplit', hsplit]
    cases around.body.accept around.tag child v a.ledger with
    | mk result ledger =>
      cases result with
      | error e => exact rfl
      | ok body => exact ⟨hwide _, rfl⟩

/-- The element that is closed is one of those above the line break. -/
theorem inStep_closeElement (hf : f.body.isLineBreak = true) (h : Wraps f (n + 1) a' a) :
    InStep f n (closeElement schema tag line a') (closeElement schema tag line a) := by
  obtain ⟨g, below', below, hframes', hframes, hwide⟩ := h.frames.exists_cons
  rw [h.others]
  simp only [closeElement, hframes', hframes]
  cases g.body.close schema g.line a.ledger with
  | mk result ledger =>
    cases result with
    | error e => exact rfl
    | ok closed =>
      cases closed with
      | nothing => exact ⟨hwide, rfl⟩
      | commands l => exact ⟨hwide, rfl⟩
      | value v =>
        have hwraps : Wraps f n { a with frames := below', ledger } { a with frames := below, ledger } := ⟨hwide, rfl⟩
        exact inStep_deliver hf hwraps g v

end Assembly

/-- How many elements are open after the parts if `n` are before, whatever the closing tags are called. More than
that cannot be closed. -/
def depth : Nat → List Part → Option Nat
  | n, [] => some n
  | n, .opening _ _ _ :: parts => depth (n + 1) parts
  | n, .text _ _ :: parts => depth n parts
  | 0, .closing _ _ :: _ => none
  | n + 1, .closing _ _ :: parts => depth n parts

namespace Assembly
variable {a a' : Assembly}

/-- As long as the line break is not reached, it makes no difference. -/
theorem inStep_run (schema : Schema) (hf : f.body.isLineBreak = true) (h : Wraps f n a' a)
    (hd : depth n parts = some m) : InStep f m (run schema parts a') (run schema parts a) := by
  induction parts generalizing n a a' with
  | nil => cases hd; exact h
  | cons part parts ih =>
    have hstep : ∃ k, depth k parts = some m ∧ InStep f k (step schema part a') (step schema part a) := by
      cases part with
      | opening tag attributes line => exact ⟨n + 1, hd, inStep_openElement hf h⟩
      | text s line => exact ⟨n, hd, inStep_write hf h⟩
      | closing tag line =>
        cases n with
        | zero => cases hd
        | succ n => exact ⟨n, hd, inStep_closeElement hf h⟩
    obtain ⟨k, hk, hstep⟩ := hstep
    rw [run, run]
    rcases hstep.cases with ⟨e, b', b, hb', hb⟩ | ⟨b', b, hb', hb, hwraps⟩
    · rw [hb', hb]
      exact rfl
    · rw [hb', hb]
      exact ih hwraps hk

/-! ### Line breaks that close earlier -/

def reach (schema : Schema) (parts : List Part) (a : Assembly) : Except Failure Assembly :=
  (run schema parts a).1.map fun _ => (run schema parts a).2

theorem conclude_eq_reach (schema : Schema) (parts : List Part) (line : Nat) (ledger : Ledger) :
    conclude schema parts line ledger =
      (reach schema parts { ledger }).bind fun a => (a.finish line).map (·, a.ledger) := by
  rw [conclude, reach]
  rcases run schema parts { ledger } with ⟨result, a⟩
  cases result <;> rfl

theorem reach_append (schema : Schema) (xs ys : List Part) (a : Assembly) :
    reach schema (xs ++ ys) a = (reach schema xs a).bind (reach schema ys) := by
  rw [reach, run_append, reach]
  rcases run schema xs a with ⟨result, a'⟩
  cases result <;> rfl

theorem reach_cons_of_step (h : step schema part a = (.ok (), a')) (parts : List Part) :
    reach schema (part :: parts) a = reach schema parts a' := by
  rw [reach, run, h]
  rfl

theorem run_of_reach (h : reach schema parts a = .ok a') : run schema parts a = (.ok (), a') := by
  rw [reach] at h
  rcases hrun : run schema parts a with ⟨result, b⟩
  rw [hrun] at h
  cases result <;> cases h
  rfl

def TakesBreaks (a : Assembly) : Prop :=
  ∃ breaks around below, splitBreaks a.frames = (breaks, around :: below) ∧
    match around.body with
    | .paragraph _ _ | .scalar _ | .content _ _ _ _ => True
    | .object _ _ | .image | .lineBreak => False

/-- Such an element takes a line break up at once, and leaves it open. -/
theorem TakesBreaks.exists_step (schema : Schema) (h : a.TakesBreaks) (attributes : List (String × String))
    (line : Nat) : ∃ b : Assembly, step schema (.opening breakTag attributes line) a =
      (.ok (), { b with frames := ⟨breakTag, line, false, .lineBreak⟩ :: b.frames }) := by
  obtain ⟨breaks, around, below, hsplit, hbody⟩ := h
  have hopen : ∃ parent, around.body.openChild schema around.tag breakTag attributes line a.ledger =
      ⟨parent, .ok .lineBreak, false, a.ledger⟩ := by
    cases hkind : around.body with
    | paragraph prose commands => exact ⟨_, rfl⟩
    | scalar prose => exact ⟨_, rfl⟩
    | content table field fields prose => exact ⟨_, rfl⟩
    | object | image | lineBreak => rw [hkind] at hbody; exact hbody.elim
  obtain ⟨parent, hopen⟩ := hopen
  refine ⟨{ a with frames := breaks ++ { around with body := parent } :: below }, ?_⟩
  simp only [step, openElement, hsplit, hopen]

theorem step_closing_lineBreak (tag name : String) (start line : Nat) (item : Bool) (frames : List Frame)
    (a : Assembly) : step schema (.closing tag line) { a with frames := ⟨name, start, item, .lineBreak⟩ :: frames } =
      (.ok (), { a with frames }) := rfl

/-- What is inside a line break might as well come after it. -/
theorem reach_hoisted {inside : List Part} (h : a.TakesBreaks) (hd : depth 0 inside = some 0)
    (attributes : List (String × String)) (line closing closing' : Nat) (after : List Part) :
    reach schema (.opening breakTag attributes line :: (inside ++ .closing breakTag closing :: after)) a =
      reach schema (.opening breakTag attributes line :: .closing breakTag closing' :: (inside ++ after)) a := by
  obtain ⟨b, hopening⟩ := h.exists_step schema attributes line
  rw [reach_cons_of_step hopening, reach_cons_of_step hopening,
    reach_cons_of_step (step_closing_lineBreak _ _ _ _ _ _ b), reach_append, reach_append]
  have hwraps : Wraps ⟨breakTag, line, false, .lineBreak⟩ 0
      { b with frames := ⟨breakTag, line, false, .lineBreak⟩ :: b.frames } b := ⟨widened_cons _ _, rfl⟩
  rcases (inStep_run schema rfl hwraps hd).cases with ⟨e, c', c, hc', hc⟩ | ⟨c', c, hc', hc, hended⟩
  · rw [reach, reach, hc', hc]
    rfl
  · have hclosed : reach schema (.closing breakTag closing :: after) c' = reach schema after c := by
      rw [hended.others, hended.frames.eq_cons]
      exact reach_cons_of_step (step_closing_lineBreak _ _ _ _ _ _ c) after
    rw [reach, reach, hc', hc]
    exact hclosed

end Assembly

/-- A line break around some parts closes before them instead, and nothing else is different. -/
inductive Hoists (schema : Schema) (ledger : Ledger) : List Part → List Part → Prop
  | lineBreak (before : List Part) (attributes : List (String × String)) (line closing closing' : Nat)
      (inside after : List Part) (balanced : depth 0 inside = some 0)
      (taken : ∀ a, Assembly.run schema before { ledger } = (.ok (), a) → a.TakesBreaks) :
      Hoists schema ledger
        (before ++ .opening breakTag attributes line :: (inside ++ .closing breakTag closing :: after))
        (before ++ .opening breakTag attributes line :: .closing breakTag closing' :: (inside ++ after))

theorem reach_of_hoists {ledger : Ledger} (h : Hoists schema ledger parts parts') :
    Assembly.reach schema parts { ledger } = Assembly.reach schema parts' { ledger } := by
  cases h with
  | lineBreak before attributes line closing closing' inside after balanced taken =>
    rw [Assembly.reach_append, Assembly.reach_append]
    cases hbefore : Assembly.reach schema before { ledger } with
    | error e => rfl
    | ok a =>
      exact Assembly.reach_hoisted (taken a (Assembly.run_of_reach hbefore)) balanced attributes line closing
        closing' after

/-- Line breaks may close before what is inside them, any number of them, also one in another: the commands and the
lines noted for their values, or the first failure, are the same. -/
theorem conclude_of_hoists {ledger : Ledger} (h : Relation.ReflTransGen (Hoists schema ledger) parts parts')
    (line : Nat) :
    Assembly.conclude schema parts line ledger = Assembly.conclude schema parts' line ledger := by
  rw [Assembly.conclude_eq_reach, Assembly.conclude_eq_reach]
  induction h with
  | refl => rfl
  | tail _ hhoist ih => rw [ih, reach_of_hoists hhoist]

/-- A line break around prose and a line break, which has a card inside. -/
def nestedBreaks : List Part :=
  [.opening "p" [] 0, .opening "br" [] 0, .text ['a'] 0, .opening "br" [] 0, .opening "card" [("id", "c")] 1,
    .closing "card" 1, .closing "br" 1, .text ['b'] 2, .closing "br" 2, .closing "p" 2]

def emptyBreaks : List Part :=
  [.opening "p" [] 0, .opening "br" [] 0, .closing "br" 0, .text ['a'] 0, .opening "br" [] 0, .closing "br" 0,
    .opening "card" [("id", "c")] 1, .closing "card" 1, .text ['b'] 2, .closing "p" 2]

/-- The inner line break is closed first, since it does not matter for the outer one what is inside. -/
theorem hoists_nestedBreaks : Relation.ReflTransGen (Hoists cardSchema {}) nestedBreaks emptyBreaks := by
  have hinner : Hoists cardSchema {} nestedBreaks _ :=
    .lineBreak [.opening "p" [] 0, .opening "br" [] 0, .text ['a'] 0] [] 0 1 0
      [.opening "card" [("id", "c")] 1, .closing "card" 1] [.text ['b'] 2, .closing "br" 2, .closing "p" 2] rfl
      fun a h => by cases h; exact ⟨_, _, _, rfl, trivial⟩
  have houter : Hoists cardSchema {} _ emptyBreaks :=
    .lineBreak [.opening "p" [] 0] [] 0 2 0
      [.text ['a'] 0, .opening "br" [] 0, .closing "br" 0, .opening "card" [("id", "c")] 1, .closing "card" 1,
        .text ['b'] 2] [.closing "p" 2] rfl
      fun a h => by cases h; exact ⟨_, _, _, rfl, trivial⟩
  exact (Relation.ReflTransGen.single hinner).tail houter

theorem conclude_nestedBreaks :
    Relation.ReflTransGen (Hoists cardSchema {}) nestedBreaks emptyBreaks ∧
    Assembly.conclude cardSchema nestedBreaks 2 {} =
      .ok ([⟨"text", .text 0 "\na\n"⟩, ⟨"card", .object 2 [("id", .text 1 "c")]⟩, ⟨"text", .text 3 "b"⟩],
        ⟨4, [(3, 2), (2, 1), (1, 1), (0, 0)]⟩) ∧
    Assembly.conclude cardSchema nestedBreaks 2 {} = Assembly.conclude cardSchema emptyBreaks 2 {} :=
  ⟨hoists_nestedBreaks, rfl, conclude_of_hoists hoists_nestedBreaks 2⟩

end TaggedProse
