import Mathlib.Logic.Relation
import TaggedProse.Assembly.Elements
import TaggedProse.Proofs.Assembly.Conformance
import TaggedProse.Proofs.Assembly.Text

/-! Text may come in chunks of any size, each on the line where it begins: what is assembled from it is the same. So
it makes no difference either how a text is written, in one piece or in several, literally or with references, and
whether markup that is passed over stands in it. -/
namespace TaggedProse
variable {schema : Schema} {line : Nat} {s t : List Char} {a a' : Assembly} {parts parts' : List Part}
  {xs ys events : List (Nat × Xml.Event)}

inductive Cuts : List Part → List Part → Prop
  | text (before : List Part) (s t : List Char) (line : Nat) (after : List Part) :
      Cuts (before ++ .text (s ++ t) line :: after)
        (before ++ .text s line :: .text t (line + newlines s) :: after)

namespace Assembly

theorem run_text_append (s t : List Char) (line : Nat) (after : List Part) (a : Assembly) :
    run schema (.text (s ++ t) line :: after) a =
      run schema (.text s line :: .text t (line + newlines s) :: after) a := by
  simp only [run, step, write_append]
  cases write s line a with
  | mk result a' => cases result <;> rfl

theorem run_of_cuts (h : Cuts parts parts') (a : Assembly) : run schema parts a = run schema parts' a := by
  cases h with
  | text before s t line after =>
    rw [run_append, run_append]
    simp only [run_text_append]

theorem run_of_reflTransGen_cuts (h : Relation.ReflTransGen Cuts parts parts') (a : Assembly) :
    run schema parts a = run schema parts' a := by
  induction h with
  | refl => rfl
  | tail _ hcut ih => rw [ih, run_of_cuts hcut]

end Assembly

/-! ### Texts as they are read -/

/-- The events hand over the text `s`, which begins on `line`, each piece on the line where it begins. Markup that
is passed over may stand in front of them, between them and behind them. -/
inductive HandsOver : Nat → List (Nat × Xml.Event) → List Char → Prop
  | text {line : Nat} {source s : List Char} (decoded : Xml.decode source = .ok s) :
      HandsOver line [(line, .text source)] s
  | literal (line : Nat) (s : List Char) : HandsOver line [(line, .literal s)] s
  | append {line : Nat} {xs ys : List (Nat × Xml.Event)} {s t : List Char} (front : HandsOver line xs s)
      (back : HandsOver (line + newlines s) ys t) : HandsOver line (xs ++ ys) (s ++ t)
  | front {line : Nat} {events : List (Nat × Xml.Event)} {s : List Char} (position : Nat)
      (rest : HandsOver line events s) : HandsOver line ((position, .ignored) :: events) s
  | back {line : Nat} {events : List (Nat × Xml.Event)} {s : List Char} (position : Nat)
      (rest : HandsOver line events s) : HandsOver line (events ++ [(position, .ignored)]) s

namespace Assembly

def fed (schema : Schema) (events : List (Nat × Xml.Event)) (a : Assembly) : Except Failure Unit × Assembly :=
  ((feedAll schema events a).result, (feedAll schema events a).assembly)

theorem fed_cons (line : Nat) (event : Xml.Event) (events : List (Nat × Xml.Event)) (a : Assembly) :
    fed schema ((line, event) :: events) a =
      match feed schema line event a with
      | (.ok (), a') => fed schema events a'
      | (.error e, a') => (.error e, a') := by
  rw [fed, feedAll]
  cases feed schema line event a with
  | mk result a' =>
    cases result with
    | error e => rfl
    | ok u =>
      dsimp only
      split <;> rfl

theorem fed_append (xs ys : List (Nat × Xml.Event)) (a : Assembly) :
    fed schema (xs ++ ys) a =
      match fed schema xs a with
      | (.ok (), a') => fed schema ys a'
      | (.error e, a') => (.error e, a') := by
  induction xs generalizing a with
  | nil => rfl
  | cons x xs ih =>
    obtain ⟨line, event⟩ := x
    rw [List.cons_append, fed_cons, fed_cons]
    cases feed schema line event a with
    | mk result a' =>
      cases result with
      | error e => rfl
      | ok u => exact ih a'

theorem fed_singleton (line : Nat) (event : Xml.Event) (a : Assembly) :
    fed schema [(line, event)] a = feed schema line event a := by
  rw [fed_cons]
  cases feed schema line event a with
  | mk result a' => cases result <;> rfl

theorem run_singleton (part : Part) (a : Assembly) : run schema [part] a = step schema part a := by
  rw [run]
  cases step schema part a with
  | mk result a' => cases result <;> rfl

/-- Events that hand over a text come to the same as the text. -/
theorem fed_of_handsOver (h : HandsOver line events s) (a : Assembly) : fed schema events a = write s line a := by
  induction h generalizing a with
  | text decoded =>
    rw [fed_singleton, feed, Xml.Event.parts, decoded]
    exact run_singleton _ a
  | literal line s =>
    rw [fed_singleton]
    exact run_singleton (.text s line) a
  | append _ _ ihfront ihback =>
    rw [fed_append, write_append, ihfront]
    cases write _ _ a with
    | mk result a' =>
      cases result with
      | error e => rfl
      | ok u => exact ihback a'
  | front position _ ih =>
    rw [fed_cons]
    exact ih a
  | back position _ ih =>
    rw [fed_append, ih]
    cases write _ _ a with
    | mk result a' => cases result <;> rfl

end Assembly

/-- Texts may be cut in two any number of times: the commands, the lines noted for their values in order, or the
first failure are the same. So are they however the events of a text hand it over. -/
theorem conclude_of_cuts (schema : Schema) :
    (∀ parts parts', Relation.ReflTransGen Cuts parts parts' → ∀ line ledger,
      Assembly.conclude schema parts line ledger = Assembly.conclude schema parts' line ledger) ∧
    ∀ line xs ys s, HandsOver line xs s → HandsOver line ys s → ∀ before after a,
      Assembly.fed schema (before ++ (xs ++ after)) a = Assembly.fed schema (before ++ (ys ++ after)) a := by
  refine ⟨fun parts parts' h line ledger => ?_, fun line xs ys s hxs hys before after a => ?_⟩
  · rw [Assembly.conclude, Assembly.conclude, Assembly.run_of_reflTransGen_cuts h]
  · simp only [Assembly.fed_append, Assembly.fed_of_handsOver hxs, Assembly.fed_of_handsOver hys]

def titleParts (title : List Part) : List Part :=
  .opening "p" [] 0 :: .opening "card" [] 0 :: .opening "title" [] 0 ::
    (title ++ [.closing "title" 1, .closing "card" 1, .closing "p" 1])

theorem cuts_titleParts : Relation.ReflTransGen Cuts (titleParts [.text " \n ab".toList 0])
    (titleParts [.text " ".toList 0, .text "\n a".toList 0, .text "b".toList 1]) := by
  have hfirst : Cuts (titleParts [.text " \n ab".toList 0])
      (titleParts [.text " ".toList 0, .text "\n ab".toList 0]) :=
    .text [.opening "p" [] 0, .opening "card" [] 0, .opening "title" [] 0] " ".toList "\n ab".toList 0 _
  have hsecond : Cuts (titleParts [.text " ".toList 0, .text "\n ab".toList 0])
      (titleParts [.text " ".toList 0, .text "\n a".toList 0, .text "b".toList 1]) :=
    .text [.opening "p" [] 0, .opening "card" [] 0, .opening "title" [] 0, .text " ".toList 0] "\n a".toList
      "b".toList 0 _
  exact (Relation.ReflTransGen.single hfirst).tail hsecond

def mixedEvents : List (Nat × Xml.Event) :=
  [(0, .text " &#10; ".toList)] ++ (1, .ignored) :: [(1, .literal ['a', 'b'])]

theorem handsOver_mixedEvents : HandsOver 0 mixedEvents " \n ab".toList :=
  .append (.text (s := " \n ".toList) (by with_unfolding_all rfl)) (.front 1 (.literal 1 ['a', 'b']))

theorem conclude_titleParts :
    Relation.ReflTransGen Cuts (titleParts [.text " \n ab".toList 0])
      (titleParts [.text " ".toList 0, .text "\n a".toList 0, .text "b".toList 1]) ∧
    Assembly.conclude cardSchema (titleParts [.text " \n ab".toList 0]) 1 {} =
      Assembly.conclude cardSchema (titleParts [.text " ".toList 0, .text "\n a".toList 0, .text "b".toList 1]) 1 {} ∧
    HandsOver 0 mixedEvents " \n ab".toList ∧
    Assembly.fed cardSchema ([(0, .opening ['p'])] ++ (mixedEvents ++ [(1, .closing ['p'])])) {} =
      Assembly.fed cardSchema
        ([(0, .opening ['p'])] ++ ([(0, .literal " \n ab".toList)] ++ [(1, .closing ['p'])])) {} := by
  obtain ⟨hparts, hevents⟩ := conclude_of_cuts cardSchema
  refine ⟨cuts_titleParts, hparts _ _ cuts_titleParts 1 {}, handsOver_mixedEvents, ?_⟩
  exact hevents 0 _ _ _ handsOver_mixedEvents (.literal 0 _) _ _ {}

end TaggedProse
