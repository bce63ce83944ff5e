import TaggedProse.Inline.Rule
/-!
The inline lexer. At every position the first rule that takes something decides; where none does,
one character is prose. The pieces that result make up the text.
-/
namespace TaggedProse

/-- What the first rule finds that takes anything at all. -/
def firstMatch (rules : List Rule) (s : List Char) : Option Match :=
  rules.findSome? fun r => (r.scan s).filter (!·.source.isEmpty)

def nextPiece (rules : List Rule) (c : Char) (s : List Char) : Match :=
  (firstMatch rules (c :: s)).getD ⟨.text [c], [c], s⟩

theorem append_of_firstMatch {rules : List Rule} {s : List Char} {m : Match}
    (h : firstMatch rules s = some m) : m.source ++ m.rest = s ∧ m.source ≠ [] := by
  obtain ⟨r, _, hr⟩ := List.exists_of_findSome?_eq_some h
  obtain ⟨hscan, hne⟩ := Option.filter_eq_some_iff.1 hr
  exact ⟨Rule.append_of_scan hscan, by simpa using hne⟩

theorem append_nextPiece (rules : List Rule) (c : Char) (s : List Char) :
    (nextPiece rules c s).source ++ (nextPiece rules c s).rest = c :: s ∧
      (nextPiece rules c s).source ≠ [] := by
  unfold nextPiece
  cases h : firstMatch rules (c :: s) with
  | none => simp
  | some m => simpa using append_of_firstMatch h

theorem length_rest_nextPiece (rules : List Rule) (c : Char) (s : List Char) :
    (nextPiece rules c s).rest.length < (c :: s).length := by
  obtain ⟨h, hne⟩ := append_nextPiece rules c s
  have := List.length_pos_iff.2 hne
  rw [← h, List.length_append]
  omega

def pieces (rules : List Rule) : List Char → List Match
  | [] => []
  | c :: s =>
    let m := nextPiece rules c s
    m :: pieces rules m.rest
termination_by s => s.length
decreasing_by exact length_rest_nextPiece rules c s

def tokenize (rules : List Rule) (s : List Char) : List Token :=
  joinText ((pieces rules s).map Match.token)

theorem flatMap_source_pieces (rules : List Rule) (s : List Char) :
    (pieces rules s).flatMap Match.source = s := by
  fun_induction pieces rules s with
  | case1 => rfl
  | case2 c s m ih => rw [List.flatMap_cons, ih]; exact (append_nextPiece rules c s).1

end TaggedProse
