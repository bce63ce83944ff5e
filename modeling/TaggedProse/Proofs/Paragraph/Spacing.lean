import TaggedProse.Proofs.Assembly.Renumbering
import TaggedProse.Proofs.Inline.Blanks
import TaggedProse.Proofs.Paragraph.Gaps

/-! White space between the tags of an element with fields. A paragraph in which there is more or less of it comes to
the same, unless the lexer takes it for something else. -/
namespace TaggedProse
variable {schema : Schema} {a b c q u u' x y : List Char} {front back : List Match} {ps ts us : List Token}
  {items : List Item} {g g' : Progress}

/-- Directly behind a tag, directly in front of one, or on a blank line: `x` is the text between the place and the tag
before it, and `y` the text between the place and the tag behind it. -/
inductive Beside (front back : List Match) : List Char → List Char → Prop
  | afterTag {m : Match} {source y : List Char} (last : front.getLast? = some m) (tag : m.token = .markup source) :
      Beside front back [] y
  | beforeTag {m : Match} {source x : List Char} (first : back.head? = some m) (tag : m.token = .markup source) :
      Beside front back x []
  | blankLine {x x' y' y : List Char} (before : allBlank x' = true) (behind : allBlank y' = true)
      (newlines_before : newlines x' = 0) (newlines_behind : newlines y' = 0) :
      Beside front back (x ++ '\n' :: x') (y' ++ '\n' :: y)

def progressAfter (schema : Schema) (front : List Match) : Except (Item × Failure) Progress :=
  takeAll schema (.tag paragraphTag.toList 0 :: joinItems (itemsFrom 0 front)) (start {})

/-- A place in a paragraph's text, between `a` and `b`, where `u` stands. The tags and images next to it are the last in
`front` and the first in `back`; the innermost element there is one with fields. -/
structure FieldGap (schema : Schema) (a u b : List Char) where
  front : List Match
  gap : List Match
  back : List Match
  x : List Char
  y : List Char
  pieces_eq : pieces documentRules (a ++ (u ++ b)) = front ++ (gap ++ back)
  prose : ∀ m ∈ gap, m.token.isProse = true
  last : ∀ m, front.getLast? = some m → m.token.isProse = false
  left : a = front.flatMap Match.source ++ x
  right : b = y ++ back.flatMap Match.source
  object : (progressAfter schema front).toOption.any Progress.inObject = true
  beside : Beside front back x y

/-! ### Identities -/

def Progress.renumber (k : Nat) (g : Progress) : Progress := { g with assembly := g.assembly.renumber k }

theorem take_renumber (k : Nat) (it : Item) (g : Progress) :
    it.take schema (g.renumber k) = (it.take schema g).map (Progress.renumber k) := by
  unfold Item.take
  rw [Progress.renumber]
  cases it.opened g.opened with
  | error e => rfl
  | ok opened =>
    cases it.parts with
    | error e => rfl
    | ok parts =>
      dsimp only
      rw [Assembly.run_renumber, Assembly.renumberEnd]
      cases Assembly.run schema parts g.assembly with
      | mk result a => cases result <;> rfl

theorem takeAll_renumber (k : Nat) (items : List Item) (g : Progress) :
    takeAll schema items (g.renumber k) = (takeAll schema items g).map (Progress.renumber k) := by
  induction items generalizing g with
  | nil => rfl
  | cons it items ih =>
    rw [takeAll, takeAll, take_renumber]
    cases it.take schema g with
    | error e => rfl
    | ok g' => exact ih g'

theorem Body.isObject_renumber (k : Nat) (b : Body) : (b.renumber k).isObject = b.isObject := by
  cases b <;> rfl

theorem inObject_renumber (k : Nat) (g : Progress) : (g.renumber k).inObject = g.inObject := by
  unfold Progress.inObject Progress.renumber Assembly.renumber
  cases g.assembly.frames with
  | nil => rfl
  | cons f below => exact Body.isObject_renumber k f.body

/-- Whatever identities are given out, the innermost element is one with fields. -/
theorem FieldGap.exists_progress (gap : FieldGap schema a u b) (l : Ledger) : ∃ g,
    takeAll schema (.tag paragraphTag.toList 0 :: joinItems (itemsFrom 0 gap.front)) (start l.clear) = .ok g ∧
      g.inObject = true := by
  have hobject := gap.object
  rw [progressAfter] at hobject
  have hstart : (start {}).renumber l.next = start l.clear := by
    rw [← Ledger.renumber_new]
    rfl
  rw [← hstart, takeAll_renumber]
  cases htake : takeAll schema (.tag paragraphTag.toList 0 :: joinItems (itemsFrom 0 gap.front)) (start {}) with
  | error e =>
    rw [htake] at hobject
    cases hobject
  | ok g =>
    rw [htake] at hobject
    exact ⟨g.renumber l.next, rfl, (inObject_renumber l.next g).trans hobject⟩

/-! ### The items behind a tag -/

theorem Token.exists_items_of_not_prose {t : Token} (h : t.isProse = false) (line : Nat) :
    ∃ content, t.items line = [.tag content line] := by
  cases t with
  | markup source => exact ⟨_, rfl⟩
  | image url alt title => exact ⟨_, rfl⟩
  | text s => cases h
  | lineBreak => cases h

theorem joinItems_itemsOf_append (h : ∀ t, ps.getLast? = some t → t.isProse = false) (line : Nat)
    (items : List Item) : joinItems (itemsOf line ps ++ items) = joinItems (itemsOf line ps) ++ joinItems items := by
  cases hlast : ps.getLast? with
  | none =>
    rw [List.getLast?_eq_none_iff.1 hlast]
    rfl
  | some t =>
    obtain ⟨front, rfl⟩ := List.getLast?_eq_some_iff.1 hlast
    obtain ⟨content, hitems⟩ := Token.exists_items_of_not_prose (h t hlast)
      (line + newlines (front.flatMap Token.render))
    rw [itemsOf_append, itemsOf, hitems, itemsOf, List.append_nil, List.append_assoc, List.singleton_append,
      joinItems_append_tag, joinItems_append_tag, List.append_assoc]
    rfl

/-- The items of a paragraph, from the tokens up to a tag and those behind it. -/
theorem sourceItems_of_tokens {source : List Char} (hps : ∀ t, ps.getLast? = some t → t.isProse = false)
    (h : tokensByPosition documentRules 0 source = ps ++ us) :
    sourceItems source = (.tag paragraphTag.toList 0 :: joinItems (itemsOf 0 ps)) ++
      joinItems (itemsOf (newlines (ps.flatMap Token.render)) us ++
        [.tag ('/' :: paragraphTag.toList) (newlines source)]) := by
  rw [sourceItems_eq, h, itemsOf_append, List.append_assoc, joinItems_itemsOf_append hps, Nat.zero_add]
  rfl

/-! ### The way to the place -/

theorem EndsFirmly.append (hc : EndsFirmly c) (hx : EndsFirmly x) : EndsFirmly (c ++ x) := by
  intro d hd
  rw [List.getLast?_append, Option.or_eq_some_iff] at hd
  rcases hd with hd | ⟨-, hd⟩
  · exact hx d hd
  · exact hc d hd

/-- Every text ends in some blanks of its last line. -/
theorem exists_firm (x : List Char) : ∃ c q, x = c ++ q ∧ (∀ d ∈ q, isBlank d = true ∧ d ≠ '\n') ∧ EndsFirmly c := by
  induction x using List.reverseRecOn with
  | nil => exact ⟨[], [], rfl, List.forall_mem_nil _, fun d hd => by cases hd⟩
  | append_singleton x d ih =>
    by_cases hd : isBlank d = true ∧ d ≠ '\n'
    · obtain ⟨c, q, rfl, hq, hfirm⟩ := ih
      exact ⟨c, q ++ [d], List.append_assoc c q [d], List.forall_mem_append.2 ⟨hq, by simpa using hd⟩, hfirm⟩
    · refine ⟨x ++ [d], [], (List.append_nil _).symm, List.forall_mem_nil _, fun e he hblank => ?_⟩
      rw [List.getLast?_concat] at he
      cases he
      by_contra hne
      exact hd ⟨hblank, hne⟩

theorem isProse_singles {token : Token} (h : token.isProse = true) : ∀ t ∈ token.singles, t.isProse = true := by
  cases token with
  | text s => simp [Token.singles, Token.isProse]
  | lineBreak => simp [Token.singles, Token.isProse]
  | markup source => cases h
  | image url alt title => cases h

theorem singles_of_not_prose {token : Token} (h : token.isProse = false) : token.singles = [token] := by
  cases token with
  | markup source => rfl
  | image url alt title => rfl
  | text s => cases h
  | lineBreak => cases h

theorem isBlank_of_isPad {d : Char} (h : isPad d = true) : isBlank d = true ∧ d ≠ '\n' := by
  rw [isPad, Bool.or_eq_true, beq_iff_eq, beq_iff_eq] at h
  rcases h with rfl | rfl <;> decide

/-- Blanks of one line. -/
theorem forall_blank_iff : (∀ d ∈ q, isBlank d = true ∧ d ≠ '\n') ↔ allBlank q = true ∧ newlines q = 0 := by
  simp only [imp_and, forall_and, allBlank, List.all_eq_true, newlines, List.count_eq_zero]
  exact and_congr_right fun _ => ⟨fun h hmem => h _ hmem rfl, fun h d hd heq => h (heq ▸ hd)⟩

theorem firstLine_of_newline (hq : newlines q = 0) (s : List Char) : firstLine (q ++ '\n' :: s) = q := by
  rw [firstLine, splitLines_append_newline, splitLines_of_newlines hq]
  rfl

namespace FieldGap

def frontTokens (gap : FieldGap schema a u b) : List Token := gap.front.flatMap fun m => m.token.singles

theorem isProse_getLast? (gap : FieldGap schema a u b) :
    ∀ t, gap.frontTokens.getLast? = some t → t.isProse = false := by
  intro t ht
  cases hlast : gap.front.getLast? with
  | none =>
    rw [frontTokens, List.getLast?_eq_none_iff.1 hlast] at ht
    cases ht
  | some m =>
    obtain ⟨front, hfront⟩ := List.getLast?_eq_some_iff.1 hlast
    have hm := gap.last m hlast
    rw [frontTokens, hfront, List.flatMap_append, List.flatMap_singleton, singles_of_not_prose hm,
      List.getLast?_concat] at ht
    cases ht
    exact hm

/-- The text behind the last tag before the place. -/
theorem flatMap_source_gap (gap : FieldGap schema a u b) :
    (gap.gap ++ gap.back).flatMap Match.source = gap.x ++ (u ++ b) := by
  have hcover := flatMap_source_pieces documentRules (a ++ (u ++ b))
  rw [gap.pieces_eq, List.flatMap_append] at hcover
  conv at hcover => rhs; rw [gap.left, List.append_assoc]
  exact List.append_cancel_left hcover

theorem lexes_front (gap : FieldGap schema a u b) :
    Lexes (a ++ (u ++ b)) gap.frontTokens (gap.x ++ (u ++ b)) := by
  rw [← gap.flatMap_source_gap]
  exact lexes_of_pieces gap.pieces_eq

/-- The gap can be cut at a seam. -/
theorem exists_lexes (gap : FieldGap schema a u b) {x₁ : List Char} (hx : gap.x = x₁ ++ q)
    (hseam : Seam x₁ (q ++ (u ++ gap.y))) :
    ∃ ts, (∀ t ∈ ts, t.isProse = true) ∧ Lexes (a ++ (u ++ b)) (gap.frontTokens ++ ts) (q ++ (u ++ b)) := by
  have hgap := lexes_of_pieces (pieces_of_append gap.pieces_eq)
  have hprose : ∀ t ∈ gap.gap.flatMap fun m => m.token.singles, t.isProse = true := by
    intro t ht
    obtain ⟨m, hm, ht⟩ := List.mem_flatMap.1 ht
    exact isProse_singles (gap.prose m hm) t ht
  have hright := gap.right.symm
  have hrest : (q ++ (u ++ gap.y)) ++ gap.back.flatMap Match.source = q ++ (u ++ b) := by
    simp only [List.append_assoc, hright]
  have hb : gap.x ++ (u ++ b) = x₁ ++ ((q ++ (u ++ gap.y)) ++ gap.back.flatMap Match.source) := by
    rw [hrest, hx, List.append_assoc]
  rw [gap.flatMap_source_gap, hb] at hgap
  obtain ⟨ts, ts', hts, hto, -⟩ := hgap.cut hprose hseam
  rw [← hb, hrest] at hto
  exact ⟨ts, fun t ht => hprose t (by rw [hts]; exact List.mem_append_left _ ht), gap.lexes_front.append hto⟩

theorem mem_pieces_front (gap : FieldGap schema a u b) {m : Match} (h : gap.front.getLast? = some m) :
    m ∈ pieces documentRules (a ++ (u ++ b)) := by
  rw [gap.pieces_eq]
  exact List.mem_append_left _ (List.mem_of_getLast? h)

theorem getLast?_front (gap : FieldGap schema a u b) {m : Match} (h : gap.front.getLast? = some m) :
    (gap.front.flatMap Match.source).getLast? = m.source.getLast? := by
  have hne := source_ne_nil_of_keeps (keeps_pieces _ m (gap.mem_pieces_front h))
  obtain ⟨front, hfront⟩ := List.getLast?_eq_some_iff.1 h
  rw [hfront, List.flatMap_append, List.flatMap_singleton, List.getLast?_append_of_ne_nil _ hne]

/-- A tag does not end in white space, nor does an image. -/
theorem firm_front (gap : FieldGap schema a u b) : EndsFirmly (gap.front.flatMap Match.source) := by
  intro d hd hblank
  cases hlast : gap.front.getLast? with
  | none =>
    rw [List.getLast?_eq_none_iff.1 hlast] at hd
    cases hd
  | some m =>
    rw [gap.getLast?_front hlast] at hd
    exact getLast?_of_marker? (marker?_of_mem_pieces (gap.mem_pieces_front hlast) (gap.last m hlast)) hd hblank

end FieldGap

/-- How the lexer comes to the place: by the tokens `ts` behind the last tag it comes to the end of `c`, where there
are only the blanks `q` left. -/
structure Approach (ps : List Token) (a u b c q : List Char) (ts : List Token) : Prop where
  split : a = c ++ q
  blank : ∀ d ∈ q, isBlank d = true ∧ d ≠ '\n'
  firm : EndsFirmly c
  borders : TagSpan.Borders c b
  prose : ∀ t ∈ ts, t.isProse = true
  lexes : Lexes (a ++ (u ++ b)) (ps ++ ts) (q ++ (u ++ b))
  ends : ts = [] ∨ (∃ source, (tokensByPosition documentRules 0 b).head? = some (.markup source)) ∨
    allBlank (firstLine b) = true ∧ newlines b ≠ 0

namespace FieldGap

theorem getLast?_of_afterTag (gap : FieldGap schema a u b) {m : Match} {source : List Char} (hx : gap.x = [])
    (hlast : gap.front.getLast? = some m) (htag : m.token = .markup source) : a.getLast? = some '>' := by
  have hleft := gap.left
  rw [hx, List.append_nil] at hleft
  obtain ⟨hsource, content, hcontent, -⟩ : (Token.markup source).Keeps m.source :=
    htag ▸ keeps_pieces _ m (gap.mem_pieces_front hlast)
  rw [hleft, gap.getLast?_front hlast, hsource, hcontent]
  exact List.getLast?_concat

theorem head?_of_beforeTag (gap : FieldGap schema a u b) {m : Match} {source : List Char} (hy : gap.y = [])
    (hfirst : gap.back.head? = some m) (htag : m.token = .markup source) : b.head? = some '<' := by
  have hright := gap.right
  rw [hy, List.nil_append] at hright
  have hm : m ∈ pieces documentRules (a ++ (u ++ b)) := by
    rw [gap.pieces_eq]
    exact List.mem_append_right _ (List.mem_append_right _ (List.mem_of_head? hfirst))
  obtain ⟨hsource, content, hcontent, -⟩ : (Token.markup source).Keeps m.source := htag ▸ keeps_pieces _ m hm
  obtain ⟨back, hback⟩ := List.head?_eq_some_iff.1 hfirst
  rw [hright, hback, List.flatMap_cons, hsource, hcontent]
  rfl

theorem approach_afterTag (gap : FieldGap schema a u b) {m : Match} {source : List Char} (hx : gap.x = [])
    (hlast : gap.front.getLast? = some m) (htag : m.token = .markup source) :
    Approach gap.frontTokens a u b a [] [] := by
  have hleft := gap.left
  rw [hx, List.append_nil] at hleft
  have hfirm := gap.firm_front
  rw [← hleft] at hfirm
  have hlexes := gap.lexes_front
  rw [hx, List.nil_append] at hlexes
  exact {
    split := (List.append_nil a).symm
    blank := List.forall_mem_nil _
    firm := hfirm
    borders := .inl ⟨'>', gap.getLast?_of_afterTag hx hlast htag, .inl rfl⟩
    prose := List.forall_mem_nil _
    lexes := by rwa [List.append_nil]
    ends := .inl rfl }

theorem exists_approach_beforeTag (gap : FieldGap schema a u b) (hu : ∀ d ∈ u, isPad d = true) {m : Match}
    {source : List Char} (hy : gap.y = []) (hfirst : gap.back.head? = some m) (htag : m.token = .markup source) :
    ∃ c q ts, Approach gap.frontTokens a u b c q ts := by
  obtain ⟨c, q, hc, hq, hfirm⟩ := exists_firm gap.x
  have hpads : ∀ d ∈ q ++ (u ++ gap.y), isBlank d = true ∧ d ≠ '\n' := by
    rw [hy, List.append_nil]
    exact List.forall_mem_append.2 ⟨hq, fun d hd => isBlank_of_isPad (hu d hd)⟩
  obtain ⟨ts, hts, hlexes⟩ := gap.exists_lexes hc (.inr hpads)
  obtain ⟨back, hback⟩ := List.head?_eq_some_iff.1 hfirst
  have hright := gap.right
  rw [hy, List.nil_append] at hright
  have hpieces : pieces documentRules b = [m] ++ back := by
    rw [hright, ← List.singleton_append.trans hback.symm]
    refine pieces_of_append (?_ : pieces documentRules (a ++ (u ++ b)) = (gap.front ++ gap.gap) ++ ([m] ++ back))
    rw [gap.pieces_eq, hback, List.append_assoc]
    rfl
  have htokens := (lexes_of_pieces hpieces).tokensByPosition_eq
  refine ⟨gap.front.flatMap Match.source ++ c, q, ts, ?_⟩
  exact {
    split := by rw [List.append_assoc, ← hc]; exact gap.left
    blank := hq
    firm := gap.firm_front.append hfirm
    borders := .inr (gap.head?_of_beforeTag hy hfirst htag)
    prose := hts
    lexes := hlexes
    ends := .inr (.inl ⟨source, by rw [htokens, List.flatMap_singleton, htag]; rfl⟩) }

theorem exists_approach_blankLine (gap : FieldGap schema a u b) {x' y' : List Char} (hx : gap.x = x ++ '\n' :: x')
    (hy : gap.y = y' ++ '\n' :: y) (hblank : allBlank x' = true) (hblank' : allBlank y' = true)
    (hnone : newlines x' = 0) (hnone' : newlines y' = 0) :
    ∃ c q ts, Approach gap.frontTokens a u b c q ts := by
  have hlast : (x ++ ['\n']).getLast? = some '\n' := List.getLast?_concat
  have hx' : gap.x = (x ++ ['\n']) ++ x' := hx.trans (List.append_cons x '\n' x')
  have hnewline : ∀ d, (x ++ ['\n']).getLast? = some d → d = '\n' := fun d hd =>
    Option.some.inj (hd.symm.trans hlast)
  obtain ⟨ts, hts, hlexes⟩ := gap.exists_lexes hx' (.inl hnewline)
  have hright := gap.right
  rw [hy, List.append_assoc, List.cons_append] at hright
  have hend : (gap.front.flatMap Match.source ++ (x ++ ['\n'])).getLast? = some '\n' := by
    rw [List.getLast?_append, hlast]
    rfl
  refine ⟨gap.front.flatMap Match.source ++ (x ++ ['\n']), x', ts, ?_⟩
  exact {
    split := by rw [List.append_assoc, ← hx']; exact gap.left
    blank := forall_blank_iff.2 ⟨hblank, hnone⟩
    firm := fun d hd _ => Option.some.inj (hd.symm.trans hend)
    borders := .inl ⟨'\n', hend, .inr (by decide)⟩
    prose := hts
    lexes := hlexes
    ends := by
      rw [hright, firstLine_of_newline hnone', newlines_append, newlines_newline_cons]
      exact .inr (.inr ⟨hblank', by omega⟩) }

theorem exists_approach (gap : FieldGap schema a u b) (hu : ∀ d ∈ u, isPad d = true) :
    ∃ c q ts, Approach gap.frontTokens a u b c q ts := by
  have hbeside := gap.beside
  generalize hx : gap.x = x at hbeside
  generalize hy : gap.y = y at hbeside
  cases hbeside with
  | afterTag hlast htag => exact ⟨a, [], [], gap.approach_afterTag hx hlast htag⟩
  | beforeTag hfirst htag => exact gap.exists_approach_beforeTag hu hy hfirst htag
  | blankLine before behind hbefore hbehind =>
    exact gap.exists_approach_blankLine hx hy before behind hbefore hbehind

/-- The place is next to a bracket, or behind a blank. -/
theorem borders (gap : FieldGap schema a u b) (hu : ∀ d ∈ u, isPad d = true) : TagSpan.Borders a b := by
  obtain ⟨c, q, ts, way⟩ := gap.exists_approach hu
  rw [way.split]
  refine way.borders.imp_left ?_
  rintro ⟨d, hlast, hd⟩
  cases hq : q.getLast? with
  | none => exact ⟨d, by rw [List.getLast?_append, hq]; exact hlast, hd⟩
  | some e => exact ⟨e, by rw [List.getLast?_append, hq]; rfl, .inr (way.blank e (List.mem_of_getLast? hq)).1⟩

/-- Only a tag can stand in front of the place if nothing stands behind it. -/
theorem getLast?_of_nil (gap : FieldGap schema a u []) : a.getLast? = some '>' := by
  have hbeside := gap.beside
  generalize hx : gap.x = x at hbeside
  generalize hy : gap.y = y at hbeside
  cases hbeside with
  | afterTag hlast htag => exact gap.getLast?_of_afterTag hx hlast htag
  | beforeTag hfirst htag => cases gap.head?_of_beforeTag hy hfirst htag
  | blankLine =>
    have hright := gap.right
    rw [hy] at hright
    simp at hright

/-- White space at the place does not bring a carriage return to the end of the paragraph. -/
theorem getLast?_ne_cr (gap : FieldGap schema a u b) (hu' : ∀ d ∈ u', isPad d = true)
    (h : (a ++ (u ++ b)).getLast? ≠ some '\r') : (a ++ (u' ++ b)).getLast? ≠ some '\r' := by
  cases b with
  | nil =>
    rw [List.append_nil, List.getLast?_append, gap.getLast?_of_nil]
    intro hlast
    rcases Option.or_eq_some_iff.1 hlast with hpad | ⟨-, hgt⟩
    · cases hu' _ (List.mem_of_getLast? hpad)
    · cases hgt
  | cons d b =>
    have hends : ∀ w : List Char, (a ++ (w ++ d :: b)).getLast? = (d :: b).getLast? := by
      intro w
      rw [← List.append_assoc, List.getLast?_append_of_ne_nil _ (List.cons_ne_nil d b)]
    rwa [hends] at h ⊢

end FieldGap

/-! ### More or fewer blanks -/

theorem InImage.of_blanks (hsplit : a = c ++ q) (h : InImage c (q ++ u) b) : InImage a u b := by
  obtain ⟨m, hm, htoken, hends, hbegins⟩ := h
  refine ⟨m, ?_, htoken, hends, ?_⟩
  · rwa [hsplit, List.append_assoc, ← List.append_assoc q]
  · simp only [List.length_append] at hbegins ⊢
    omega

/-- The text that is still to be joined to the prose ends before the next tag or at the end of the line. -/
theorem leadingText_of_head? (h : (∃ source, us.head? = some (.markup source)) ∨ us.head? = some .lineBreak ∨
    us.head? = some (.text ['\n'])) (line : Nat) (items : List Item) :
    leadingText (joinItems (itemsOf line us ++ items)) = [] ∨
      ∃ d ∈ (leadingText (joinItems (itemsOf line us ++ items))).head?, isBlank d = true := by
  rcases h with ⟨source, h⟩ | h | h <;> obtain ⟨us, rfl⟩ := List.head?_eq_some_iff.1 h
  · exact .inl rfl
  · exact .inl rfl
  · have hitems : itemsOf line (.text ['\n'] :: us) ++ items = .text ['\n'] line ::
        (itemsOf (line + newlines (Token.text ['\n']).render) us ++ items) := rfl
    rw [hitems, joinItems_cons_text]
    exact .inr ⟨'\n', rfl, by decide⟩

theorem newlines_render_singles (v : List Char) :
    newlines ((v.map fun d => Token.text [d]).flatMap Token.render) = newlines v :=
  (newlines_singles (.text v)).trans (newlines_escape .content v)

/-- What is left to take when the tags before the place have been taken. -/
theorem FieldGap.exists_takeAll (gap : FieldGap schema a u b) (l : Ledger) : ∃ g, g.inObject = true ∧
    ∀ {source us}, tokensByPosition documentRules 0 source = gap.frontTokens ++ us →
      takeAll schema (sourceItems source) (start l.clear) =
        takeAll schema (joinItems (itemsOf (newlines (gap.frontTokens.flatMap Token.render)) us ++
          [.tag ('/' :: paragraphTag.toList) (newlines source)])) g := by
  obtain ⟨g, hfront, hg⟩ := gap.exists_progress l
  have hkeeps : ∀ m ∈ gap.front, m.token.Keeps m.source := fun m hm =>
    keeps_pieces (a ++ (u ++ b)) m (by rw [gap.pieces_eq]; exact List.mem_append_left _ hm)
  rw [joinItems_itemsFrom hkeeps, ← frontTokens] at hfront
  refine ⟨g, hg, fun htokens => ?_⟩
  rw [sourceItems_of_tokens gap.isProse_getLast? htokens, takeAll_append hfront]

/-- A backslash at the end of a line of white space would be visible. -/
theorem FieldGap.getLast?_append_ne_backslash (gap : FieldGap schema a u b)
    (way : Approach gap.frontTokens a u b c q ts) {l : Ledger}
    (h : takeAll schema (sourceItems (a ++ (u ++ b))) (start l.clear) = .ok g') :
    (gap.frontTokens ++ ts).getLast? ≠ some (.text ['\\']) := by
  intro hlast
  obtain ⟨g, hg, hrest⟩ := gap.exists_takeAll l
  rw [hrest (way.lexes.tokensByPosition_eq.trans (List.append_assoc _ _ _)), itemsOf_append, List.append_assoc] at h
  rw [List.getLast?_append, Option.or_eq_some_iff] at hlast
  rcases hlast with hlast | ⟨-, hlast⟩
  · exact getLast?_ne_backslash hg way.prose h hlast
  · cases gap.isProse_getLast? _ hlast

theorem Approach.bound (way : Approach ps a u b c q ts)
    (hus : us = tokensByPosition documentRules 0 b ∧ (allBlank (firstLine b) = false ∨ newlines b = 0) ∨
      us.head? = some .lineBreak ∨ us.head? = some (.text ['\n'])) (line : Nat) (items : List Item) :
    pendingText [] ts = [] ∨ leadingText (joinItems (itemsOf line us ++ items)) = [] ∨
      ∃ d ∈ (leadingText (joinItems (itemsOf line us ++ items))).head?, isBlank d = true := by
  rcases hus with ⟨rfl, hline⟩ | hus
  · rcases way.ends with rfl | hmarkup | ⟨hblank, hnone⟩
    · exact .inl rfl
    · exact .inr (leadingText_of_head? (.inl hmarkup) line items)
    · rcases hline with hline | hline
      · cases hblank.symm.trans hline
      · exact absurd hline hnone
  · exact .inr (leadingText_of_head? (.inr hus) line items)

theorem itemsOf_blanks {v : List Char} (hv : newlines v = 0) (line : Nat) (items : List Item) :
    itemsOf line (ts ++ ((v.map fun d => .text [d]) ++ us)) ++ items = itemsOf line ts ++
      (itemsOf (line + newlines (ts.flatMap Token.render)) (v.map fun d => .text [d]) ++
        (itemsOf (line + newlines (ts.flatMap Token.render)) us ++ items)) := by
  rw [itemsOf_append, itemsOf_append, newlines_render_singles, hv, Nat.add_zero, List.append_assoc,
    List.append_assoc]

/-- A paragraph in which there are more or fewer blanks at the place comes to the same, if the line ends in a hard break
as it did and the place has not become part of an image. -/
theorem takeAll_sourceItems_spaced (gap : FieldGap schema a u b) (hu : ∀ d ∈ u, isPad d = true)
    (hu' : ∀ d ∈ u', isPad d = true)
    (hbreak : breaksAfter (lastLine a ++ (u ++ firstLine b)) = breaksAfter (lastLine a ++ (u' ++ firstLine b)))
    (himage : ¬InImage a u' b) {l : Ledger}
    (h : takeAll schema (sourceItems (a ++ (u ++ b))) (start l.clear) = .ok g') :
    takeAll schema (sourceItems (a ++ (u' ++ b))) (start l.clear) = .ok g' := by
  obtain ⟨c, q, ts, way⟩ := gap.exists_approach hu
  have hbackslash := gap.getLast?_append_ne_backslash way h
  have hpads : ∀ w, (∀ d ∈ w, isPad d = true) → allBlank (q ++ w) = true ∧ newlines (q ++ w) = 0 :=
    fun w hw => forall_blank_iff.1 (List.forall_mem_append.2 ⟨way.blank, fun d hd => isBlank_of_isPad (hw d hd)⟩)
  -- for the lexer the blanks begin where `c` ends, with `q`
  obtain ⟨hp, hnp⟩ := hpads u hu
  obtain ⟨hp', hnp'⟩ := hpads u' hu'
  have hsplit : ∀ w, a ++ (w ++ b) = c ++ ((q ++ w) ++ b) := by
    intro w
    rw [way.split, List.append_assoc, List.append_assoc]
  have hline : lastLine a = lastLine c ++ q := by
    rw [way.split, lastLine_append (forall_blank_iff.1 way.blank).2]
  have hlexes := way.lexes
  rw [hsplit, ← List.append_assoc q] at hlexes
  rw [hline, List.append_assoc, List.append_assoc, ← List.append_assoc q, ← List.append_assoc q] at hbreak
  obtain ⟨v, v', us, hv, hv', hnv, hnv', hold, hnew, hus⟩ := exists_tokens_spaced hlexes (fun _ => way.borders)
    way.firm hbackslash hp hp' hnp hnp' hbreak fun hin => himage (hin.of_blanks way.split)
  rw [← hsplit, List.append_assoc] at hold hnew
  obtain ⟨g, hg, hrest⟩ := gap.exists_takeAll l
  rw [hrest hold] at h
  rw [hrest hnew]
  have hnewlines : newlines (a ++ (u' ++ b)) = newlines (a ++ (u ++ b)) := by
    simp only [hsplit, newlines_append, hnp, hnp']
  rw [itemsOf_blanks hnv] at h
  rw [itemsOf_blanks hnv', hnewlines]
  exact takeAll_spaced hg way.prose hv hv' (way.bound hus _ _) h

end TaggedProse
