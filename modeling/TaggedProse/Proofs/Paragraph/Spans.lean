import Mathlib.Data.List.Chain
import TaggedProse.Proofs.Paragraph.Outcome

/-! Where markup is. The reader of elements finds in a rendered paragraph what the lexer has found in its
source: each tag as one event, from its `<` to its `>`, and all else as text. -/
namespace TaggedProse

structure Span where
  written : List Char
  event : Xml.Event

variable {s : List Char} {ts : List Token} {items : List Item} {ms : List Match} {position : Nat}
  {spans : List Span} {r : Xml.Reading}

def textSpan (s : List Char) : Span := ⟨s, .text s⟩

def Span.isText (span : Span) : Bool :=
  match span.event with
  | .text _ => true
  | _ => false

/-- One token on its own. The newline of a hard break is text, and not part of its element. -/
def Token.span : Token → Span
  | .text s => textSpan (escape .content s)
  | .markup source => ⟨source, Xml.tagEvent source.tail.dropLast⟩
  | .image url alt title =>
    ⟨(Token.image url alt title).render, .empty (imageTag.toList ++ renderAttribute "url" url ++
      renderOptional "alt" alt ++ renderOptional "title" (title.getD []))⟩
  | .lineBreak => ⟨'<' :: breakTag.toList ++ ['/', '>'], .empty breakTag.toList⟩

/-- The tokens in order; the newline of a hard break goes with the text that follows. -/
def spansOf : List Token → List Span
  | [] => []
  | .lineBreak :: .text s :: ts =>
    Token.lineBreak.span :: textSpan ('\n' :: escape .content s) :: spansOf ts
  | .lineBreak :: ts => Token.lineBreak.span :: textSpan ['\n'] :: spansOf ts
  | t :: ts => t.span :: spansOf ts

def paragraphSpans (ts : List Token) : List Span :=
  ⟨'<' :: paragraphTag.toList ++ ['>'], .opening paragraphTag.toList⟩ ::
    (spansOf ts ++ [⟨['<', '/'] ++ paragraphTag.toList ++ ['>'], .closing paragraphTag.toList⟩])

def placed (position : Nat) : List Span → List (Nat × Xml.Event)
  | [] => []
  | span :: rest => (position, span.event) :: placed (position + byteLength span.written) rest

inductive Spells : List Char → Xml.Event → Prop
  | text {s : List Char} (nonempty : s ≠ []) (plain : '<' ∉ s) : Spells s (.text s)
  | opening (content : List Char) : Spells ('<' :: content ++ ['>']) (.opening content)
  | empty (content : List Char) : Spells ('<' :: content ++ ['/', '>']) (.empty content)
  | closing (name : List Char) : Spells (['<', '/'] ++ name ++ ['>']) (.closing (Xml.closingName name))

theorem Spells.plain {event : Xml.Event} (h : Spells s event) :
    event ≠ .ignored ∧ ∀ text, event ≠ .literal text := by
  cases h <;> simp

/-- From `position` on all spans are read, or those before a closing tag that closes nothing. -/
def ReadsFrom (position : Nat) (spans : List Span) (r : Xml.Reading) : Prop :=
  (r.fault = none ∧ r.events = placed position spans) ∨
    ∃ front span back name, spans = front ++ span :: back ∧ span.event = .closing name ∧
      r.events = placed position front ∧
      (r.fault = some (position + byteLength (front.flatMap Span.written), .unmatchedClosing name) ∨
        ∃ expected, expected ≠ name ∧
          r.fault = some (position + byteLength (front.flatMap Span.written), .mismatchedClosing expected name))

structure ReadsAs (s : List Char) (spans : List Span) (r : Xml.Reading) : Prop where
  written : spans.flatMap Span.written = s
  spelled : ∀ span ∈ spans, Spells span.written span.event
  apart : spans.IsChain fun a b => (a.isText && b.isText) = false
  events : ReadsFrom 0 spans r
  plain : ∀ e ∈ r.events, e.2 ≠ .ignored ∧ ∀ text, e.2 ≠ .literal text

/-! ### Items -/

def Item.span : Item → Span
  | .text s _ => textSpan (escape .content s)
  | .tag content _ => ⟨'<' :: content ++ ['>'], Xml.tagEvent content⟩

@[simp] theorem written_span (it : Item) : it.span.written = it.render := by
  cases it <;> rfl

theorem tagEvent_empty {c : Char} (hc : c ≠ '/') (s : List Char) :
    Xml.tagEvent (c :: s ++ ['/']) = .empty (c :: s) := by
  unfold Xml.tagEvent
  split
  · next name heq => exact absurd (List.cons.inj heq).1 hc
  · have hlast : (c :: s ++ ['/']).getLast? = some '/' := List.getLast?_concat
    rw [if_pos hlast, List.dropLast_concat]

theorem span_image (url alt : List Char) (title : Option (List Char)) (line : Nat) :
    (Item.tag (imageContent url alt title) line).span = (Token.image url alt title).span := by
  have hfirst : 'i' ≠ '/' := by decide
  have hevent := tagEvent_empty hfirst ("mage".toList ++ renderAttribute "url" url ++
    renderOptional "alt" alt ++ renderOptional "title" (title.getD []))
  rw [Item.span, Token.span, render_image]
  exact congrArg (Span.mk _) hevent

theorem spells_span {it : Item} (h : it.Sound) : Spells it.span.written it.span.event := by
  cases it with
  | text s line => exact .text (escape_ne_nil h) (not_mem_escape _ s)
  | tag content line =>
    rw [Item.span]
    unfold Xml.tagEvent
    split
    · next name => exact .closing name
    · split
      · next hlast =>
        have hcontent := List.dropLast_append_getLast? _ hlast
        have hempty := Spells.empty content.dropLast
        rwa [← List.singleton_append (l := ['>']), ← List.append_assoc, List.cons_append, hcontent] at hempty
      · exact .opening content

theorem isText_span_tag (content : List Char) (line : Nat) : (Item.tag content line).span.isText = false := by
  rcases tagEvent_cases content with ⟨name, hevent⟩ | ⟨inner, hevent⟩ | hevent <;>
    simp [Item.span, Span.isText, hevent]

theorem Apart.isChain_span (h : Apart items) :
    (items.map Item.span).IsChain fun a b => (a.isText && b.isText) = false := by
  induction items with
  | nil => exact .nil
  | cons it items ih =>
    cases it with
    | tag content line =>
      exact .cons (ih h) fun b _ => by rw [isText_span_tag, Bool.false_and]
    | text s line =>
      obtain ⟨htext, hrest⟩ := h
      refine .cons (ih hrest) fun b hb => ?_
      cases items with
      | nil => cases hb
      | cons it' items =>
        cases hb
        cases it' with
        | text s' line' => exact absurd rfl (htext s' line' items)
        | tag content line' => rw [isText_span_tag, Bool.and_false]

def Spanned (items : List Item) (ts : List Token) : Prop :=
  items.map Item.span = spansOf ts ∧
    ((∃ s line items' ts', items = .text s line :: items' ∧ ts = .text s :: ts' ∧
        items'.map Item.span = spansOf ts') ∨
      (TextLess items ∧ ∀ s rest, ts ≠ .text s :: rest))

theorem Spanned.text (h : Spanned (joinItems items) (joinText ts)) (s : List Char) (line : Nat) :
    Spanned (joinItems (.text s line :: items)) (joinText (.text s :: ts)) := by
  obtain ⟨hspans, ⟨s', line', items', ts', hitems, htokens, hrest⟩ | ⟨hitems, htokens⟩⟩ := h
  · rcases joinItems_text s line items with ⟨s₁, line₁, rest₁, heq₁, hjoin₁⟩ | ⟨hno, -⟩
    · rcases joinText_text s ts with ⟨s₂, rest₂, heq₂, hjoin₂⟩ | ⟨hno, -⟩
      · rw [hitems] at heq₁
        rw [htokens] at heq₂
        cases heq₁
        cases heq₂
        rw [hjoin₁, hjoin₂]
        refine ⟨?_, .inl ⟨_, line, items', ts', rfl, rfl, hrest⟩⟩
        rw [List.map_cons, hrest]
        rfl
      · exact absurd htokens (hno s' ts')
    · exact absurd hitems (hno s' line' items')
  · rcases joinItems_text s line items with ⟨s₁, line₁, rest₁, heq₁, -⟩ | ⟨-, hjoin₁⟩
    · exact absurd heq₁ (hitems s₁ line₁ rest₁)
    · rcases joinText_text s ts with ⟨s₂, rest₂, heq₂, -⟩ | ⟨-, hjoin₂⟩
      · exact absurd heq₂ (htokens s₂ rest₂)
      · rw [hjoin₁, hjoin₂]
        refine ⟨?_, .inl ⟨_, line, _, _, rfl, rfl, hspans⟩⟩
        rw [List.map_cons, hspans]
        rfl

theorem Spanned.tag {t : Token} {content : List Char} {line : Nat} (h : Spanned items ts)
    (htext : ∀ s, t ≠ .text s) (hbreak : t ≠ .lineBreak) (hspan : (Item.tag content line).span = t.span) :
    Spanned (.tag content line :: items) (t :: ts) := by
  refine ⟨?_, .inr ⟨textLess_tag _ _ _, fun s rest heq => htext s (List.cons.inj heq).1⟩⟩
  rw [List.map_cons, h.1, hspan]
  cases t with
  | lineBreak => exact absurd rfl hbreak
  | _ => rfl

theorem Spanned.lineBreak (h : Spanned (joinItems items) (joinText ts)) (line : Nat) :
    Spanned (joinItems (.tag (breakTag.toList ++ ['/']) line :: .text ['\n'] line :: items))
      (joinText (.lineBreak :: ts)) := by
  refine ⟨?_, .inr ⟨textLess_tag _ _ _, fun _ _ heq => by cases heq⟩⟩
  change _ :: (joinItems (.text ['\n'] line :: items)).map Item.span = spansOf (.lineBreak :: joinText ts)
  obtain ⟨hspans, ⟨s', line', items', ts', hitems, htokens, hrest⟩ | ⟨hitems, htokens⟩⟩ := h
  · rcases joinItems_text ['\n'] line items with ⟨s₁, line₁, rest₁, heq₁, hjoin⟩ | ⟨hno, -⟩
    · rw [hitems] at heq₁
      cases heq₁
      rw [hjoin, htokens, spansOf, List.map_cons, hrest]
      rfl
    · exact absurd hitems (hno s' line' items')
  · rcases joinItems_text ['\n'] line items with ⟨s₁, line₁, rest₁, heq₁, -⟩ | ⟨-, hjoin⟩
    · exact absurd heq₁ (hitems s₁ line₁ rest₁)
    · rw [hjoin, List.map_cons, hspans, spansOf]
      · rfl
      · exact fun s rest heq => htokens s rest heq

/-- The items of a paragraph's source are the spans of its tokens. -/
theorem spanned_joinItems (h : ∀ m ∈ ms, m.token.Keeps m.source) (line : Nat) :
    Spanned (joinItems (itemsFrom line ms)) (joinText (ms.map Match.token)) := by
  induction ms generalizing line with
  | nil => exact ⟨rfl, .inr ⟨textLess_nil, fun _ _ heq => by cases heq⟩⟩
  | cons m ms ih =>
    have hrest := ih (fun m' hm' => h m' (List.mem_cons_of_mem _ hm')) (line + newlines m.source)
    have hm := h m List.mem_cons_self
    rw [itemsFrom, List.map_cons]
    cases htoken : m.token with
    | text s => exact hrest.text s line
    | markup source =>
      rw [htoken] at hm
      obtain ⟨-, content, rfl, -⟩ := hm
      rw [Token.items, content_of_brackets]
      refine hrest.tag (fun s heq => by cases heq) (by simp) ?_
      rw [Item.span, Token.span, content_of_brackets]
    | image url alt title =>
      exact hrest.tag (fun s heq => by cases heq) (by simp) (span_image url alt title line)
    | lineBreak => exact hrest.lineBreak line

/-! ### Reading -/

theorem exists_of_mem_placed {e : Nat × Xml.Event} (h : e ∈ placed position spans) :
    ∃ span ∈ spans, e.2 = span.event := by
  induction spans generalizing position with
  | nil => cases h
  | cons span spans ih =>
    rcases List.mem_cons.1 h with rfl | h
    · exact ⟨span, List.mem_cons_self, rfl⟩
    · obtain ⟨other, hmem, heq⟩ := ih h
      exact ⟨other, List.mem_cons_of_mem _ hmem, heq⟩

theorem ReadsFrom.exists_span (h : ReadsFrom position spans r) {e : Nat × Xml.Event} (he : e ∈ r.events) :
    ∃ span ∈ spans, e.2 = span.event := by
  rcases h with ⟨-, hevents⟩ | ⟨front, span, back, name, rfl, -, hevents, -⟩
  · exact exists_of_mem_placed (hevents ▸ he)
  · obtain ⟨other, hmem, heq⟩ := exists_of_mem_placed (hevents ▸ he)
    exact ⟨other, List.mem_append_left _ hmem, heq⟩

theorem ReadsFrom.cons {span : Span} (h : ReadsFrom (position + byteLength span.written) spans r) :
    ReadsFrom position (span :: spans) { r with events := (position, span.event) :: r.events } := by
  rcases h with ⟨hfault, hevents⟩ | ⟨front, closing, back, name, rfl, hclosing, hevents, hfault⟩
  · exact .inl ⟨hfault, by rw [placed, hevents]⟩
  · refine .inr ⟨span :: front, closing, back, name, rfl, hclosing, by rw [placed, hevents], ?_⟩
    rw [List.flatMap_cons, byteLength_append, ← Nat.add_assoc]
    exact hfault

theorem readsFrom_follow (items : List Item) (opened : List (List Char)) (position : Nat) :
    ReadsFrom position (items.map Item.span) (follow opened position items) := by
  induction items generalizing opened position with
  | nil => exact .inl ⟨rfl, rfl⟩
  | cons it items ih =>
    cases it with
    | text s line => exact (ih opened (position + byteLength (escape .content s))).cons
    | tag content line =>
      rw [follow, List.map_cons]
      rcases Xml.track_cases position opened (Xml.tagEvent content) with ⟨opened', htrack⟩ | ⟨name, hname, herror⟩
      · have hnext : position + byteLength content + 2 =
            position + byteLength (Item.tag content line).span.written := by
          rw [written_span, byteLength_render_tag, Nat.add_assoc]
        rw [htrack]
        dsimp only
        rw [hnext]
        exact (ih opened' _).cons
      · refine .inr ⟨[], _, _, name, rfl, hname, ?_, ?_⟩
        · rcases herror with herror | ⟨expected, -, herror⟩ <;> rw [herror] <;> rfl
        · rcases herror with herror | ⟨expected, hne, herror⟩
          · rw [herror]
            exact .inl rfl
          · rw [herror]
            exact .inr ⟨expected, hne, rfl⟩

theorem map_span_sourceItems (source : List Char) :
    (sourceItems source).map Item.span = paragraphSpans (tokenize documentRules source) := by
  have hwritten : (writtenItems source).map Item.span = _ := (spanned_joinItems (keeps_pieces source) 0).1
  rw [sourceItems, List.map_cons, List.map_append, hwritten]
  rfl

/-- The rendered paragraph is read as the tokens of its source. -/
theorem readsAs_render (source : List Char) :
    ReadsAs (render (tokenize documentRules source)) (paragraphSpans (tokenize documentRules source))
      (Xml.read (render (tokenize documentRules source))) := by
  have hreads := readsFrom_follow (sourceItems source) [] 0
  rw [← read_render, map_span_sourceItems] at hreads
  have hspelled : ∀ span ∈ paragraphSpans (tokenize documentRules source),
      Spells span.written span.event := by
    rw [← map_span_sourceItems]
    intro span hspan
    obtain ⟨it, hit, rfl⟩ := List.mem_map.1 hspan
    exact spells_span (sound_sourceItems source it hit)
  have hapart := (apart_sourceItems source).isChain_span
  rw [map_span_sourceItems] at hapart
  refine ⟨?_, hspelled, hapart, hreads, fun e he => ?_⟩
  · rw [← map_span_sourceItems, List.flatMap_map, ← render_sourceItems]
    simp only [written_span]
  · obtain ⟨span, hspan, heq⟩ := hreads.exists_span he
    rw [heq]
    exact (hspelled span hspan).plain

end TaggedProse
