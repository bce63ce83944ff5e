import TaggedProse.Proofs.Inline.Pieces
import TaggedProse.Proofs.Paragraph.Markup

/-! What stands in a paragraph, read off its source: stretches of text and tags, each with the line on
which it is written. Rendering writes these items down, and keeps their lines. -/
namespace TaggedProse
variable {c : Char} {s t : List Char}

inductive Item where
  /-- Text that begins on `line`. -/
  | text (s : List Char) (line : Nat)
  /-- A tag whose `<` stands on `line`, with what is between its brackets. -/
  | tag (content : List Char) (line : Nat)

/-- An image and a hard break count as tags. The break's newline is text. -/
def Token.items (line : Nat) : Token → List Item
  | .text s => [.text s line]
  | .markup source => [.tag source.tail.dropLast line]
  | .image url alt title => [.tag (imageContent url alt title) line]
  | .lineBreak => [.tag (breakTag.toList ++ ['/']) line, .text ['\n'] line]

def itemsFrom (line : Nat) : List Match → List Item
  | [] => []
  | m :: ms => m.token.items line ++ itemsFrom (line + newlines m.source) ms

def joinItems : List Item → List Item
  | [] => []
  | .text s line :: items =>
    match joinItems items with
    | .text s' _ :: rest => .text (s ++ s') line :: rest
    | rest => .text s line :: rest
  | it :: items => it :: joinItems items

def writtenItems (source : List Char) : List Item :=
  joinItems (itemsFrom 0 (pieces documentRules source))

def sourceItems (source : List Char) : List Item :=
  .tag paragraphTag.toList 0 :: (writtenItems source ++
    [.tag ('/' :: paragraphTag.toList) (newlines source)])

namespace Item

def line : Item → Nat
  | .text _ line | .tag _ line => line

def render : Item → List Char
  | .text s _ => escape .content s
  | .tag content _ => '<' :: content ++ ['>']

def Sound : Item → Prop
  | .text s _ => s ≠ []
  | .tag content _ => Xml.IsTag content

end Item

def Lined (n : Nat) : List Item → Prop
  | [] => True
  | it :: items => it.line = n ∧ Lined (n + newlines it.render) items

def TextLess (items : List Item) : Prop := ∀ s line rest, items ≠ .text s line :: rest

def Apart : List Item → Prop
  | [] => True
  | .text _ _ :: items => TextLess items ∧ Apart items
  | .tag _ _ :: items => Apart items

/-! ### Items of tokens -/

theorem render_image (url alt : List Char) (title : Option (List Char)) :
    (Token.image url alt title).render = '<' :: imageContent url alt title ++ ['>'] := by
  simp [Token.render, imageContent]

theorem content_of_brackets (content : List Char) : ('<' :: content ++ ['>']).tail.dropLast = content := by
  simp

theorem Token.sound_items {source : List Char} {token : Token} (h : token.Keeps source) (line : Nat) :
    ∀ it ∈ token.items line, it.Sound := by
  cases token with
  | text s => simpa [Token.items, Item.Sound] using h.1
  | markup source =>
    obtain ⟨-, content, rfl, hcontent⟩ := h
    simpa [Token.items, Item.Sound] using hcontent
  | image url alt title => simpa [Token.items, Item.Sound] using isTag_imageContent url alt title
  | lineBreak => simpa [Token.items, Item.Sound] using isTag_break

theorem Lined.append {n : Nat} {xs ys : List Item} (hx : Lined n xs)
    (hy : Lined (n + newlines (xs.flatMap Item.render)) ys) : Lined n (xs ++ ys) := by
  induction xs generalizing n with
  | nil => exact hy
  | cons it xs ih =>
    obtain ⟨hline, hrest⟩ := hx
    refine ⟨hline, ih hrest ?_⟩
    rwa [List.flatMap_cons, newlines_append, ← Nat.add_assoc] at hy

theorem newlines_items {source : List Char} {token : Token} (h : token.Keeps source) (line : Nat) :
    newlines ((token.items line).flatMap Item.render) = newlines source := by
  cases token with
  | text s => simpa [Token.items, Item.render, newlines_escape] using newlines_of_keeps_text h
  | markup source =>
    obtain ⟨rfl, content, rfl, -⟩ := h
    simp [Token.items, Item.render]
  | image url alt title =>
    obtain ⟨-, hsource, hurl, halt, htitle⟩ := h
    simp [Token.items, Item.render, newlines_cons, newlines_imageContent, hsource, hurl, halt, htitle]
  | lineBreak =>
    obtain ⟨front, rfl, hfront⟩ := h
    rw [newlines_append, hfront]
    rfl

/-- The items of a token are written as the token is. -/
theorem render_items {source : List Char} {token : Token} (h : token.Keeps source) (line : Nat) :
    (token.items line).flatMap Item.render = token.render := by
  cases token with
  | text s => exact List.append_nil _
  | markup source =>
    obtain ⟨rfl, content, rfl, -⟩ := h
    rw [Token.items, content_of_brackets]
    exact List.append_nil _
  | image url alt title =>
    rw [render_image]
    exact List.append_nil _
  | lineBreak => rfl

theorem newlines_render {source : List Char} {token : Token} (h : token.Keeps source) :
    newlines token.render = newlines source := by
  rw [← render_items h 0, newlines_items h]

theorem lined_items {source : List Char} {token : Token} (h : token.Keeps source) (line : Nat) :
    Lined line (token.items line) := by
  cases token with
  | lineBreak => exact ⟨rfl, rfl, trivial⟩
  | _ => exact ⟨rfl, trivial⟩

theorem lined_itemsFrom {ms : List Match} (h : ∀ m ∈ ms, m.token.Keeps m.source) (line : Nat) :
    Lined line (itemsFrom line ms) ∧
      newlines ((itemsFrom line ms).flatMap Item.render) = newlines (ms.flatMap Match.source) := by
  induction ms generalizing line with
  | nil => exact ⟨trivial, rfl⟩
  | cons m ms ih =>
    have hm := h m List.mem_cons_self
    obtain ⟨hlined, hnewlines⟩ :=
      ih (fun m' hm' => h m' (List.mem_cons_of_mem _ hm')) (line + newlines m.source)
    refine ⟨(lined_items hm line).append ?_, ?_⟩
    · rwa [newlines_items hm]
    · rw [itemsFrom, List.flatMap_append, newlines_append, newlines_items hm, hnewlines,
        List.flatMap_cons, newlines_append]

/-! ### Joining texts -/

theorem textLess_nil : TextLess [] := fun _ _ _ h => by cases h

theorem textLess_tag (content : List Char) (line : Nat) (items : List Item) :
    TextLess (.tag content line :: items) := fun _ _ _ h => by cases h

theorem joinItems_text (s : List Char) (line : Nat) (items : List Item) :
    (∃ s' line' rest, joinItems items = .text s' line' :: rest ∧
      joinItems (.text s line :: items) = .text (s ++ s') line :: rest) ∨
    (TextLess (joinItems items) ∧
      joinItems (.text s line :: items) = .text s line :: joinItems items) := by
  rw [joinItems]
  split
  · next s' line' rest heq => exact .inl ⟨s', line', rest, heq, rfl⟩
  · next hne => exact .inr ⟨fun s' line' rest heq => hne s' line' rest heq, rfl⟩

theorem sound_joinItems {items : List Item} (h : ∀ it ∈ items, it.Sound) :
    ∀ it ∈ joinItems items, it.Sound := by
  induction items with
  | nil => exact h
  | cons it items ih =>
    have hrest := ih fun it' hm => h it' (List.mem_cons_of_mem _ hm)
    have hit := h it List.mem_cons_self
    cases it with
    | tag content line =>
      intro it' hm
      rcases List.mem_cons.1 hm with rfl | hm
      · exact hit
      · exact hrest it' hm
    | text s line =>
      rcases joinItems_text s line items with ⟨s', line', rest, heq, hjoin⟩ | ⟨-, hjoin⟩
      · rw [hjoin]
        rw [heq] at hrest
        intro it' hm
        rcases List.mem_cons.1 hm with rfl | hm
        · exact List.append_ne_nil_of_left_ne_nil hit s'
        · exact hrest it' (List.mem_cons_of_mem _ hm)
      · rw [hjoin]
        intro it' hm
        rcases List.mem_cons.1 hm with rfl | hm
        · exact hit
        · exact hrest it' hm

theorem apart_joinItems (items : List Item) : Apart (joinItems items) := by
  induction items with
  | nil => trivial
  | cons it items ih =>
    cases it with
    | tag content line => exact ih
    | text s line =>
      rcases joinItems_text s line items with ⟨s', line', rest, heq, hjoin⟩ | ⟨htag, hjoin⟩
      · rw [heq] at ih
        rw [hjoin]
        exact ih
      · rw [hjoin]
        exact ⟨htag, ih⟩

theorem Lined.join {n : Nat} {items : List Item} (h : Lined n items) :
    Lined n (joinItems items) ∧ newlines ((joinItems items).flatMap Item.render) =
      newlines (items.flatMap Item.render) := by
  induction items generalizing n with
  | nil => exact ⟨h, rfl⟩
  | cons it items ih =>
    obtain ⟨hline, hrest⟩ := h
    obtain ⟨hlined, hnewlines⟩ := ih hrest
    cases it with
    | tag content line =>
      refine ⟨⟨hline, hlined⟩, ?_⟩
      rw [joinItems, List.flatMap_cons, List.flatMap_cons, newlines_append, newlines_append, hnewlines]
      exact fun _ _ h => by cases h
    | text s line =>
      have hline : line = n := hline
      rcases joinItems_text s line items with ⟨s', line', rest, heq, hjoin⟩ | ⟨-, hjoin⟩
      · rw [heq] at hlined hnewlines
        rw [hjoin]
        have hsplit : newlines (Item.text (s ++ s') line).render =
            newlines (Item.text s line).render + newlines (Item.text s' line').render := by
          simp [Item.render, newlines_escape]
        refine ⟨⟨hline, ?_⟩, ?_⟩
        · rw [hsplit, ← Nat.add_assoc]
          exact hlined.2
        · rw [List.flatMap_cons, newlines_append] at hnewlines ⊢
          rw [List.flatMap_cons, newlines_append, hsplit, ← hnewlines, Nat.add_assoc]
      · rw [hjoin]
        refine ⟨⟨hline, hlined⟩, ?_⟩
        rw [List.flatMap_cons, List.flatMap_cons, newlines_append, newlines_append, hnewlines]

/-! ### Rendering the items -/

def Written (items : List Item) (tokens : List Token) : Prop :=
  items.flatMap Item.render = tokens.flatMap Token.render ∧
    ((∃ s line items' tokens', items = .text s line :: items' ∧ tokens = .text s :: tokens' ∧
        items'.flatMap Item.render = tokens'.flatMap Token.render) ∨
      (TextLess items ∧ ∀ s rest, tokens ≠ .text s :: rest))

theorem Written.text {items : List Item} {tokens : List Token}
    (h : Written (joinItems items) (joinText tokens)) (s : List Char) (line : Nat) :
    Written (joinItems (.text s line :: items)) (joinText (.text s :: tokens)) := by
  obtain ⟨hrender, ⟨s', line', items', tokens', hitems, htokens, hrest⟩ | ⟨hitems, htokens⟩⟩ := h
  · rcases joinItems_text s line items with ⟨s₁, line₁, rest₁, heq₁, hjoin₁⟩ | ⟨hno, -⟩
    · rcases joinText_text s tokens with ⟨s₂, rest₂, heq₂, hjoin₂⟩ | ⟨hno, -⟩
      · rw [hitems] at heq₁
        rw [htokens] at heq₂
        cases heq₁
        cases heq₂
        rw [hjoin₁, hjoin₂]
        refine ⟨?_, .inl ⟨_, line, items', tokens', rfl, rfl, hrest⟩⟩
        rw [List.flatMap_cons, List.flatMap_cons, hrest]
        rfl
      · exact absurd htokens (hno s' tokens')
    · exact absurd hitems (hno s' line' items')
  · rcases joinItems_text s line items with ⟨s₁, line₁, rest₁, heq₁, -⟩ | ⟨-, hjoin₁⟩
    · exact absurd heq₁ (hitems s₁ line₁ rest₁)
    · rcases joinText_text s tokens with ⟨s₂, rest₂, heq₂, -⟩ | ⟨-, hjoin₂⟩
      · exact absurd heq₂ (htokens s₂ rest₂)
      · rw [hjoin₁, hjoin₂]
        refine ⟨?_, .inl ⟨_, line, _, _, rfl, rfl, hrender⟩⟩
        rw [List.flatMap_cons, List.flatMap_cons, hrender]
        rfl

theorem Written.tag {items : List Item} {tokens : List Token} {token : Token} {content : List Char}
    (h : Written items tokens) (htoken : ∀ s, token ≠ .text s)
    (hrender : token.render = '<' :: content ++ ['>']) (line : Nat) :
    Written (.tag content line :: items) (token :: tokens) := by
  refine ⟨?_, .inr ⟨textLess_tag _ _ _, fun s rest heq => ?_⟩⟩
  · rw [List.flatMap_cons, List.flatMap_cons, h.1, hrender]
    rfl
  · exact htoken s (List.cons.inj heq).1

/-- After a hard break the newline goes with the text that follows it. -/
theorem render_joinItems_newline {items : List Item} (line : Nat) :
    (joinItems (.text ['\n'] line :: items)).flatMap Item.render =
      '\n' :: (joinItems items).flatMap Item.render := by
  have hescape : ∀ s, escape .content ('\n' :: s) = '\n' :: escape .content s := fun _ => rfl
  rcases joinItems_text ['\n'] line items with ⟨s', line', rest, heq, hjoin⟩ | ⟨-, hjoin⟩
  · rw [hjoin, heq, List.flatMap_cons, List.flatMap_cons]
    simp only [Item.render, hescape, List.cons_append, List.nil_append]
  · rw [hjoin, List.flatMap_cons]
    rfl

theorem written_joinItems {ms : List Match} (h : ∀ m ∈ ms, m.token.Keeps m.source) (line : Nat) :
    Written (joinItems (itemsFrom line ms)) (joinText (ms.map Match.token)) := by
  induction ms generalizing line with
  | nil => exact ⟨rfl, .inr ⟨textLess_nil, fun _ _ heq => by cases heq⟩⟩
  | cons m ms ih =>
    have hrest := ih (fun m' hm' => h m' (List.mem_cons_of_mem _ hm')) (line + newlines m.source)
    have hm := h m List.mem_cons_self
    rw [itemsFrom, List.map_cons]
    cases htoken : m.token with
    | text s => exact hrest.text s line
    | markup source =>
      rw [htoken] at hm
      obtain ⟨-, content, rfl, -⟩ := hm
      rw [Token.items, content_of_brackets]
      exact hrest.tag (fun s heq => by cases heq) rfl line
    | image url alt title =>
      exact hrest.tag (fun s heq => by cases heq) (render_image url alt title) line
    | lineBreak =>
      refine ⟨?_, .inr ⟨textLess_tag _ _ _, fun _ _ heq => by cases heq⟩⟩
      change Item.render _ ++ (joinItems (.text ['\n'] line :: itemsFrom _ ms)).flatMap Item.render = _
      rw [render_joinItems_newline, hrest.1]
      rfl

variable {source : List Char}

theorem keeps_pieces (source : List Char) :
    ∀ m ∈ pieces documentRules source, m.token.Keeps m.source :=
  fun _ => keeps_of_mem_pieces isLiteral_of_mem_documentRules

/-- The items make up the paragraph's element. -/
theorem render_sourceItems (source : List Char) :
    (sourceItems source).flatMap Item.render = render (tokenize documentRules source) := by
  rw [sourceItems, writtenItems, List.flatMap_cons, List.flatMap_append,
    (written_joinItems (keeps_pieces source) 0).1]
  simp [Item.render, render, tokenize]

theorem sound_sourceItems (source : List Char) : ∀ it ∈ sourceItems source, it.Sound := by
  have hpieces : ∀ (ms : List Match) (line : Nat), (∀ m ∈ ms, m.token.Keeps m.source) →
      ∀ it ∈ itemsFrom line ms, it.Sound := by
    intro ms
    induction ms with
    | nil => intro line _ it hit; cases hit
    | cons m ms ih =>
      intro line h it hit
      rcases List.mem_append.1 hit with hit | hit
      · exact Token.sound_items (h m List.mem_cons_self) line it hit
      · exact ih _ (fun m' hm' => h m' (List.mem_cons_of_mem _ hm')) it hit
  intro it hit
  rw [sourceItems, List.mem_cons, List.mem_append, List.mem_singleton] at hit
  rcases hit with rfl | hit | rfl
  · exact isTag_paragraph
  · exact sound_joinItems (hpieces _ 0 (keeps_pieces source)) it hit
  · exact isTag_closing_paragraph

theorem Apart.append_tag {items : List Item} (h : Apart items) (content : List Char) (line : Nat) :
    Apart (items ++ [.tag content line]) := by
  induction items with
  | nil => trivial
  | cons it items ih =>
    cases it with
    | tag content line => exact ih h
    | text s line =>
      refine ⟨?_, ih h.2⟩
      intro s' line' rest heq
      cases items with
      | nil => cases heq
      | cons it' items =>
        obtain ⟨rfl, -⟩ := List.cons.inj heq
        exact h.1 s' line' items rfl

theorem apart_sourceItems (source : List Char) : Apart (sourceItems source) :=
  (apart_joinItems _).append_tag _ _

theorem newlines_opening_paragraph : newlines (Item.tag paragraphTag.toList 0).render = 0 := by decide

theorem lined_writtenItems (source : List Char) : Lined 0 (writtenItems source) :=
  (lined_itemsFrom (keeps_pieces source) 0).1.join.1

theorem newlines_writtenItems (source : List Char) :
    newlines ((writtenItems source).flatMap Item.render) = newlines source := by
  obtain ⟨hlined, hnewlines⟩ := lined_itemsFrom (keeps_pieces source) 0
  rw [writtenItems, hlined.join.2, hnewlines, flatMap_source_pieces]

/-- The items stand in the rendered element on the lines on which they are written. -/
theorem lined_sourceItems (source : List Char) : Lined 0 (sourceItems source) := by
  refine ⟨rfl, ?_⟩
  rw [newlines_opening_paragraph, Nat.zero_add]
  refine (lined_writtenItems source).append ⟨?_, trivial⟩
  rw [Nat.zero_add, newlines_writtenItems]
  rfl

end TaggedProse
