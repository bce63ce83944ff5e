import TaggedProse.Proofs.Paragraph.Items
import TaggedProse.Proofs.Text.Glyph

/-! Where the items of a paragraph, and the characters of its texts, are written in its source. -/
namespace TaggedProse
variable {source rest content s : List Char} {line n carried : Nat} {items : List Item} {it : Item}
  {g : Glyph} {p q : List Char → Prop}

/-- On line `n` of the source begins a text such as `p` tells. -/
def StandsOn (source : List Char) (n : Nat) (p : List Char → Prop) : Prop :=
  ∃ before after, source = before ++ after ∧ newlines before = n ∧ p after

def Begins (c : Char) (s : List Char) : Prop := ∃ rest, s = c :: rest ∨ s = '\\' :: c :: rest

/-- The text begins with what stands for a tag: the tag itself, an image, or a hard line break. -/
def BeginsTag (content s : List Char) : Prop :=
  (∃ rest, s = '<' :: content ++ '>' :: rest) ∨
    (∃ url alt title rest, content = imageContent url alt title ∧ s = '!' :: rest) ∨
    ∃ front rest, content = breakTag.toList ++ ['/'] ∧ s = front ++ '\n' :: rest ∧ newlines front = 0

/-- A tag is written on its line, and each character of a text on the line that it has in the text. -/
def Item.StandsIn (source : List Char) : Item → Prop
  | .text s line => ∀ front c back, s = front ++ c :: back →
    StandsOn source (line + newlines front) (Begins c)
  | .tag content line => StandsOn source line (BeginsTag content)

def Glyph.StandsIn (source : List Char) (g : Glyph) : Prop :=
  StandsOn source g.line fun s => Begins g.char s ∨ Begins '&' s

theorem StandsOn.imp (h : StandsOn source n p) (hpq : ∀ s, p s → q s) : StandsOn source n q := by
  obtain ⟨before, after, hsource, hn, hp⟩ := h
  exact ⟨before, after, hsource, hn, hpq after hp⟩

theorem StandsOn.le (h : StandsOn source n p) : n ≤ newlines source := by
  obtain ⟨before, after, rfl, rfl, -⟩ := h
  rw [newlines_append]
  exact Nat.le_add_right _ _

/-! ### Items -/

theorem standsIn_of_mem_items {token : Token} {written before : List Char} (h : token.Keeps written)
    (hit : it ∈ token.items (newlines before)) : it.StandsIn (before ++ (written ++ rest)) := by
  cases token with
  | text s =>
    obtain rfl := List.mem_singleton.1 hit
    rintro front c back rfl
    obtain ⟨-, rfl | ⟨d, -, hd, rfl⟩⟩ := h
    · exact ⟨before ++ front, c :: back ++ rest, by simp, newlines_append _ _, back ++ rest, .inl rfl⟩
    · obtain ⟨rfl, hnil⟩ := List.append_eq_singleton_iff.1 hd |>.resolve_right (by simp)
      cases hnil
      exact ⟨before, _, rfl, rfl, rest, .inr rfl⟩
  | markup t =>
    obtain rfl := List.mem_singleton.1 hit
    obtain ⟨rfl, content, rfl, -⟩ := h
    rw [content_of_brackets]
    exact ⟨before, _, rfl, rfl, .inl ⟨rest, by simp⟩⟩
  | image url alt title =>
    obtain rfl := List.mem_singleton.1 hit
    obtain ⟨⟨back, rfl⟩, -⟩ := h
    exact ⟨before, _, rfl, rfl, .inr (.inl ⟨url, alt, title, back ++ rest, rfl, rfl⟩)⟩
  | lineBreak =>
    obtain ⟨front, rfl, hfront⟩ := h
    rcases List.mem_cons.1 hit with rfl | hit
    · exact ⟨before, _, rfl, rfl, .inr (.inr ⟨front, rest, rfl, by simp, hfront⟩)⟩
    · obtain rfl := List.mem_singleton.1 hit
      intro front' c back hsplit
      obtain ⟨rfl, hc⟩ := List.append_eq_singleton_iff.1 hsplit.symm |>.resolve_right (by simp)
      cases hc
      exact ⟨before ++ front, '\n' :: rest, by simp, by simp [hfront], rest, .inl rfl⟩

theorem standsIn_of_mem_itemsFrom {ms : List Match} (before : List Char)
    (h : ∀ m ∈ ms, m.token.Keeps m.source) (hit : it ∈ itemsFrom (newlines before) ms) :
    it.StandsIn (before ++ ms.flatMap Match.source) := by
  induction ms generalizing before with
  | nil => cases hit
  | cons m ms ih =>
    rw [List.flatMap_cons]
    rcases List.mem_append.1 hit with hit | hit
    · exact standsIn_of_mem_items (h m List.mem_cons_self) hit
    · rw [← newlines_append] at hit
      have hrest := ih (before ++ m.source) (fun m' hm' => h m' (List.mem_cons_of_mem _ hm')) hit
      rwa [List.append_assoc] at hrest

theorem Item.StandsIn.append {s' : List Char} (h : (Item.text s line).StandsIn source)
    (h' : (Item.text s' (line + newlines s)).StandsIn source) :
    (Item.text (s ++ s') line).StandsIn source := by
  intro front c back hsplit
  rcases List.append_eq_append_iff.1 hsplit with ⟨t, rfl, hs'⟩ | ⟨t, rfl, ht⟩
  · rw [newlines_append, ← Nat.add_assoc]
    exact h' t c back hs'
  · cases t with
    | nil =>
      rw [List.append_nil] at h'
      exact h' [] c back ht.symm
    | cons d t =>
      obtain ⟨rfl, -⟩ := List.cons.inj ht
      exact h front c t rfl

theorem standsIn_of_mem_joinItems (hl : Lined n items) (h : ∀ it ∈ items, it.StandsIn source) :
    ∀ it ∈ joinItems items, it.StandsIn source := by
  induction items generalizing n with
  | nil => exact h
  | cons it items ih =>
    obtain ⟨rfl, hrest⟩ := hl
    have hit := h it List.mem_cons_self
    have hitems := ih hrest fun it' hm => h it' (List.mem_cons_of_mem _ hm)
    cases it with
    | tag content line =>
      intro it' hm
      rcases List.mem_cons.1 hm with rfl | hm
      · exact hit
      · exact hitems it' hm
    | text s line =>
      rcases joinItems_text s line items with ⟨s', line', rest, heq, hjoin⟩ | ⟨-, hjoin⟩
      · have hline := hrest.join.1
        rw [heq] at hline hitems
        obtain ⟨hline, -⟩ := hline
        rw [Item.line, Item.line, Item.render, newlines_escape] at hline
        subst hline
        rw [hjoin]
        intro it' hm
        rcases List.mem_cons.1 hm with rfl | hm
        · exact hit.append (hitems _ List.mem_cons_self)
        · exact hitems it' (List.mem_cons_of_mem _ hm)
      · rw [hjoin]
        intro it' hm
        rcases List.mem_cons.1 hm with rfl | hm
        · exact hit
        · exact hitems it' hm

theorem standsIn_of_mem_writtenItems (h : it ∈ writtenItems source) : it.StandsIn source := by
  have hpieces : ∀ it ∈ itemsFrom 0 (pieces documentRules source), it.StandsIn source := by
    intro it hit
    have hstands := standsIn_of_mem_itemsFrom [] (keeps_pieces source) hit
    rwa [List.nil_append, flatMap_source_pieces] at hstands
  exact standsIn_of_mem_joinItems (lined_itemsFrom (keeps_pieces source) 0).1 hpieces it h

theorem mem_sourceItems : it ∈ sourceItems source ↔ it = .tag paragraphTag.toList 0 ∨
    it ∈ writtenItems source ∨ it = .tag ('/' :: paragraphTag.toList) (newlines source) := by
  rw [sourceItems, List.mem_cons, List.mem_append, List.mem_singleton]

theorem line_le_of_mem_sourceItems (h : it ∈ sourceItems source) : it.line ≤ newlines source := by
  rcases mem_sourceItems.1 h with rfl | hwritten | rfl
  · exact Nat.zero_le _
  · have hstands := standsIn_of_mem_writtenItems hwritten
    cases it with
    | tag content line => exact hstands.le
    | text s line =>
      obtain ⟨c, s, rfl⟩ := List.exists_cons_of_ne_nil (sound_sourceItems source _ h)
      exact (hstands [] c s rfl).le
  · exact Nat.le_refl _

/-! ### Characters -/

def Item.characters : Item → List Glyph
  | .text s line => glyphs line 0 s
  | .tag _ _ => []

def sourceGlyphs (source : List Char) : List Glyph := (writtenItems source).flatMap Item.characters

theorem exists_of_mem_glyphs (h : g ∈ glyphs line carried s) :
    ∃ front c back, s = front ++ c :: back ∧ g.line = line + newlines front ∧ (c = g.char ∨ c = '&') := by
  fun_induction glyphs line carried s with
  | case1 => cases h
  | case2 line carried c s href ih =>
    rcases List.mem_cons.1 h with rfl | h
    · exact ⟨[], c, s, rfl, rfl, .inr href.1⟩
    · obtain ⟨name, rest, rfl, hname⟩ := exists_of_completesReference href.2
      have hplain := isDelimiter_of_isReferenceName hname
      have hnewlines : newlines name = 0 := newlines_eq_zero fun c hc => by
        rintro rfl
        cases hplain _ hc
      rw [(span_semicolon hplain rest).2] at ih h
      obtain ⟨front, d, back, hsplit, hline, hd⟩ := ih h
      rw [List.tail_cons] at hsplit
      refine ⟨c :: (name ++ ';' :: front), d, back, by simp [hsplit], ?_, hd⟩
      rw [hline, href.1, newlines_cons_of_ne (by decide), newlines_append, hnewlines,
        newlines_cons_of_ne (by decide), Nat.zero_add]
  | case3 line carried c s hliteral ih =>
    rcases List.mem_cons.1 h with rfl | h
    · exact ⟨[], c, s, rfl, rfl, .inl rfl⟩
    · obtain ⟨front, d, back, rfl, hline, hd⟩ := ih h
      refine ⟨c :: front, d, back, rfl, ?_, hd⟩
      rw [hline, Nat.add_assoc, ← newlines_append, List.singleton_append]

theorem standsIn_of_mem_sourceGlyphs (h : g ∈ sourceGlyphs source) : g.StandsIn source := by
  obtain ⟨it, hit, hg⟩ := List.mem_flatMap.1 h
  cases it with
  | tag content line => cases hg
  | text s line =>
    obtain ⟨front, c, back, hsplit, hline, hc⟩ := exists_of_mem_glyphs hg
    rw [Glyph.StandsIn, hline]
    refine (standsIn_of_mem_writtenItems hit front c back hsplit).imp fun s hs => ?_
    rcases hc with rfl | rfl
    · exact .inl hs
    · exact .inr hs

theorem glyphs_sourceItems (source : List Char) :
    (sourceItems source).flatMap Item.characters = sourceGlyphs source := by
  simp [sourceItems, sourceGlyphs, Item.characters]

end TaggedProse
