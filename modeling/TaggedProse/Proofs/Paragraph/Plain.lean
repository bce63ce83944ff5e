import TaggedProse.Proofs.Assembly.Prose
import TaggedProse.Proofs.Document.Outcome
import TaggedProse.Proofs.Inline.Plain
import TaggedProse.Proofs.Text.Dereferencing

/-! A paragraph of plain prose becomes one command: its text is what the tokens of the prose make up. -/
namespace TaggedProse
variable {schema : Schema} {s : List Char} {line n : Nat} {items : List Item} {it : Item} {p : Prose}
  {ms : List Match} {l : Ledger}

/-- What an item adds to the prose of a paragraph; its only tags are those of hard breaks. -/
def Item.addTo (p : Prose) : Item → Prose
  | .text s line => p.write s line
  | .tag _ _ => p.lineBreak

def Item.IsPlain : Item → Prop
  | .text s _ => s ≠ [] ∧ Plain s
  | .tag content _ => content = breakTag.toList ++ ['/']

def Match.IsPlain (m : Match) : Prop :=
  (m.token = .text m.source ∧ m.source ≠ [] ∧ Plain m.source) ∨ (m.token = .lineBreak ∧ allBlank m.source = true)

/-! ### Pieces and items -/

theorem isPlain_nextPiece {c : Char} (h : Plain (c :: s)) : (nextPiece documentRules c s).IsPlain := by
  obtain ⟨hcover, hne⟩ := append_nextPiece documentRules c s
  have hsource : Plain (nextPiece documentRules c s).source := by
    rw [← hcover] at h
    exact (List.forall_mem_append.1 h).1
  rcases nextPiece_cases isLiteral_of_mem_documentRules c s with hbreak | ⟨-, hchar | hprose⟩
  · rw [findSome?_plain (h c List.mem_cons_self)] at hbreak
    obtain ⟨rest, hrest, hmatch⟩ := Option.map_eq_some_iff.1 hbreak
    obtain ⟨front, hfront, hnone⟩ := exists_of_afterSpacedNewline? hrest
    have hbefore : before (c :: s) rest ++ rest = (front ++ ['\n']) ++ rest := by
      rw [before_append (Rule.suffix_of_afterSpacedNewline? hrest), hfront, List.append_assoc]
      rfl
    rw [hfront] at hrest
    obtain ⟨-, hblank, -⟩ := of_afterSpacedNewline? hnone hrest
    rw [← hmatch]
    refine .inr ⟨rfl, ?_⟩
    rw [List.append_cancel_right hbefore, allBlank, List.all_append, Bool.and_eq_true]
    exact ⟨hblank, rfl⟩
  · exact .inl ⟨by rw [hchar], hne, hsource⟩
  · exact .inl ⟨by rw [hprose], hne, hsource⟩

theorem isPlain_of_mem_pieces {m : Match} (h : Plain s) (hm : m ∈ pieces documentRules s) : m.IsPlain := by
  fun_induction pieces documentRules s with
  | case1 => cases hm
  | case2 c s first ih =>
    rcases List.mem_cons.1 hm with rfl | hm
    · exact isPlain_nextPiece h
    · rw [← (append_nextPiece documentRules c s).1] at h
      exact ih (List.forall_mem_append.1 h).2 hm

theorem isPlain_of_mem_itemsFrom (h : ∀ m ∈ ms, m.IsPlain) (hit : it ∈ itemsFrom line ms) : it.IsPlain := by
  induction ms generalizing line with
  | nil => cases hit
  | cons m ms ih =>
    obtain ⟨hm, hms⟩ := List.forall_mem_cons.1 h
    rcases List.mem_append.1 hit with hit | hit
    · rcases hm with ⟨htoken, hne, hplain⟩ | ⟨htoken, -⟩
      · rw [htoken] at hit
        obtain rfl := List.mem_singleton.1 hit
        exact ⟨hne, hplain⟩
      · rw [htoken] at hit
        rcases List.mem_cons.1 hit with rfl | hit
        · rfl
        · obtain rfl := List.mem_singleton.1 hit
          exact ⟨by simp, by simp [Plain, isMarkupChar]⟩
    · exact ih hms hit

theorem isPlain_joinItems (h : ∀ it ∈ items, it.IsPlain) : ∀ it ∈ joinItems items, it.IsPlain := by
  induction items with
  | nil => exact h
  | cons it items ih =>
    obtain ⟨hit, hitems⟩ := List.forall_mem_cons.1 h
    have hrest := ih hitems
    cases it with
    | tag content line => exact List.forall_mem_cons.2 ⟨hit, hrest⟩
    | text s line =>
      rcases joinItems_text s line items with ⟨s', line', rest, heq, hjoin⟩ | ⟨-, hjoin⟩
      · rw [heq] at hrest
        rw [hjoin]
        obtain ⟨hfirst, hrest⟩ := List.forall_mem_cons.1 hrest
        exact List.forall_mem_cons.2 ⟨⟨List.append_ne_nil_of_left_ne_nil hit.1 s',
          List.forall_mem_append.2 ⟨hit.2, hfirst.2⟩⟩, hrest⟩
      · rw [hjoin]
        exact List.forall_mem_cons.2 ⟨hit, hrest⟩

theorem foldl_addTo_joinItems (h : Lined n items) (p : Prose) :
    (joinItems items).foldl Item.addTo p = items.foldl Item.addTo p := by
  induction items generalizing n p with
  | nil => rfl
  | cons it items ih =>
    obtain ⟨hline, hrest⟩ := h
    cases it with
    | tag content line => exact ih hrest _
    | text s line =>
      obtain ⟨hlined, -⟩ := hrest.join
      rw [List.foldl_cons, ← ih hrest]
      rcases joinItems_text s line items with ⟨s', line', rest, heq, hjoin⟩ | ⟨-, hjoin⟩
      · rw [heq] at hlined
        have hnext : line' = line + newlines s := by
          have hfirst : line' = n + newlines (escape .content s) := hlined.1
          have hline : line = n := hline
          rw [hfirst, newlines_escape, hline]
        rw [hjoin, heq, List.foldl_cons, List.foldl_cons]
        simp only [Item.addTo, Prose.write_append, hnext]
      · rw [hjoin, List.foldl_cons]

theorem passage_foldl_items (h : ∀ m ∈ ms, m.IsPlain) (line : Nat) (p : Prose) :
    ((itemsFrom line ms).foldl Item.addTo p).passage = (ms.map Match.token).foldl Token.addTo p.passage := by
  induction ms generalizing line p with
  | nil => rfl
  | cons m ms ih =>
    obtain ⟨hm, hms⟩ := List.forall_mem_cons.1 h
    rw [itemsFrom, List.foldl_append, ih hms, List.map_cons, List.foldl_cons]
    rcases hm with ⟨htoken, -⟩ | ⟨htoken, -⟩
    · rw [htoken]
      rfl
    · rw [htoken]
      rfl

theorem firstLine_foldl_items (h : ∀ m ∈ ms, m.IsPlain) (line : Nat) (p : Prose) :
    ((itemsFrom line ms).foldl Item.addTo p).firstLine =
      p.firstLine.or (visibleLine? line (ms.flatMap Match.source)) := by
  induction ms generalizing line p with
  | nil => simp [itemsFrom, visibleLine?]
  | cons m ms ih =>
    obtain ⟨hm, hms⟩ := List.forall_mem_cons.1 h
    rw [itemsFrom, List.foldl_append, ih hms, List.flatMap_cons, visibleLine?_append, ← Option.or_assoc]
    congr 1
    rcases hm with ⟨htoken, -⟩ | ⟨htoken, hblank⟩
    · rw [htoken]
      rfl
    · rw [htoken, visibleLine?_eq_none.2 hblank, Option.or_none]
      change p.firstLine.or (visibleLine? line ['\n']) = _
      rw [visibleLine?_eq_none.2 (by decide), Option.or_none]

/-! ### Taking them -/

def proseOnly (l : Ledger) (prose : Option Prose) : Assembly :=
  { frames := [⟨paragraphTag, 0, false, .paragraph prose []⟩], ledger := l }

/-- Without references, text is decoded to itself. -/
theorem decode_plain (h : Plain s) : Xml.decode (escape .content s) = .ok s := by
  have hamp : '&' ∉ s := fun hmem => by cases h '&' hmem
  have hnone := not_refers_of_not_mem hamp
  rw [decode_escape fun name hname => absurd hname (hnone name), dereferenced_of_not_refers hnone]

theorem take_text {d : List Char} (hs : s ≠ []) (hd : Xml.decode (escape .content s) = .ok d) (line : Nat)
    (opened : List (List Char)) (l : Ledger) (prose : Option Prose) :
    (Item.text s line).take schema ⟨opened, proseOnly l prose⟩ =
      .ok ⟨opened, proseOnly l (some ((prose.getD {}).write d line))⟩ := by
  have hglyphs := map_part_glyphs s line 0 hd
  have hne : d ≠ [] := by
    rintro rfl
    exact glyphs_ne_nil hs line 0 (List.map_eq_nil_iff.1 hglyphs)
  have hrun := Assembly.run_textParts schema d hne line (proseOnly l prose)
  rw [Item.take, Item.opened, Item.parts, hd, hglyphs, Nat.add_zero]
  dsimp only
  rw [hrun]
  rfl

theorem parts_break (line : Nat) : (Item.tag (breakTag.toList ++ ['/']) line).parts =
    .ok [.opening breakTag [] line, .closing breakTag line] := by
  with_unfolding_all rfl

theorem take_plain (h : it.IsPlain) (opened : List (List Char)) (l : Ledger) (prose : Option Prose) :
    it.take schema ⟨opened, proseOnly l prose⟩ =
      .ok ⟨opened, proseOnly l (some (it.addTo (prose.getD {})))⟩ := by
  cases it with
  | text s line => exact take_text h.1 (decode_plain h.2) line opened l prose
  | tag content line =>
    obtain rfl : content = breakTag.toList ++ ['/'] := h
    have hopened : (Item.tag (breakTag.toList ++ ['/']) line).opened opened = .ok opened := by
      with_unfolding_all rfl
    rw [Item.take, hopened, parts_break]
    rfl

theorem takeAll_plain (h : ∀ it ∈ items, it.IsPlain) (hne : items ≠ []) (opened : List (List Char)) (l : Ledger)
    (prose : Option Prose) :
    takeAll schema items ⟨opened, proseOnly l prose⟩ =
      .ok ⟨opened, proseOnly l (some (items.foldl Item.addTo (prose.getD {})))⟩ := by
  induction items generalizing prose with
  | nil => exact absurd rfl hne
  | cons it items ih =>
    obtain ⟨hit, hitems⟩ := List.forall_mem_cons.1 h
    rw [takeAll, take_plain hit]
    by_cases hlast : items = []
    · rw [hlast]
      rfl
    · exact ih hitems hlast _

/-! ### The prose of a run of lines -/

theorem Prose.Begun.addTo (h : p.Begun) (it : Item) : (it.addTo p).Begun := by
  cases it with
  | text s line => exact h.write s line
  | tag content line => exact h.lineBreak

theorem begun_foldl (items : List Item) : (items.foldl Item.addTo {}).Begun := by
  have hall : ∀ p : Prose, p.Begun → (items.foldl Item.addTo p).Begun := by
    induction items with
    | nil => exact fun _ h => h
    | cons it items ih => exact fun p h => ih _ (h.addTo it)
  exact hall {} Prose.begun_empty

def plainProse (source : List Char) : Prose := (writtenItems source).foldl Item.addTo {}

theorem plainProse_eq (source : List Char) :
    plainProse source = (itemsFrom 0 (pieces documentRules source)).foldl Item.addTo {} :=
  foldl_addTo_joinItems (lined_itemsFrom (keeps_pieces source) 0).1 {}

theorem passage_plainProse (h : Plain s) :
    (plainProse s).passage = (tokensByPosition documentRules 0 s).foldl Token.addTo {} := by
  rw [plainProse_eq, passage_foldl_items fun m => isPlain_of_mem_pieces h, ← foldl_addTo_joinText,
    joinText_pieces isLiteral_of_mem_documentRules, foldl_addTo_joinText]

theorem firstLine_plainProse (h : Plain s) : (plainProse s).firstLine = visibleLine? 0 s := by
  rw [plainProse_eq, firstLine_foldl_items fun m => isPlain_of_mem_pieces h, flatMap_source_pieces]
  rfl

theorem text_plainProse {ls : List (List Char)} (hne : ls ≠ []) (hls : ∀ l ∈ ls, newlines l = 0)
    (hp : ∀ l ∈ ls, Plain l) (hs : Plain (lineContent (joinWith '\n' ls))) :
    (plainProse (lineContent (joinWith '\n' ls))).text =
      String.ofList (joinWith '\n' ((hardPieces ls).map squeeze)) := by
  have hpieces := map_squeeze_pieces hne hls hp {}
  obtain ⟨piece, pieces, hhard⟩ := List.exists_cons_of_ne_nil (hardPieces_ne_nil ls)
  rw [Prose.text, passage_plainProse hs, Passage.text, Passage.chars, hpieces, hhard]
  rfl

/-! ### The command of a paragraph -/

theorem takeAll_append {others : List Item} {g g' : Progress} (h : takeAll schema items g = .ok g') :
    takeAll schema (items ++ others) g = takeAll schema others g' := by
  induction items generalizing g with
  | nil => cases h; rfl
  | cons it items ih =>
    rw [takeAll] at h
    rw [List.cons_append, takeAll]
    split at h
    · cases h
    · exact ih h

theorem take_opening_proseOnly (schema : Schema) (l : Ledger) :
    (Item.tag paragraphTag.toList 0).take schema (start l) = .ok ⟨[paragraphTag.toList], proseOnly l none⟩ := by
  have hopened : (Item.tag paragraphTag.toList 0).opened [] = .ok [paragraphTag.toList] := by rfl
  unfold Item.take start
  rw [hopened, parts_opening_paragraph]
  rfl

theorem proseCommand_visible {field : String} (hfield : schema.root.prose? = some field)
    (hvisible : p.isBlank = false) (l : Ledger) :
    proseCommand schema (some p) l = (.ok [⟨field, .text l.next p.text⟩], l.note (p.firstLine.getD 0)) := by
  simp [proseCommand, hvisible, hfield]

theorem take_closing_paragraph {prose : Option Prose} {commands last : List Command} {l' : Ledger}
    (hflush : proseCommand schema prose l = (.ok last, l')) (line : Nat) :
    (Item.tag ('/' :: paragraphTag.toList) line).take schema ⟨[paragraphTag.toList],
        { frames := [⟨paragraphTag, 0, false, .paragraph prose commands⟩], ledger := l }⟩ =
      .ok ⟨[], { commands := commands ++ last, closed := true, ledger := l' }⟩ := by
  have hopened : (Item.tag ('/' :: paragraphTag.toList) line).opened [paragraphTag.toList] = .ok [] := by rfl
  rw [Item.take, hopened, parts_closing_paragraph]
  simp only [Assembly.run, Assembly.step, Assembly.closeElement, Body.close, hflush]
  rfl

theorem take_closing_proseOnly {prose : Option Prose} {commands : List Command} {l' : Ledger}
    (hflush : proseCommand schema prose l = (.ok commands, l')) (line : Nat) :
    (Item.tag ('/' :: paragraphTag.toList) line).take schema ⟨[paragraphTag.toList], proseOnly l prose⟩ =
      .ok ⟨[], { commands, closed := true, ledger := l' }⟩ := by
  rw [proseOnly, take_closing_paragraph hflush, List.nil_append]

/-- A paragraph of plain prose is one command; its line is that of the first visible character. -/
theorem takeAll_sourceItems_plain {field : String} {n : Nat} (hfield : schema.root.prose? = some field)
    (h : Plain s) (hn : visibleLine? 0 s = some n) (l : Ledger) :
    takeAll schema (sourceItems s) (start l) =
      .ok ⟨[], { commands := [⟨field, .text l.next (plainProse s).text⟩], closed := true, ledger := l.note n }⟩ := by
  have hfirst : (plainProse s).firstLine = some n := (firstLine_plainProse h).trans hn
  have hvisible : (plainProse s).isBlank = false := by
    have hbegun : (plainProse s).Begun := begun_foldl _
    rw [Bool.eq_false_iff]
    intro hblank
    rw [hbegun.1 hblank] at hfirst
    cases hfirst
  have hplain : ∀ it ∈ writtenItems s, it.IsPlain :=
    isPlain_joinItems fun _ => isPlain_of_mem_itemsFrom fun _ => isPlain_of_mem_pieces h
  have hne : writtenItems s ≠ [] := by
    intro hnil
    rw [plainProse, hnil] at hfirst
    cases hfirst
  rw [sourceItems, takeAll, take_opening_proseOnly]
  dsimp only
  rw [takeAll_append (takeAll_plain hplain hne _ l none), takeAll,
    show (writtenItems s).foldl Item.addTo ((none : Option Prose).getD {}) = plainProse s from rfl,
    take_closing_proseOnly (proseCommand_visible hfield hvisible l), hfirst]
  rfl

end TaggedProse
