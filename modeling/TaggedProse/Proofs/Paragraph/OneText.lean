import TaggedProse.Proofs.Paragraph.Plain
import TaggedProse.Proofs.Paragraph.Spans

/-! A paragraph in which the lexer finds one text and nothing else. What becomes of it depends only on what the text
is decoded to. -/
namespace TaggedProse
variable {schema : Schema} {source s d : List Char} {field : String} {p : Paragraph}

def proseCommands (field : String) (l : Ledger) (d : List Char) : List Command :=
  if allBlank d then [] else [⟨field, .text l.next (String.ofList (squeeze d))⟩]

theorem writtenItems_oneText (h : tokenize documentRules source = [.text s]) :
    writtenItems source = [.text s 0] := by
  have hspanned := spanned_joinItems (keeps_pieces source) 0
  have hlined := lined_writtenItems source
  change Spanned (writtenItems source) (tokenize documentRules source) at hspanned
  rw [h] at hspanned
  obtain ⟨-, ⟨s', line, items, ts, hitems, htokens, hspans⟩ | ⟨-, hnone⟩⟩ := hspanned
  · cases htokens
    obtain rfl : items = [] := List.map_eq_nil_iff.1 hspans
    rw [hitems] at hlined ⊢
    obtain rfl : line = 0 := hlined.1
    rfl
  · exact absurd rfl (hnone s [])

theorem proseCommand_write (hfield : schema.root.prose? = some field) (d : List Char) (line : Nat) (l : Ledger) :
    ∃ l', proseCommand schema (some (({} : Prose).write d line)) l = (.ok (proseCommands field l d), l') := by
  have hblank : (({} : Prose).write d line).isBlank = allBlank d := by simp
  cases hd : allBlank d with
  | true => exact ⟨l, by simp [proseCommand, hblank, hd, proseCommands]⟩
  | false =>
    refine ⟨l.note ((({} : Prose).write d line).firstLine.getD 0), ?_⟩
    rw [proseCommand_visible hfield (hblank.trans hd), proseCommands, hd]
    rfl

theorem takeAll_sourceItems_oneText (hfield : schema.root.prose? = some field)
    (h : tokenize documentRules source = [.text s]) (hs : s ≠ []) (l : Ledger) :
    match Xml.decode (escape .content s) with
    | .error e => ∃ it, takeAll schema (sourceItems source) (start l) = .error (it, ⟨.badReference e, 0⟩)
    | .ok d => ∃ l', takeAll schema (sourceItems source) (start l) =
        .ok ⟨[], { commands := proseCommands field l d, closed := true, ledger := l' }⟩ := by
  rw [sourceItems, writtenItems_oneText h, takeAll, take_opening_proseOnly]
  dsimp only [List.cons_append, List.nil_append]
  rw [takeAll]
  cases hd : Xml.decode (escape .content s) with
  | error e =>
    refine ⟨.text s 0, ?_⟩
    rw [Item.take, Item.opened, Item.parts, hd]
  | ok d =>
    obtain ⟨l', hflush⟩ := proseCommand_write hfield d 0 l
    refine ⟨l', ?_⟩
    rw [take_text hs hd]
    dsimp only
    rw [takeAll, Option.getD_none, take_closing_proseOnly hflush]
    rfl

/-- The commands of a paragraph all items of which are taken. -/
theorem result_of_takeAll {commands : List Command} {opened : List (List Char)} {l l' : Ledger}
    (h : takeAll schema (sourceItems p.source) (start l) = .ok ⟨opened, { commands, closed := true, ledger := l' }⟩) :
    (parseParagraph documentRules schema p l).1.result = .ok commands := by
  have hreached := reached_parseParagraph schema p l
  generalize (parseParagraph documentRules schema p l).1 = result at hreached ⊢
  cases hreached with
  | failed hitems => rw [h] at hitems; cases hitems
  | taken hitems hfinish =>
    rw [h] at hitems
    cases hitems
    cases hfinish
    rfl
  | unfinished hitems hfinish =>
    rw [h] at hitems
    cases hitems
    cases hfinish

/-- The paragraph is its decoded text, or the text is at fault. -/
theorem result_parseParagraph_oneText (hfield : schema.root.prose? = some field)
    (h : tokenize documentRules p.source = [.text s]) (hs : s ≠ []) (l : Ledger) :
    (parseParagraph documentRules schema p l).1.result =
      match Xml.decode (escape .content s) with
      | .error e => .error ⟨.badReference e, p.startLine⟩
      | .ok d => .ok (proseCommands field l d) := by
  have htake := takeAll_sourceItems_oneText hfield h hs l
  cases hd : Xml.decode (escape .content s) with
  | error e =>
    rw [hd] at htake
    obtain ⟨it, htake⟩ := htake
    have hreached := reached_parseParagraph schema p l
    generalize (parseParagraph documentRules schema p l).1 = result at hreached ⊢
    cases hreached with
    | failed hitems =>
      rw [htake] at hitems
      cases hitems
      simp [Located.shift]
    | taken hitems => rw [htake] at hitems; cases hitems
    | unfinished hitems => rw [htake] at hitems; cases hitems
  | ok d =>
    rw [hd] at htake
    obtain ⟨l', htake⟩ := htake
    exact result_of_takeAll htake

end TaggedProse
