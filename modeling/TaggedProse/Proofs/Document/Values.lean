import TaggedProse.Proofs.Document.Outcome
import TaggedProse.Proofs.Element.Places

/-! Where the values of a paragraph come from: its tags, and the characters of its texts. -/
namespace TaggedProse
variable {schema : Schema} {document : List Char} {p : Paragraph} {r : ParagraphResult} {n : Nat}
  {content : List Char} {tag : String} {attributes : List (String × String)} {children : List Tree}

/-! ### Lines of the document -/

theorem BeginsTag.append {s : List Char} (h : BeginsTag content s) (t : List Char) :
    BeginsTag content (s ++ t) := by
  rcases h with ⟨rest, rfl⟩ | ⟨url, alt, title, rest, rfl, rfl⟩ | ⟨front, rest, rfl, rfl, hfront⟩
  · exact .inl ⟨rest ++ t, by simp⟩
  · exact .inr (.inl ⟨url, alt, title, rest ++ t, rfl, rfl⟩)
  · exact .inr (.inr ⟨front, rest ++ t, rfl, by simp, hfront⟩)

theorem Begins.append {c : Char} {s : List Char} (h : Begins c s) (t : List Char) : Begins c (s ++ t) := by
  obtain ⟨rest, rfl | rfl⟩ := h
  · exact ⟨rest ++ t, .inl rfl⟩
  · exact ⟨rest ++ t, .inr rfl⟩

/-- What stands on a line of the paragraph stands that many lines below its first in the document. -/
theorem Paragraph.StandsAt.standsOn {P : List Char → Prop} (hp : p.StandsAt 0 document)
    (h : StandsOn p.source n P) (hP : ∀ s t, P s → P (s ++ t)) :
    StandsOn document (n + p.startLine) P := by
  obtain ⟨before, after, rfl, hline⟩ := hp
  obtain ⟨front, back, hsource, rfl, hback⟩ := h
  refine ⟨before ++ front, back ++ after, by rw [hsource]; simp, ?_, hP back after hback⟩
  rw [newlines_append, ← hline, Nat.zero_add, Nat.add_comm]

/-! ### Tags and characters -/

/-- On line `n` of the paragraph an element is opened, by a tag, an image or a hard line break. -/
def Paragraph.Opens (p : Paragraph) (tag : String) (attributes : List (String × String)) (n : Nat) : Prop :=
  ∃ content parts, .tag content n ∈ writtenItems p.source ∧ (Item.tag content n).parts = .ok parts ∧
    .opening tag attributes n ∈ parts

/-- On line `n` a visible character is counted. References to newlines are counted as line ends there. -/
def Paragraph.Counts (p : Paragraph) (n : Nat) (c : Char) : Prop :=
  ∃ g ∈ sourceGlyphs p.source, isBlank g.char = false ∧ g.char = c ∧ n = g.line + g.carried

/-- Every part of some items is a part of one of them. -/
theorem exists_of_mem_itemParts {items : List Item} {parts : List Part} (h : itemParts items = .ok parts)
    {part : Part} (hp : part ∈ parts) : ∃ it ∈ items, ∃ own, it.parts = .ok own ∧ part ∈ own := by
  induction items generalizing parts with
  | nil =>
    cases h
    cases hp
  | cons it items ih =>
    obtain ⟨xs, ys, hx, hy, rfl⟩ := exists_of_itemParts_cons h
    rcases List.mem_append.1 hp with hp | hp
    · exact ⟨it, List.mem_cons_self, xs, hx, hp⟩
    · obtain ⟨it', hit', own, hown, hmem⟩ := ih hy hp
      exact ⟨it', List.mem_cons_of_mem _ hit', own, hown, hmem⟩

theorem Paragraph.HasChildren.opens (h : p.HasChildren children)
    (hp : .opening tag attributes n ∈ Tree.partsOf children) :
    p.Opens tag attributes n := by
  obtain ⟨it, hit, own, hown, hmem⟩ := exists_of_mem_itemParts h hp
  cases it with
  | text s line =>
    obtain rfl := parts_text hown
    obtain ⟨g, -, hg⟩ := List.mem_map.1 hmem
    cases hg
  | tag content line =>
    cases tagLine?_of_mem_parts hown hmem
    exact ⟨content, own, hit, hown, hmem⟩

theorem Paragraph.HasChildren.counts (h : p.HasChildren children) {s : List Char} {line : Nat}
    (hp : .text s line ∈ Tree.partsOf children) (hn : visibleLine? line s = some n) :
    ∃ c, firstVisible? s = some c ∧ p.Counts n c := by
  obtain ⟨it, hit, own, hown, hmem⟩ := exists_of_mem_itemParts h hp
  cases it with
  | text s line =>
    obtain rfl := parts_text hown
    obtain ⟨g, hg, hpart⟩ := List.mem_map.1 hmem
    cases hpart
    obtain ⟨hvisible, rfl⟩ := visibleLine?_singleton.1 hn
    refine ⟨g.char, by simp [firstVisible?, hvisible], g, ?_, hvisible, rfl, rfl⟩
    exact List.mem_flatMap.2 ⟨_, hit, hg⟩
  | tag content line => cases tagLine?_of_mem_parts hown hmem

/-- The commands of a paragraph are those of its tree. Their values are placed where its tags are, and
where its characters are counted. -/
def Paragraph.PlacesValues (p : Paragraph) (schema : Schema) (r : ParagraphResult) : Prop :=
  ∀ commands, r.result = .ok commands → ∃ children lined, p.HasChildren children ∧
    Tree.evaluate schema children = .ok lined ∧ (∀ c ∈ lined, c.Placed ⟨p.Counts, p.Opens⟩) ∧
    Reported r.reports commands (lined.map (·.shift p.startLine))

theorem Paragraph.Outcome.placesValues (h : p.Outcome schema r) : p.PlacesValues schema r := by
  intro commands hcommands
  cases h with
  | failed => cases hcommands
  | unclosed => cases hcommands
  | @parsed children lined _ _ _ htree hvalue hreported =>
    cases hcommands
    have hpinned : TreesPinned ⟨p.Counts, p.Opens⟩ children := by
      intro part hpart
      cases part with
      | text s line =>
        intro n hn
        exact htree.counts hpart hn
      | opening tag attributes line => exact htree.opens hpart
      | closing tag line => trivial
    have hplaced := yields_evaluate schema hpinned
    rw [hvalue] at hplaced
    exact ⟨children, lined, htree, hvalue, hplaced, hreported⟩

end TaggedProse
