import TaggedProse.Proofs.Assembly.Coupling
import TaggedProse.Proofs.Assembly.Faults
import TaggedProse.Proofs.Element.Nesting
import TaggedProse.Proofs.Paragraph.Assembling
import TaggedProse.Proofs.Paragraph.Placement
import TaggedProse.Proofs.Text.Visible

/-! What becomes of a paragraph: the values that its element tree means, with the lines of their tags and
texts, or the failure of one of its items. -/
namespace TaggedProse
variable {schema : Schema} {line : Nat} {items : List Item} {it : Item} {g g' : Progress} {e : Failure}
  {parts : List Part} {source : List Char}

def itemParts : List Item → Except Failure (List Part)
  | [] => .ok []
  | it :: items =>
    match it.parts with
    | .error e => .error e
    | .ok parts => (itemParts items).map (parts ++ ·)

theorem itemParts_cons {xs ys : List Part} (hx : it.parts = .ok xs) (hy : itemParts items = .ok ys) :
    itemParts (it :: items) = .ok (xs ++ ys) := by
  rw [itemParts, hx, hy]
  rfl

theorem exists_of_itemParts_cons (h : itemParts (it :: items) = .ok parts) :
    ∃ xs ys, it.parts = .ok xs ∧ itemParts items = .ok ys ∧ parts = xs ++ ys := by
  rw [itemParts] at h
  split at h
  · cases h
  · next xs hx =>
    cases hy : itemParts items with
    | error e => rw [hy] at h; cases h
    | ok ys => rw [hy] at h; cases h; exact ⟨xs, ys, hx, rfl, rfl⟩

theorem exists_of_itemParts_append {others : List Item} (h : itemParts (items ++ others) = .ok parts) :
    ∃ xs ys, itemParts items = .ok xs ∧ itemParts others = .ok ys ∧ parts = xs ++ ys := by
  induction items generalizing parts with
  | nil => exact ⟨[], parts, rfl, h, rfl⟩
  | cons it items ih =>
    obtain ⟨xs, ys, hx, hrest, rfl⟩ := exists_of_itemParts_cons h
    obtain ⟨us, vs, hu, hv, rfl⟩ := ih hrest
    exact ⟨xs ++ us, vs, itemParts_cons hx hu, hv, by simp⟩

/-! ### Items that are taken -/

theorem nest_glyphs (stack : List String) (gs : List Glyph) :
    nest stack (gs.map Glyph.part) = some stack := by
  induction gs with
  | nil => rfl
  | cons g gs ih => exact ih

theorem exists_of_take_ok (h : it.take schema g = .ok g') :
    ∃ parts, it.parts = .ok parts ∧ Assembly.run schema parts g.assembly = (.ok (), g'.assembly) ∧
      nest (g.opened.map String.ofList) parts = some (g'.opened.map String.ofList) := by
  unfold Item.take at h
  split at h
  · cases h
  · next opened hopened =>
    split at h
    · cases h
    · next parts hparts =>
      split at h
      · cases h
      · next a hrun =>
        cases h
        refine ⟨parts, hparts, hrun, ?_⟩
        cases it with
        | text s line =>
          cases hopened
          obtain rfl := parts_text hparts
          exact nest_glyphs _ _
        | tag content line =>
          rw [Item.opened] at hopened
          split at hopened
          · cases hopened
          · next opened' htrack =>
            cases hopened
            exact nest_event htrack hparts

theorem exists_of_takeAll_ok (h : takeAll schema items g = .ok g') :
    ∃ parts, itemParts items = .ok parts ∧
      Assembly.run schema parts g.assembly = (.ok (), g'.assembly) ∧
      nest (g.opened.map String.ofList) parts = some (g'.opened.map String.ofList) := by
  induction items generalizing g with
  | nil =>
    cases h
    exact ⟨[], rfl, rfl, rfl⟩
  | cons it items ih =>
    rw [takeAll] at h
    split at h
    · cases h
    · next g₁ htake =>
      obtain ⟨xs, hx, hrunx, hnestx⟩ := exists_of_take_ok htake
      obtain ⟨ys, hy, hruny, hnesty⟩ := ih h
      refine ⟨xs ++ ys, itemParts_cons hx hy, ?_, ?_⟩
      · rw [Assembly.run_append, hrunx]
        exact hruny
      · rw [nest_append, hnestx]
        exact hnesty

/-- A failure is that of the first item that cannot be taken. -/
theorem exists_of_takeAll_error (h : takeAll schema items g = .error (it, e)) :
    ∃ front rest g', items = front ++ it :: rest ∧ takeAll schema front g = .ok g' ∧
      it.take schema g' = .error e := by
  induction items generalizing g with
  | nil => cases h
  | cons it' items ih =>
    rw [takeAll] at h
    split at h
    · next e' htake =>
      cases h
      exact ⟨[], items, g, rfl, rfl, htake⟩
    · next g₁ htake =>
      obtain ⟨front, rest, g', rfl, hfront, hfail⟩ := ih h
      exact ⟨it' :: front, rest, g', rfl, by rw [takeAll, htake]; exact hfront, hfail⟩

theorem wellFormed_takeAll (hs : schema.Sound) (hw : g.assembly.WellFormed schema)
    (h : takeAll schema items g = .ok g') : g'.assembly.WellFormed schema := by
  obtain ⟨parts, -, hrun, -⟩ := exists_of_takeAll_ok h
  have hend := Assembly.wellFormed_run hs parts hw
  rwa [hrun] at hend

/-! ### Success -/

theorem parts_opening_paragraph :
    (Item.tag paragraphTag.toList 0).parts = .ok [.opening paragraphTag [] 0] := by
  with_unfolding_all rfl

theorem parts_closing_paragraph (line : Nat) :
    (Item.tag ('/' :: paragraphTag.toList) line).parts = .ok [.closing paragraphTag line] := rfl

def start (l : Ledger) : Progress := { assembly := { ledger := l } }

/-- The parts of a paragraph are those of what is written in it, between the tags of its own element. -/
theorem exists_of_itemParts_sourceItems (h : itemParts (sourceItems source) = .ok parts) :
    ∃ inner, itemParts (writtenItems source) = .ok inner ∧
      parts = .opening paragraphTag [] 0 :: (inner ++ [.closing paragraphTag (newlines source)]) := by
  obtain ⟨first, others, hfirst, hothers, rfl⟩ := exists_of_itemParts_cons h
  obtain ⟨inner, last, hinner, hlast, rfl⟩ := exists_of_itemParts_append hothers
  obtain ⟨last, none', hclosing, hnone, rfl⟩ := exists_of_itemParts_cons hlast
  rw [parts_opening_paragraph] at hfirst
  rw [parts_closing_paragraph] at hclosing
  cases hfirst
  cases hclosing
  cases hnone
  exact ⟨inner, hinner, rfl⟩

theorem take_opening_paragraph (schema : Schema) (l : Ledger) :
    ∃ g, (Item.tag paragraphTag.toList 0).take schema (start l) = .ok g := by
  have hopened : (Item.tag paragraphTag.toList 0).opened [] = .ok [paragraphTag.toList] := by rfl
  unfold Item.take start
  rw [hopened, parts_opening_paragraph]
  exact ⟨_, rfl⟩

theorem exists_children_of_takeAll (l : Ledger) {commands : List Command}
    (h : takeAll schema (sourceItems source) (start l.clear) = .ok g)
    (hf : g.assembly.finish line = .ok commands) :
    ∃ children lined,
      itemParts (writtenItems source) = .ok (Tree.partsOf children) ∧
      Tree.evaluate schema children = .ok lined ∧
      commands.mapM (Command.lined? g.assembly.ledger.line?) = some lined ∧
      g.assembly.ledger.Sound := by
  obtain ⟨parts, hparts, hrun, hnest⟩ := exists_of_takeAll_ok h
  have hopened : g.opened.map String.ofList = [] := by
    have hstanding := (Assembly.standing_new l.clear).of_run hrun
    have htags := Assembly.tags_run (a := (start l.clear).assembly) hnest hrun
    rw [← htags, Assembly.tags, hstanding.settled (Assembly.closed_of_finish hf)]
    rfl
  rw [hopened] at hnest
  obtain ⟨inner, hinner, rfl⟩ := exists_of_itemParts_sourceItems hparts
  obtain ⟨children, htree⟩ := exists_children_of_run rfl (List.cons_append).symm hnest hrun
  rw [htree] at hrun
  have hchildren : inner = Tree.partsOf children := by
    rw [Tree.parts] at htree
    exact List.append_cancel_right (List.cons.inj htree).2
  rw [hchildren] at hinner
  have hgives := gives_paragraph schema [] 0 (newlines source) children l
  unfold Gives at hgives
  rw [show Assembly.run schema _ { ledger := l.clear } = _ from hrun] at hgives
  cases hvalue : Tree.evaluate schema children with
  | error e =>
    rw [hvalue] at hgives
    cases hgives
  | ok lined =>
    rw [hvalue] at hgives
    obtain ⟨a, ha, -, -, hsound, hlined⟩ := hgives
    cases ha
    rw [Assembly.eq_commands_of_finish hf]
    exact ⟨children, lined, hinner, hvalue, hlined, hsound⟩

/-! ### Failures -/

theorem line_of_parts_error {event : Xml.Event} (h : event.parts line = .error e) : e.line = line := by
  unfold Xml.Event.parts at h
  split at h
  · dsimp only at h
    split at h <;> cases h
    rfl
  · dsimp only at h
    split at h <;> cases h
    rfl
  · cases h
  · split at h <;> cases h
    rfl
  · cases h
  · cases h

theorem tagEvent_cases (content : List Char) : (∃ name, Xml.tagEvent content = .closing name) ∨
    (∃ inner, Xml.tagEvent content = .empty inner) ∨ Xml.tagEvent content = .opening content := by
  unfold Xml.tagEvent
  split
  · exact .inl ⟨_, rfl⟩
  · split
    · exact .inr (.inl ⟨_, rfl⟩)
    · exact .inr (.inr rfl)

/-- A tag contributes tags of its own line only. -/
theorem tagLine?_of_mem_parts {content : List Char} (h : (Item.tag content line).parts = .ok parts)
    {part : Part} (hp : part ∈ parts) : part.tagLine? = some line := by
  rw [Item.parts] at h
  rcases tagEvent_cases content with ⟨name, hevent⟩ | ⟨inner, hevent⟩ | hevent
  · rw [hevent] at h
    cases h
    obtain rfl := List.mem_singleton.1 hp
    rfl
  · rw [hevent, Xml.Event.parts] at h
    split at h <;> cases h
    simp only [List.mem_cons, List.not_mem_nil, or_false] at hp
    rcases hp with rfl | rfl
    · rfl
    · rfl
  · rw [hevent, Xml.Event.parts] at h
    split at h <;> cases h
    obtain rfl := List.mem_singleton.1 hp
    rfl

/-- If a tag is at fault, it is the tag with which the paragraph fails. -/
theorem exists_of_take_error (hs : schema.Sound) (hw : g.assembly.WellFormed schema)
    (h : it.take schema g = .error e) (hc : e.item.concernsTag = true) :
    ∃ content, it = .tag content e.line := by
  unfold Item.take at h
  split at h
  · next e' hopened =>
    cases h
    cases it with
    | text s line => cases hopened
    | tag content line =>
      rw [Item.opened] at hopened
      split at hopened <;> cases hopened
      exact ⟨content, rfl⟩
  · split at h
    · next e' hparts =>
      cases h
      cases it with
      | text s line =>
        rw [Item.parts] at hparts
        split at hparts <;> cases hparts
        cases hc
      | tag content line => exact ⟨content, by rw [line_of_parts_error hparts]⟩
    · next parts hparts =>
      split at h
      · next e' a hrun =>
        cases h
        obtain ⟨part, hp, hline⟩ := Assembly.exists_of_run_error hs hw (by rw [hrun]) hc
        cases it with
        | text s line =>
          obtain rfl := parts_text hparts
          obtain ⟨x, -, rfl⟩ := List.mem_map.1 hp
          cases hline
        | tag content line =>
          cases hline.symm.trans (tagLine?_of_mem_parts hparts hp)
          exact ⟨content, rfl⟩
      · cases h

/-! ### Lines -/

section Lines
variable {P : Nat → Prop}

theorem within_parts (hline : P it.line)
    (hglyphs : ∀ x ∈ it.characters, isBlank x.char = false → P (x.line + x.carried))
    (h : it.parts = .ok parts) : ∀ part ∈ parts, part.Within P := by
  cases it with
  | text s line =>
    obtain rfl := parts_text h
    intro part hp
    obtain ⟨x, hx, rfl⟩ := List.mem_map.1 hp
    intro n hn
    obtain ⟨hvisible, rfl⟩ := visibleLine?_singleton.1 hn
    exact hglyphs x hx hvisible
  | tag content line =>
    intro part hp
    have hown := tagLine?_of_mem_parts h hp
    cases part with
    | text s line => cases hown
    | _ => cases hown; exact hline

theorem line_of_opened_error {opened : List (List Char)} (h : it.opened opened = .error e) :
    e.line = it.line := by
  cases it with
  | text s line => cases h
  | tag content line =>
    rw [Item.opened] at h
    split at h <;> cases h
    rfl

theorem line_of_item_parts_error (h : it.parts = .error e) : e.line = it.line := by
  cases it with
  | text s line =>
    rw [Item.parts] at h
    split at h <;> cases h
    rfl
  | tag content line => exact line_of_parts_error h

/-- Lines, that of a failure too, come from the items and the visible characters of their texts. -/
theorem within_take (schema : Schema) (hg : g.assembly.Within P) (hline : P it.line)
    (hglyphs : ∀ x ∈ it.characters, isBlank x.char = false → P (x.line + x.carried)) :
    match it.take schema g with
    | .error e => P e.line
    | .ok g' => g'.assembly.Within P := by
  unfold Item.take
  cases hopened : it.opened g.opened with
  | error e => rwa [← line_of_opened_error hopened] at hline
  | ok opened =>
    cases hparts : it.parts with
    | error e => rwa [← line_of_item_parts_error hparts] at hline
    | ok parts =>
      have hrun := Assembly.within_run schema hg (within_parts hline hglyphs hparts)
      dsimp only
      cases hr : Assembly.run schema parts g.assembly with
      | mk result a =>
        rw [hr] at hrun
        cases result with
        | error e => exact hrun.2 e rfl
        | ok u => exact hrun.1

def TakenWithin (P : Nat → Prop) : Except (Item × Failure) Progress → Prop
  | .error (_, e) => P e.line
  | .ok g => g.assembly.Within P

theorem within_takeAll (schema : Schema) (hg : g.assembly.Within P) (hline : ∀ it ∈ items, P it.line)
    (hglyphs : ∀ x ∈ items.flatMap Item.characters, isBlank x.char = false → P (x.line + x.carried)) :
    TakenWithin P (takeAll schema items g) := by
  induction items generalizing g with
  | nil => exact hg
  | cons it items ih =>
    have htake := within_take schema hg (hline it List.mem_cons_self) fun x hx =>
      hglyphs x (List.mem_append_left _ hx)
    rw [takeAll]
    cases hit : it.take schema g with
    | error e =>
      rw [hit] at htake
      exact htake
    | ok g' =>
      rw [hit] at htake
      exact ih htake (fun it' hm => hline it' (List.mem_cons_of_mem _ hm)) fun x hx =>
        hglyphs x (List.mem_append_right _ hx)

end Lines

end TaggedProse
