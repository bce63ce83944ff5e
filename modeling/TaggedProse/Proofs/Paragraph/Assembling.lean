import TaggedProse.Proofs.Assembly.Text
import TaggedProse.Proofs.Paragraph.Reading
import TaggedProse.Proofs.Xml.Tracking

/-! A paragraph is assembled from its items as they stand in its source. Rendering, reading and the line
index in between make no difference, to the commands or to the first failure and its line. -/
namespace TaggedProse
variable {schema : Schema} {s : List Char} {a : Assembly} {e : Failure}

/-- The tags and texts of an item; a text goes character by character. -/
def Item.parts : Item → Except Failure (List Part)
  | .text s line =>
    match Xml.decode (escape .content s) with
    | .error e => .error ⟨.badReference e, line⟩
    | .ok _ => .ok ((glyphs line 0 s).map Glyph.part)
  | .tag content line => (Xml.tagEvent content).parts line

theorem parts_text {line : Nat} {parts : List Part} (h : (Item.text s line).parts = .ok parts) :
    parts = (glyphs line 0 s).map Glyph.part := by
  rw [Item.parts] at h
  split at h
  · cases h
  · exact (Except.ok.inj h).symm

structure Progress where
  /-- The names of the elements that are open, innermost first. -/
  opened : List (List Char) := []
  assembly : Assembly

def Item.opened (opened : List (List Char)) : Item → Except Failure (List (List Char))
  | .text _ _ => .ok opened
  | .tag content line =>
    match Xml.track 0 opened (Xml.tagEvent content) with
    | .error (_, e) => .error ⟨.badMarkup e, line⟩
    | .ok opened' => .ok opened'

def Item.take (schema : Schema) (it : Item) (g : Progress) : Except Failure Progress :=
  match it.opened g.opened with
  | .error e => .error e
  | .ok opened =>
    match it.parts with
    | .error e => .error e
    | .ok parts =>
      match Assembly.run schema parts g.assembly with
      | (.error e, _) => .error e
      | (.ok (), assembly) => .ok ⟨opened, assembly⟩

def takeAll (schema : Schema) : List Item → Progress → Except (Item × Failure) Progress
  | [], g => .ok g
  | it :: items, g =>
    match it.take schema g with
    | .error e => .error (it, e)
    | .ok g' => takeAll schema items g'

def verdict (index : LineIndex) (r : Xml.Reading) (fed : Fed) : Except Failure Assembly :=
  match fed.result, r.fault with
  | .error e, _ => .error e
  | .ok (), some (position, e) => .error ⟨.badMarkup e, index.lineAt position⟩
  | .ok (), none => .ok fed.assembly

theorem glyphs_ne_nil (h : s ≠ []) (line carried : Nat) : glyphs line carried s ≠ [] := by
  obtain ⟨c, s, rfl⟩ := List.exists_cons_of_ne_nil h
  rw [glyphs]
  split <;> simp

theorem feed_text (hs : s ≠ []) (line : Nat) (a : Assembly) :
    Assembly.feed schema line (.text (escape .content s)) a =
      match (Item.text s line).parts with
      | .error e => (.error e, a)
      | .ok parts => Assembly.run schema parts a := by
  rw [Assembly.feed, Xml.Event.parts, Item.parts]
  cases hd : Xml.decode (escape .content s) with
  | error e => rfl
  | ok d =>
    have hparts := map_part_glyphs s line 0 hd
    have hne : d ≠ [] := by
      rintro rfl
      exact glyphs_ne_nil hs line 0 (List.map_eq_nil_iff.1 hparts)
    dsimp only
    rw [hparts, Nat.add_zero, Assembly.run_textParts schema d hne, Assembly.run]
    split
    · next a' heq => rw [heq]; rfl
    · next e a' heq => rw [heq]

/-- The events after the first leave its outcome alone. -/
theorem verdict_cons (index : LineIndex) (r : Xml.Reading) (position : Nat) (event : Xml.Event)
    (a : Assembly) :
    verdict index { r with events := (position, event) :: r.events }
        (Assembly.feedAll schema
          (((position, event) :: r.events).map fun (p, ev) => (index.lineAt p, ev)) a) =
      match Assembly.feed schema (index.lineAt position) event a with
      | (.error e, _) => .error e
      | (.ok (), a') =>
        verdict index r
          (Assembly.feedAll schema (r.events.map fun (p, ev) => (index.lineAt p, ev)) a') := by
  rw [List.map_cons, Assembly.feedAll]
  cases Assembly.feed schema (index.lineAt position) event a with
  | mk result a' =>
    cases result with
    | error e => rfl
    | ok u =>
      dsimp only
      split <;> rfl

theorem byteLength_render_tag (content : List Char) (line : Nat) :
    byteLength (Item.tag content line).render = byteLength content + 2 := by
  have hopen : '<'.utf8Size = 1 := rfl
  have hclose : '>'.utf8Size = 1 := rfl
  simp only [Item.render, List.cons_append, byteLength_cons, byteLength_append, byteLength_nil, hopen,
    hclose]
  omega

/-- Reading the text of the items and feeding what is read takes the items one by one. -/
theorem verdict_follow (schema : Schema) (pre : List Char) (items : List Item) (hs : ∀ it ∈ items, it.Sound)
    (hl : Lined (newlines pre) items) (opened : List (List Char)) (a : Assembly) :
    verdict (LineIndex.of (pre ++ items.flatMap Item.render)) (follow opened (byteLength pre) items)
        (Assembly.feedAll schema ((follow opened (byteLength pre) items).events.map fun (p, ev) =>
          ((LineIndex.of (pre ++ items.flatMap Item.render)).lineAt p, ev)) a) =
      match takeAll schema items ⟨opened, a⟩ with
      | .error (_, e) => .error e
      | .ok g => .ok g.assembly := by
  induction items generalizing pre opened a with
  | nil => rfl
  | cons it items ih =>
    obtain ⟨hline, hrest⟩ := hl
    have hit := hs it List.mem_cons_self
    have hitems := fun it' hm => hs it' (List.mem_cons_of_mem _ hm)
    have hnext := ih (pre ++ it.render) hitems (by rwa [newlines_append])
    have hat := lineAt_byteLength pre ((it :: items).flatMap Item.render)
    rw [List.append_assoc, ← List.flatMap_cons] at hnext
    cases it with
    | text s line =>
      have hline : line = newlines pre := hline
      rw [follow, verdict_cons, hat, ← hline, feed_text hit, takeAll, Item.take, Item.opened]
      dsimp only
      cases hparts : (Item.text s line).parts with
      | error e => rfl
      | ok parts =>
        dsimp only
        obtain ⟨result, a'⟩ := Assembly.run schema parts a
        cases result with
        | error e => rfl
        | ok u =>
          have hnext' := hnext opened a'
          rw [byteLength_append, Item.render] at hnext'
          exact hnext'
    | tag content line =>
      have hline : line = newlines pre := hline
      rw [follow, Xml.track_position, takeAll, Item.take, Item.opened]
      cases htrack : Xml.track 0 opened (Xml.tagEvent content) with
      | error fault => simp only [verdict, List.map_nil, Assembly.feedAll, hat, ← hline]
      | ok opened' =>
        dsimp only
        rw [verdict_cons, hat, ← hline, Assembly.feed, Item.parts]
        cases hparts : (Xml.tagEvent content).parts line with
        | error e => rfl
        | ok parts =>
          dsimp only
          obtain ⟨result, a'⟩ := Assembly.run schema parts a
          cases result with
          | error e => rfl
          | ok u =>
            have hnext' := hnext opened' a'
            rw [byteLength_append, byteLength_render_tag, ← Nat.add_assoc] at hnext'
            exact hnext'

theorem assemble_verdict (schema : Schema) (ledger : Ledger) (s : List Char) :
    match verdict (LineIndex.of s) (Xml.read s) (Assembly.feedAll schema
        ((Xml.read s).events.map fun (p, ev) => ((LineIndex.of s).lineAt p, ev)) { ledger }) with
    | .error e => (assemble schema ledger s).result = .error e
    | .ok a => (assemble schema ledger s).result = a.finish (newlines s) ∧
        (assemble schema ledger s).ledger = a.ledger := by
  unfold assemble verdict
  dsimp only
  cases (Assembly.feedAll schema
    ((Xml.read s).events.map fun (p, ev) => ((LineIndex.of s).lineAt p, ev)) { ledger }).result with
  | error e => rfl
  | ok u =>
    cases (Xml.read s).fault with
    | some fault => rfl
    | none => exact ⟨by rw [lastLine_of], rfl⟩

/-- A paragraph is found faulty where one of its items is, or its commands are those that the items
lead to. -/
theorem assemble_render (schema : Schema) (source : List Char) (ledger : Ledger) :
    match takeAll schema (sourceItems source) { assembly := { ledger } } with
    | .error (_, e) =>
      (assemble schema ledger (render (tokenize documentRules source))).result = .error e
    | .ok g =>
      (assemble schema ledger (render (tokenize documentRules source))).result =
          g.assembly.finish (newlines (render (tokenize documentRules source))) ∧
        (assemble schema ledger (render (tokenize documentRules source))).ledger = g.assembly.ledger := by
  have hverdict := assemble_verdict schema ledger (render (tokenize documentRules source))
  have hfollow := verdict_follow schema [] (sourceItems source) (sound_sourceItems source)
    (lined_sourceItems source) [] { ledger }
  rw [List.nil_append, render_sourceItems, byteLength_nil, ← read_render] at hfollow
  rw [hfollow] at hverdict
  cases htake : takeAll schema (sourceItems source) { assembly := { ledger } } with
  | error fault => rw [htake] at hverdict; exact hverdict
  | ok g => rw [htake] at hverdict; exact hverdict

end TaggedProse
