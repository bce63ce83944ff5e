import TaggedProse.Proofs.Document.Values
import TaggedProse.Proofs.Element.Squeezing

/-! Squeezed texts in documents. All texts of the commands that are returned are squeezed between their hard
breaks, except those of attributes. -/
namespace TaggedProse
variable {schema : Schema} {p : Paragraph} {r : ParagraphResult} {written : List (String × String) → Prop}
  {commands : List Command} {results : List ParagraphResult} {ps : List Paragraph}

/-! ### Values without lines and identities -/

namespace LinedValue

mutual

theorem bare_shift (offset : Nat) (v : LinedValue) : (v.shift offset).bare = v.bare := by
  cases v with
  | text line t => rfl
  | object line fields => rw [shift, bare, bare, bareFields_shiftFields offset fields]
  | list line items => rw [shift, bare, bare, bareItems_shiftItems offset items]
  | content line fields field => rw [shift, bare, bare, bareFields_shiftFields offset fields]

theorem bareFields_shiftFields (offset : Nat) (fields : List (String × LinedValue)) :
    bareFields (shiftFields offset fields) = bareFields fields := by
  match fields with
  | [] => rfl
  | (name, v) :: r => rw [shiftFields, bareFields, bareFields, bare_shift offset v, bareFields_shiftFields offset r]

theorem bareItems_shiftItems (offset : Nat) (items : List LinedValue) :
    bareItems (shiftItems offset items) = bareItems items := by
  match items with
  | [] => rfl
  | v :: r => rw [shiftItems, bareItems, bareItems, bare_shift offset v, bareItems_shiftItems offset r]

end

end LinedValue

theorem Value.bareItems_eq_map (items : List Value) : bareItems items = items.map bare := by
  induction items with
  | nil => rfl
  | cons v items ih => simp [bareItems, ih]

/-- Identities make no difference to texts. -/
theorem Schema.Tidy.of_bare {f : Field} {v : Value} (h : schema.Tidy f v.bare) : schema.Tidy f v := by
  generalize hw : v.bare = w at h
  induction h generalizing v with
  | asWritten role id t =>
    cases v with
    | text => exact .asWritten role _ _
    | _ => cases hw
  | text squeezed f id =>
    cases v with
    | text =>
      cases hw
      exact .text squeezed _ _
    | _ => cases hw
  | object nested found declared within id ih =>
    cases v with
    | object id' fields =>
      rw [Value.bare, Value.object.injEq, Value.bareFields_eq_map] at hw
      obtain ⟨-, rfl⟩ := hw
      refine .object nested found (fun e he => ?_) (fun e he g hg => ?_) id'
      · exact declared (e.1, e.2.bare) (List.mem_map.2 ⟨e, he, rfl⟩)
      · exact ih _ (List.mem_map.2 ⟨e, he, rfl⟩) g hg rfl
    | _ => cases hw
  | content nested found declared within id field ih =>
    cases v with
    | content id' fields field' =>
      rw [Value.bare, Value.content.injEq, Value.bareFields_eq_map] at hw
      obtain ⟨-, rfl, rfl⟩ := hw
      refine .content nested found (fun e he => ?_) (fun e he g hg => ?_) id' field'
      · exact declared (e.1, e.2.bare) (List.mem_map.2 ⟨e, he, rfl⟩)
      · exact ih _ (List.mem_map.2 ⟨e, he, rfl⟩) g hg rfl
    | _ => cases hw
  | list each id ih =>
    cases v with
    | list id' items =>
      rw [Value.bare, Value.list.injEq, Value.bareItems_eq_map] at hw
      obtain ⟨-, rfl⟩ := hw
      exact .list (fun w hw => ih _ (List.mem_map_of_mem hw) rfl) id'
    | _ => cases hw

theorem Command.Tidy.of_bare {c : Command} (h : Command.Tidy schema written ⟨c.name, c.value.bare⟩) :
    c.Tidy schema written := by
  obtain ⟨name, v⟩ := c
  generalize hw : v.bare = w at h
  cases h with
  | image tag texts id =>
    cases v with
    | object id' fields =>
      rw [Value.bare, Value.object.injEq, Value.bareFields_eq_map] at hw
      obtain ⟨-, rfl⟩ := hw
      refine .image tag (fun e he => ?_) id'
      obtain ⟨i, t, htext, hmem⟩ := texts _ (List.mem_map.2 ⟨e, he, rfl⟩)
      obtain ⟨name, v⟩ := e
      cases v with
      | text id t =>
        cases htext
        exact ⟨id, t, rfl, hmem⟩
      | _ => cases htext
    | _ => cases hw
  | prose target squeezed id =>
    cases v with
    | text =>
      cases hw
      exact .prose target squeezed _
    | _ => cases hw
  | element found role tidy => exact .element found role (.of_bare (by rwa [hw]))

theorem tidy_of_mapM_lined? {line? : Nat → Option Nat} {lined : List LinedCommand}
    (h : commands.mapM (Command.lined? line?) = some lined) (htidy : CommandsTidy schema written lined) :
    ∀ c ∈ commands, c.Tidy schema written := by
  induction commands generalizing lined with
  | nil => exact List.forall_mem_nil _
  | cons c commands ih =>
    obtain ⟨lv, rest, hv, hrest, rfl⟩ := Command.mapM_lined?_cons_eq_some.1 h
    obtain ⟨hc, htidy⟩ := List.forall_mem_cons.1 htidy
    refine List.forall_mem_cons.2 ⟨.of_bare ?_, ih hrest htidy⟩
    rwa [LinedCommand.bare, Value.bare_of_lined? c.value hv] at hc

/-! ### Paragraphs -/

/-- In the paragraph an image with these attributes is written, as a tag or in the notation for images. -/
def Paragraph.HasImage (p : Paragraph) (attributes : List (String × String)) : Prop :=
  ∃ line, p.Opens imageTag attributes line

theorem Paragraph.Outcome.tidy (h : p.Outcome schema r) (hresult : r.result = .ok commands) :
    ∀ c ∈ commands, c.Tidy schema p.HasImage := by
  cases h with
  | failed => cases hresult
  | unclosed => cases hresult
  | @parsed children lined _ _ _ htree hvalue hreported =>
    cases hresult
    have himages : ImagesWritten p.HasImage children := by
      intro part hpart
      cases part with
      | text s line => exact fun n hn => (htree.counts hpart hn).imp fun c hc => ⟨hc.1, trivial⟩
      | opening tag attributes line =>
        rintro rfl
        exact ⟨line, htree.opens hpart⟩
      | closing tag line => trivial
    have htidy : Yields (Tree.evaluate schema children) (CommandsTidy schema p.HasImage) :=
      yields_evaluate_tidy himages
    rw [hvalue] at htidy
    refine tidy_of_mapM_lined? hreported.lines fun shifted hshifted => ?_
    obtain ⟨c, hc, rfl⟩ := List.mem_map.1 hshifted
    rw [LinedCommand.bare, LinedCommand.shift, LinedValue.bare_shift]
    exact htidy c hc

/-! ### Documents -/

theorem exists_of_mem_right {α β : Type} {R : α → β → Prop} {xs : List α} {ys : List β}
    (h : List.Forall₂ R xs ys) {y : β} (hy : y ∈ ys) : ∃ x ∈ xs, R x y := by
  induction h with
  | nil => cases hy
  | @cons x y' xs ys hxy _ ih =>
    rcases List.mem_cons.1 hy with rfl | hy
    · exact ⟨x, List.mem_cons_self, hxy⟩
    · obtain ⟨x', hx', hR⟩ := ih hy
      exact ⟨x', List.mem_cons_of_mem _ hx', hR⟩

theorem Command.Tidy.mono {c : Command} {written' : List (String × String) → Prop} (h : c.Tidy schema written)
    (himp : ∀ attributes, written attributes → written' attributes) : c.Tidy schema written' := by
  cases h with
  | image tag texts id => exact .image (himp _ tag) texts id
  | prose target squeezed id => exact .prose target squeezed id
  | element found role tidy => exact .element found role tidy

/-- Every command of a document is one of a paragraph's. -/
theorem exists_of_mem_commands (h : (upToFailure results).result = .ok commands) {c : Command}
    (hc : c ∈ commands) : ∃ r ∈ results, ∃ own, r.result = .ok own ∧ c ∈ own := by
  induction results generalizing commands with
  | nil =>
    cases h
    cases hc
  | cons r results ih =>
    rw [upToFailure] at h
    cases hr : r.result with
    | error e => rw [hr] at h; cases h
    | ok own =>
      rw [hr] at h
      dsimp only at h
      cases hothers : (upToFailure results).result with
      | error e => rw [hothers] at h; cases h
      | ok others =>
        rw [hothers] at h
        cases h
        rcases List.mem_append.1 hc with hc | hc
        · exact ⟨r, List.mem_cons_self, own, hr, hc⟩
        · obtain ⟨r', hr', own', hown', hmem⟩ := ih hothers hc
          exact ⟨r', List.mem_cons_of_mem _ hr', own', hown', hmem⟩

/-- All texts of prose, of elements that hold text and of elements' own text are squeezed between their hard
breaks, at any depth; the fields of an image are attributes that are written in a paragraph. -/
theorem tidy_of_parseDocument {d : Description} (hd : d.compile = .ok schema) (document : List Char) (l : Ledger)
    (h : (parseDocument documentRules schema document l).1.result = .ok commands) :
    ∀ c ∈ commands, c.Tidy schema fun attributes => ∃ p ∈ paragraphs document, p.HasImage attributes := by
  intro c hc
  rw [parseDocument_eq] at h
  obtain ⟨r, hr, own, hown, hmem⟩ := exists_of_mem_commands h hc
  have houtcomes : List.Forall₂ (fun p r => p.Outcome schema r) (paragraphs document)
      (parseParagraphs documentRules schema document l).1 :=
    forall₂_parseAll (fun p _ l' => outcome_parseParagraph (Description.sound_of_compile hd) p l') l
  obtain ⟨p, hp, houtcome⟩ := exists_of_mem_right houtcomes hr
  exact (houtcome.tidy hown c hmem).mono fun attributes hattributes => ⟨p, hp, hattributes⟩

/-- Runs of spaces in an attribute, a title, a stretch of prose with a hard break, and an image. -/
def spacedDocument : List Char :=
  "<card id=\"a  b\"><title> x   y </title></card>\none  two  \n three ![c  d](u)".toList

theorem tidy_spacedDocument : cardDescription.compile = .ok cardSchema ∧
    ∃ commands, (parseDocument documentRules cardSchema spacedDocument {}).1.result = .ok commands ∧
      ∀ c ∈ commands, c.Tidy cardSchema fun attributes =>
        ∃ p ∈ paragraphs spacedDocument, p.HasImage attributes := by
  cases hresult : (parseDocument documentRules cardSchema spacedDocument {}).1.result with
  | error e =>
    have hok : (parseDocument documentRules cardSchema spacedDocument {}).1.result.toBool = true := by decide +kernel
    rw [hresult] at hok
    cases hok
  | ok commands =>
    exact ⟨compile_cardDescription, commands, rfl,
      tidy_of_parseDocument compile_cardDescription spacedDocument {} hresult⟩

/-- The attribute and the title of the image are left as they are written. -/
theorem texts_spacedDocument :
    ((parseDocument documentRules cardSchema spacedDocument {}).1.result.toOption.map fun commands =>
      commands.flatMap fun c => c.value.nodes.filterMap Value.text?) =
        some ["a  b", "x y", "one two\nthree", "c  d", "u"] ∧
      ¬IsSqueezed "a  b" ∧ ¬IsSqueezed "c  d" := by
  refine ⟨by decide +kernel, by decide, by decide⟩

end TaggedProse
