import TaggedProse.Proofs.Document.Backslash
import TaggedProse.Proofs.Inline.Positions
import TaggedProse.Proofs.Paragraph.Replacing
import TaggedProse.Proofs.Xml.Attribute

/-! An image in a document of its own. Its texts are cut out of the line, written as attributes of a tag and read
back as the fields of a command, and come out as they went in. -/
namespace TaggedProse
variable {schema : Schema} {alt url title : List Char}

def imageLine (alt url title : List Char) : List Char :=
  '!' :: '[' :: (alt ++ ']' :: '(' :: (url ++ ' ' :: '"' :: (title ++ ['"', ')'])))

/-- Texts that may stand in an image: none of them ends early. -/
structure ImageTexts (alt url title : List Char) : Prop where
  alt : ∀ c ∈ alt, c ≠ ']' ∧ c ≠ '\n'
  url : url ≠ [] ∧ ∀ c ∈ url, isBlank c = false ∧ c ≠ ')'
  title : ∀ c ∈ title, c ≠ '"' ∧ c ≠ '\n'

theorem imageTail?_title (htitle : ∀ c ∈ title, c ≠ '"' ∧ c ≠ '\n') :
    imageTail? (' ' :: '"' :: (title ++ ['"', ')'])) = some (some title, []) := by
  have hpad : (' ' :: '"' :: (title ++ ['"', ')'])).dropWhile isPad = '"' :: (title ++ ['"', ')']) := by rfl
  obtain ⟨htake, hdrop⟩ := span_stop (p := fun c => !(c == '"' || c == '\n')) (s := title) (c := '"')
    (fun d hd => by simp [htitle d hd]) (by decide) [')']
  have hclose : [')'].dropWhile isPad = [')'] := rfl
  rw [imageTail?_titled hpad hdrop hclose, htake]

theorem imageBody?_line (h : ImageTexts alt url title) :
    imageBody? (alt ++ ']' :: '(' :: (url ++ ' ' :: '"' :: (title ++ ['"', ')']))) =
      some (.image url alt (some title), []) := by
  obtain ⟨hne, hurl⟩ := h.url
  obtain ⟨htakeAlt, hdropAlt⟩ := span_stop (p := fun c => !(c == ']' || c == '\n')) (s := alt) (c := ']')
    (fun d hd => by simp [h.alt d hd]) (by decide) ('(' :: (url ++ ' ' :: '"' :: (title ++ ['"', ')'])))
  obtain ⟨htakeUrl, hdropUrl⟩ := span_stop (p := isUrlChar) (s := url) (c := ' ')
    (fun d hd => by simp [isUrlChar, hurl d hd]) (by decide) ('"' :: (title ++ ['"', ')']))
  have hpad : (url ++ ' ' :: '"' :: (title ++ ['"', ')'])).dropWhile isPad =
      url ++ ' ' :: '"' :: (title ++ ['"', ')']) := by
    obtain ⟨c, url, rfl⟩ := List.exists_cons_of_ne_nil hne
    have hc : isPad c = false := by
      have hblank := (hurl c List.mem_cons_self).1
      rw [← Bool.not_eq_true]
      intro hpad
      simp only [isPad, Bool.or_eq_true, beq_iff_eq] at hpad
      rcases hpad with rfl | rfl <;> cases hblank
    rw [List.cons_append, List.dropWhile_cons_of_neg (by rw [hc]; exact Bool.false_ne_true)]
  have hbody := imageBody?_eq hdropAlt (by rw [hpad, htakeUrl]; exact hne)
    (by rw [hpad, hdropUrl]; exact imageTail?_title h.title)
  rw [hbody, hpad, htakeUrl, htakeAlt]

theorem marker?_imageLine (h : ImageTexts alt url title) :
    marker? (imageLine alt url title) =
      some ⟨.image url alt (some title), imageLine alt url title, []⟩ := by
  rw [imageLine, marker?_bang, scanImage_of_imageBody? (imageBody?_line h)]
  simp [before]

theorem writtenItems_imageLine (h : ImageTexts alt url title) :
    writtenItems (imageLine alt url title) = [.tag (imageContent url alt (some title)) 0] := by
  rw [writtenItems, pieces_of_marker? (marker?_imageLine h)]
  simp [pieces, itemsFrom, Token.items, joinItems]

/-! ### The attributes of the image's tag -/

def imageAttributes (alt url title : List Char) : List (String × List Char) :=
  ("url", url) :: ([("alt", alt), ("title", title)].filter fun e => !e.2.isEmpty)

theorem names_imageAttributes (alt url title : List Char) :
    ((imageAttributes alt url title).map Prod.fst).Sublist ["url", "alt", "title"] :=
  (List.filter_sublist.map Prod.fst).cons_cons "url"

theorem mem_imageAttributes {e : String × List Char} (he : e ∈ imageAttributes alt url title) :
    e = ("url", url) ∨ e = ("alt", alt) ∨ e = ("title", title) := by
  rcases List.mem_cons.1 he with rfl | he
  · exact .inl rfl
  · exact .inr (by simpa using (List.mem_filter.1 he).1)

theorem imageContent_eq (alt url title : List Char) : imageContent url alt (some title) =
    imageTag.toList ++ renderAttributes (imageAttributes alt url title) ++ ['/'] := by
  cases alt <;> cases title <;>
    simp [imageContent, imageAttributes, renderOptional, renderAttributes, List.filter]

/-- The tag's name ends where its attributes begin. -/
theorem span_image_tag (alt url title : List Char) :
    (imageTag.toList ++ renderAttributes (imageAttributes alt url title)).takeWhile (!Xml.isSpace ·) =
        imageTag.toList ∧
      (imageTag.toList ++ renderAttributes (imageAttributes alt url title)).dropWhile (!Xml.isSpace ·) =
        renderAttributes (imageAttributes alt url title) := by
  have hspace : (renderAttributes (imageAttributes alt url title)).head? = some ' ' := rfl
  obtain ⟨written, hwritten⟩ := List.head?_eq_some_iff.1 hspace
  rw [hwritten]
  exact span_stop (List.all_eq_true.1 (by decide)) (by decide) written

theorem attributes_image (halt : Referenceless alt) (hurl : Referenceless url) (htitle : Referenceless title) :
    Xml.attributes (imageTag.toList ++ renderAttributes (imageAttributes alt url title)) =
      .ok ((imageAttributes alt url title).map fun e => (e.1, String.ofList e.2)) := by
  have hkeys : ∀ name ∈ ["url", "alt", "title"], Xml.IsKey name.toList := by
    have hall : ∀ name ∈ ["url", "alt", "title"], name.toList ≠ [] ∧ name.toList.all (!Xml.isKeyEnd ·) = true := by
      decide
    intro name hname
    obtain ⟨hne, hkey⟩ := hall name hname
    exact ⟨hne, fun c hc => by simpa using List.all_eq_true.1 hkey c hc⟩
  rw [Xml.attributes, (span_image_tag alt url title).2]
  refine Xml.readAttributes_renderAttributes ?_ ?_ (fun _ _ => List.not_mem_nil) ?_
  · intro e he
    have hname := (names_imageAttributes alt url title).subset (List.mem_map_of_mem he)
    exact hkeys _ hname
  · exact (names_imageAttributes alt url title).nodup (by decide)
  · intro e he
    rcases mem_imageAttributes he with rfl | rfl | rfl
    · exact hurl
    · exact halt
    · exact htitle

theorem tagEvent_image (alt url title : List Char) : Xml.tagEvent (imageContent url alt (some title)) =
    .empty (imageTag.toList ++ renderAttributes (imageAttributes alt url title)) := by
  rw [imageContent_eq]
  exact tagEvent_empty (c := 'i') (by decide) _

theorem parts_image (halt : Referenceless alt) (hurl : Referenceless url) (htitle : Referenceless title)
    (line : Nat) : (Item.tag (imageContent url alt (some title)) line).parts =
      .ok [.opening imageTag ((imageAttributes alt url title).map fun e => (e.1, String.ofList e.2)) line,
        .closing imageTag line] := by
  rw [Item.parts, tagEvent_image, Xml.Event.parts, attributes_image halt hurl htitle, Xml.tagName,
    (span_image_tag alt url title).1]
  rfl

/-! ### The command -/

def imageFieldTexts (alt url title : List Char) : List (String × Option String) :=
  (([("alt", alt), ("title", title)].filter fun e => !e.2.isEmpty) ++ [("url", url)]).map fun e =>
    (e.1, some (String.ofList e.2))

theorem texts_imageFields (line : Nat) (l : Ledger) :
    (imageFields line l [] ((imageAttributes alt url title).map fun e => (e.1, String.ofList e.2))).1.map
      (fun e => (e.1, e.2.text?)) = imageFieldTexts alt url title := by
  have halt : "alt" < "url" := by decide
  have htitle : "title" < "url" ∧ ¬"title" < "alt" := by decide
  cases alt <;> cases title <;>
    simp [imageFields, imageAttributes, imageFieldTexts, Record.insert, Value.text?, halt, htitle]

def Command.ShowsImage (c : Command) (alt url title : List Char) : Prop :=
  ∃ id fields, c = ⟨imageTag, .object id fields⟩ ∧
    fields.map (fun e => (e.1, e.2.text?)) = imageFieldTexts alt url title

/-- An image where nothing stands yet in its paragraph. -/
theorem take_image (halt : Referenceless alt) (hurl : Referenceless url) (htitle : Referenceless title)
    (line : Nat) (l : Ledger) :
    ∃ image l', Command.ShowsImage image alt url title ∧
      (Item.tag (imageContent url alt (some title)) line).take schema ⟨[paragraphTag.toList], proseOnly l none⟩ =
        .ok ⟨[paragraphTag.toList],
          { frames := [⟨paragraphTag, 0, false, .paragraph none [image]⟩], ledger := l' }⟩ := by
  have hopened : (Item.tag (imageContent url alt (some title)) line).opened [paragraphTag.toList] =
      .ok [paragraphTag.toList] := by
    rw [Item.opened, tagEvent_image]
    rfl
  rw [Item.take, hopened, parts_image halt hurl htitle]
  exact ⟨_, _, ⟨_, _, rfl, texts_imageFields line l⟩, rfl⟩

/-! ### The document -/

theorem newlines_imageLine (h : ImageTexts alt url title) : newlines (imageLine alt url title) = 0 := by
  have halt : newlines alt = 0 := newlines_eq_zero fun c hc => (h.alt c hc).2
  have htitle : newlines title = 0 := newlines_eq_zero fun c hc => (h.title c hc).2
  have hurl : newlines url = 0 := by
    refine newlines_eq_zero fun c hc => ?_
    rintro rfl
    cases (h.url.2 '\n' hc).1
  simp [imageLine, newlines_cons, halt, hurl, htitle]

theorem lineContent_imageLine (alt url title : List Char) :
    lineContent (imageLine alt url title) = imageLine alt url title := by
  have hlast : imageLine alt url title =
      ('!' :: '[' :: (alt ++ ']' :: '(' :: (url ++ ' ' :: '"' :: (title ++ ['"'])))) ++ [')'] := by
    simp [imageLine]
  rw [lineContent_eq_self_iff, hlast, List.getLast?_concat]
  decide

/-- An image in a document of its own becomes one command. Its fields are the texts between the brackets, the
parentheses and the quotes, character for character; an alternative text or title that is empty is left out. -/
theorem parseDocument_imageLine (h : ImageTexts alt url title) (halt : Referenceless alt)
    (hurl : Referenceless url) (htitle : Referenceless title) (schema : Schema) (l : Ledger) :
    ∃ image, (parseDocument documentRules schema (imageLine alt url title) l).1.result = .ok [image] ∧
      image.ShowsImage alt url title := by
  have hs : allBlank (imageLine alt url title) = false := rfl
  obtain ⟨image, l', hshows, htake⟩ := take_image halt hurl htitle 0 l.clear
  refine ⟨image, ?_, hshows⟩
  rw [result_parseDocument_line (newlines_imageLine h) hs, lineContent_imageLine]
  have htaken : takeAll schema (sourceItems (imageLine alt url title)) (start l.clear) =
      .ok ⟨[], { commands := [image], closed := true, ledger := l' }⟩ := by
    rw [sourceItems, writtenItems_imageLine h, takeAll, take_opening_proseOnly]
    dsimp only [List.cons_append, List.nil_append]
    rw [takeAll, htake]
    dsimp only
    rw [takeAll, take_closing_paragraph rfl]
    rfl
  exact result_of_takeAll htaken

def markedAlt : List Char := "a \"b\" <c d='>\t& ![x(\\".toList

def markedUrl : List Char := "\"<e>\"?f&g=<b>&amp".toList

def markedTitle : List Char := "it's &copy; ](h) </p>\r".toList

theorem parseDocument_markedImage : ImageTexts markedAlt markedUrl markedTitle ∧ Referenceless markedAlt ∧
    Referenceless markedUrl ∧ Referenceless markedTitle ∧
    ∃ image, (parseDocument documentRules cardSchema (imageLine markedAlt markedUrl markedTitle) {}).1.result =
        .ok [image] ∧ image.ShowsImage markedAlt markedUrl markedTitle := by
  have halt : markedAlt.all (fun c => c != ']' && c != '\n') = true := by decide
  have hurl : markedUrl.all (fun c => !isBlank c && c != ')') = true := by decide
  have htitle : markedTitle.all (fun c => c != '"' && c != '\n') = true := by decide
  have htexts : ImageTexts markedAlt markedUrl markedTitle :=
    ⟨by simpa using halt, ⟨by decide, by simpa using hurl⟩, by simpa using htitle⟩
  have hnone : ∀ s ∈ [markedAlt, markedUrl, markedTitle], Referenceless s := by
    unfold Referenceless
    decide +kernel
  simp only [List.forall_mem_cons] at hnone
  obtain ⟨halt, hurl, htitle, -⟩ := hnone
  exact ⟨htexts, halt, hurl, htitle, parseDocument_imageLine htexts halt hurl htitle cardSchema {}⟩

end TaggedProse
