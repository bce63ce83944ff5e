import TaggedProse.Proofs.Assembly.Conformance
import TaggedProse.Proofs.Assembly.Lasting

/-! How the open elements stand in one another, whatever has been fed to an assembly: tags and texts in any order,
and on from where it stood after one that failed. -/
namespace TaggedProse
variable {schema : Schema} {table : Table} {f : Field} {tag around : String} {line : Nat} {s : List Char}
  {attributes : List (String × String)} {l l' : Ledger} {e : Failure} {upper breaks below frames : List Frame}
  {frame : Frame}

def Body.Kind.holdsText : Body.Kind → Bool
  | .scalar | .content _ _ => true
  | _ => false

def Body.Kind.holdsObject : Body.Kind → Bool
  | .object _ | .content _ _ => true
  | _ => false

/-- How the open elements stand in one another, the innermost first. -/
structure Arranged (frames : List Frame) : Prop where
  /-- The paragraph is at the bottom, and only there. -/
  rooted : Rooted frames
  /-- Inside an element that holds text there are only line breaks. -/
  texts : ∀ upper f below, frames = upper ++ f :: below → f.body.kind.holdsText = true →
    ∀ b ∈ upper, b.body = .lineBreak
  /-- Inside an image there is nothing. -/
  images : ∀ upper f below, frames = upper ++ f :: below → f.body = .image → upper = []
  /-- The items of lists are objects. -/
  items : ∀ f ∈ frames, f.item = true → f.body.kind.holdsObject = true
  /-- What an object has under the name of a list is a list. -/
  lists : ∀ f ∈ frames, ∀ table fields, f.body = .object table fields →
    ∀ name field v, table.get? name = some field → field.role = .list →
      Record.get? name fields = some v → ∃ id items, v = .list id items

/-! ### What stands above an element -/

theorem Body.eq_lineBreak {b : Body} (h : b.kind = .lineBreak) : b = .lineBreak := by
  cases b <;> first | rfl | cases h

theorem forall_isLineBreak (h : ∀ b ∈ upper, b.body = .lineBreak) : ∀ b ∈ upper, b.body.isLineBreak = true := by
  intro b hb
  rw [h b hb]
  rfl

theorem Nested.breaks_of_holdsText (h : Nested schema (upper ++ frame :: below))
    (hf : frame.body.kind.holdsText = true) : ∀ b ∈ upper, b.body = .lineBreak := by
  induction upper with
  | nil => exact List.forall_mem_nil _
  | cons b upper ih =>
    rw [List.cons_append] at h
    obtain ⟨-, hupper, hstands⟩ := h
    have hbreaks := ih hupper
    have hframe : frame.body.isLineBreak = false := by
      cases hbody : frame.body <;> rw [hbody] at hf <;> first | rfl | cases hf
    rw [enclosing_append (forall_isLineBreak hbreaks) hframe] at hstands
    refine List.forall_mem_cons.2 ⟨Body.eq_lineBreak ?_, hbreaks⟩
    cases hkind : frame.body.kind with
    | scalar | content => rw [hkind] at hstands; exact hstands
    | _ => rw [hkind] at hf; cases hf

theorem Nested.eq_nil_of_image (h : Nested schema (upper ++ frame :: below)) (hf : frame.body = .image) :
    upper = [] := by
  induction upper with
  | nil => rfl
  | cons b upper ih =>
    rw [List.cons_append] at h
    obtain ⟨-, hupper, hstands⟩ := h
    obtain rfl := ih hupper
    have himage : enclosing (frame :: below) = some .image := by
      rw [enclosing, Assembly.splitBreaks, List.span_eq_takeWhile_dropWhile]
      simp [hf, Body.isLineBreak, Body.kind]
    rw [List.nil_append, himage] at hstands
    exact hstands.elim

theorem Nested.fits (h : Nested schema frames) (hf : frame ∈ frames) : frame.body.Fits schema := by
  obtain ⟨upper, below, rfl⟩ := List.append_of_mem hf
  exact h.of_append.1

theorem Schema.HasFields.exists_list {fields : Record Value} {name : String} {v : Value}
    (h : schema.HasFields table fields) (hf : table.get? name = some f) (hrole : f.role = .list)
    (hv : Record.get? name fields = some v) : ∃ id items, v = .list id items := by
  cases h.get? hf hv with
  | text role => rw [hrole] at role; simp at role
  | object role => rw [hrole] at role; cases role
  | list => exact ⟨_, _, rfl⟩

theorem Body.exists_of_close_error {b : Body} (h : (b.close schema line l).1 = .error e) :
    ∃ line', e = ⟨.undescribedText paragraphTag, line'⟩ := by
  cases b with
  | paragraph prose commands =>
    rw [close] at h
    split at h
    · next heq => cases h; exact exists_of_proseCommand_error (by rw [heq])
    · cases h
  | _ => cases h

/-! ### Items -/

theorem holdsObject_of_openObject {body : Body} (h : openObject table tag attributes line l = (.ok body, l')) :
    body.kind.holdsObject = true := by
  unfold openObject at h
  split at h
  · split at h <;> cases h
    rfl
  · split at h
    · split at h <;> cases h
      rfl
    · cases h

theorem holdsObject_of_openField {body : Body} (hrole : f.role = .list)
    (h : openField schema tag f attributes line l = (.ok body, l')) : body.kind.holdsObject = true := by
  rw [openField, hrole] at h
  dsimp only at h
  unfold openNested at h
  split at h
  · cases h
  · exact holdsObject_of_openObject h

/-- Only objects open items, and an item is an object itself. -/
theorem Body.holdsObject_of_openChild {b body : Body}
    (hitem : (b.openChild schema around tag attributes line l).item = true)
    (h : (b.openChild schema around tag attributes line l).child = .ok body) : body.kind.holdsObject = true := by
  cases b with
  | paragraph prose commands =>
    rw [openChild, openInParagraph] at hitem
    split at hitem
    · cases hitem
    · split at hitem
      · split at hitem <;> cases hitem
      · split at hitem
        · cases hitem
        · split at hitem <;> cases hitem
  | object table fields =>
    rw [openChild, openInObject] at hitem h
    split at hitem
    · cases hitem
    · next f hf =>
      rw [hf] at h
      split at hitem
      · cases hitem
      · next hopen =>
        dsimp only at h
        rw [if_neg hopen] at h
        exact holdsObject_of_openField (by simpa using hitem) (Prod.ext h rfl)
  | scalar prose =>
    rw [openChild] at hitem
    split at hitem <;> cases hitem
  | content table field fields prose =>
    rw [openChild] at hitem
    split at hitem
    · cases hitem
    · split at hitem <;> cases hitem
  | image => cases hitem
  | lineBreak => cases hitem

def ItemsHold (frames : List Frame) : Prop := ∀ f ∈ frames, f.item = true → f.body.kind.holdsObject = true

theorem lasts_itemsHold (schema : Schema) :
    Frame.Lasts schema (fun _ => True) fun f => f.item = true → f.body.kind.holdsObject = true where
  paragraph := fun _ hitem => Bool.noConfusion hitem
  parent := fun f tag attributes line l _ hf hitem => by
    rw [(f.body.isInner_openChild schema f.tag tag attributes line l).kind]
    exact hf hitem
  child := fun _ _ _ _ _ _ _ hbody hitem => Body.holdsObject_of_openChild hitem hbody
  write := fun _ _ _ _ _ hf hbody hitem => by
    rw [Body.kind_of_write hbody]
    exact hf hitem
  accept := fun _ _ _ _ _ _ hf haccept hitem => by
    rw [Body.kind_of_accept (by rw [haccept])]
    exact hf hitem

namespace Assembly
variable {a : Assembly} {parts : List Part} {part : Part}

/-! ### Going on after failures -/

structure Orderly (schema : Schema) (a : Assembly) : Prop where
  wellFormed : a.WellFormed schema
  itemsHold : ItemsHold a.frames

theorem orderly_new (schema : Schema) (ledger : Ledger) : Orderly schema { ledger } :=
  ⟨wellFormed_new schema ledger, List.forall_mem_nil _⟩

theorem Orderly.step (hs : schema.Sound) (part : Part) (h : a.Orderly schema) :
    (step schema part a).2.Orderly schema :=
  ⟨wellFormed_step hs part h.wellFormed, lasts_step (lasts_itemsHold schema) trivial h.itemsHold⟩

theorem Orderly.persist (hs : schema.Sound) (parts : List Part) (h : a.Orderly schema) :
    (persist schema parts a).Orderly schema := by
  induction parts generalizing a with
  | nil => exact h
  | cons part parts ih => exact ih (h.step hs part)

theorem Orderly.arranged (h : a.Orderly schema) : Arranged a.frames where
  rooted := h.wellFormed.frames.rooted
  texts := fun _ _ _ hframes hf => (hframes ▸ h.wellFormed.frames).breaks_of_holdsText hf
  images := fun _ _ _ hframes hf => (hframes ▸ h.wellFormed.frames).eq_nil_of_image hf
  items := h.itemsHold
  lists := fun f hf table fields hbody name field v hfield hrole hv => by
    have hfits := h.wellFormed.frames.fits hf
    rw [hbody] at hfits
    exact Schema.HasFields.exists_list hfits hfield hrole hv

/-! ### Values of elements that close -/

/-- What an element that closes with a value leaves behind is taken up, and a closing tag fails for other reasons
only. -/
structure Accepts (schema : Schema) (a : Assembly) : Prop where
  /-- There is an element around, which takes the value up. For an item it is an object, and what this has under
  the item's name is a list. -/
  around : ∀ child frames v l, a.frames = child :: frames →
    child.body.close schema child.line a.ledger = (.ok (.value v), l) →
    ∃ breaks around below, splitBreaks frames = (breaks, around :: below) ∧
      (∃ body l', around.body.accept around.tag child v l = (.ok body, l')) ∧
      (child.item = true → ∃ table fields, around.body = .object table fields ∧
        ∀ w, Record.get? child.tag fields = some w → ∃ id items, w = .list id items)
  /-- Nothing is open, or the schema has no field for the paragraph's prose. -/
  closing : ∀ tag line e, (closeElement schema tag line a).1 = .error e →
    (a.frames = [] ∧ e = ⟨.unexpectedClosing tag, line⟩) ∨ ∃ line', e = ⟨.undescribedText paragraphTag, line'⟩

/-- A value is left behind by an element in the paragraph or in an object. -/
theorem exists_around_of_close {child : Frame} {v : Value} (h : Nested schema (child :: frames))
    (hc : (child.body.close schema line l).1 = .ok (.value v)) :
    ∃ breaks around below, frames = breaks ++ around :: below ∧ splitBreaks frames = (breaks, around :: below) ∧
      StandsIn schema child.tag child.item child.body.kind around.body.kind ∧
      (around.body.kind = .paragraph ∨ ∃ table, around.body.kind = .object table) ∧
      child.body.kind ≠ .lineBreak ∧ child.body.kind ≠ .image := by
  obtain ⟨-, hbelow, hstands⟩ := h
  have hchild : child.body.kind ≠ .paragraph ∧ child.body.kind ≠ .lineBreak ∧ child.body.kind ≠ .image := by
    refine ⟨fun hkind => ?_, ?_⟩
    · obtain ⟨commands, hcommands⟩ := (Body.kind_of_close hc).1 hkind
      cases hcommands
    · cases hbody : child.body <;> rw [hbody] at hc <;> simp [Body.kind, Body.close] at hc ⊢
  rcases hbelow.cases with rfl | ⟨breaks, around, below, rfl, hb, ha⟩
  · exact absurd hstands.2 hchild.1
  · rw [enclosing_append hb ha] at hstands
    refine ⟨breaks, around, below, rfl, splitBreaks_append hb ha, hstands, ?_, hchild.2⟩
    cases hkind : around.body.kind with
    | paragraph => exact .inl rfl
    | object table => exact .inr ⟨table, rfl⟩
    | scalar | content => rw [hkind] at hstands; exact absurd hstands hchild.2.1
    | image | lineBreak => rw [hkind] at hstands; exact hstands.elim

theorem exists_accept {b : Body} (h : b.kind = .paragraph ∨ ∃ table, b.kind = .object table) (child : Frame)
    (v : Value) (l : Ledger) : ∃ body l', b.accept around child v l = (.ok body, l') := by
  cases b with
  | paragraph prose commands => exact ⟨_, _, rfl⟩
  | object table fields =>
    rw [Body.accept]
    split <;> exact ⟨_, _, rfl⟩
  | scalar | content | image | lineBreak => simp [Body.kind] at h

/-- Items stand in objects, under the name of a list. -/
theorem exists_list_of_standsIn {b : Body} {kind : Body.Kind} (hfits : b.Fits schema)
    (hstands : StandsIn schema tag true kind b.kind)
    (hb : b.kind = .paragraph ∨ ∃ table, b.kind = .object table)
    (hkind : kind ≠ .lineBreak ∧ kind ≠ .image) :
    ∃ table fields, b = .object table fields ∧
      ∀ w, Record.get? tag fields = some w → ∃ id items, w = .list id items := by
  cases b with
  | paragraph prose commands =>
    rcases hstands with hbreak | himage | ⟨hitem, -⟩
    · exact absurd hbreak hkind.1
    · exact absurd himage hkind.2
    · cases hitem
  | object table fields =>
    obtain ⟨f, hf, -, hwritten⟩ := hstands
    cases hwritten with
    | item role => exact ⟨table, fields, rfl, fun w hw => hfits.exists_list hf role hw⟩
  | scalar | content | image | lineBreak => simp [Body.kind] at hb

theorem accepts_of_wellFormed (h : a.WellFormed schema) : a.Accepts schema := by
  have haround : ∀ child frames v l, a.frames = child :: frames →
      child.body.close schema child.line a.ledger = (.ok (.value v), l) →
      ∃ breaks around below, splitBreaks frames = (breaks, around :: below) ∧
        (∃ body l', around.body.accept around.tag child v l = (.ok body, l')) ∧
        (child.item = true → ∃ table fields, around.body = .object table fields ∧
          ∀ w, Record.get? child.tag fields = some w → ∃ id items, w = .list id items) := by
    intro child frames v l hframes hclose
    have hnested : Nested schema (child :: frames) := hframes ▸ h.frames
    obtain ⟨breaks, around, below, rfl, hsplit, hstands, hkind, hchild⟩ :=
      exists_around_of_close hnested (by rw [hclose])
    refine ⟨breaks, around, below, hsplit, exists_accept hkind child v l, fun hitem => ?_⟩
    exact exists_list_of_standsIn hnested.2.1.of_append.1 (hitem ▸ hstands) hkind hchild
  refine ⟨haround, fun tag line e herror => ?_⟩
  unfold closeElement at herror
  split at herror
  · next hnil => cases herror; exact .inl ⟨hnil, rfl⟩
  · next f frames hframes =>
    split at herror
    · next e' l₁ hclose =>
      cases herror
      exact .inr (Body.exists_of_close_error (by rw [hclose]))
    · cases herror
    · cases herror
    · next v l₁ hclose =>
      obtain ⟨breaks, around, below, hsplit, ⟨body, l', haccept⟩, -⟩ := haround f frames v l₁ hframes hclose
      rw [deliver, hsplit] at herror
      dsimp only at herror
      rw [haccept] at herror
      cases herror

end Assembly

/-- Whatever is fed to a new assembly, in any order and going on after failures, the open elements stand in one
another as they should, and the value of an element that closes is always taken up. -/
theorem arranged_and_accepts_persist {d : Description} (hd : d.compile = .ok schema) (parts : List Part)
    (ledger : Ledger) :
    Arranged (Assembly.persist schema parts { ledger }).frames ∧
      (Assembly.persist schema parts { ledger }).Accepts schema := by
  have horderly := (Assembly.orderly_new schema ledger).persist (Description.sound_of_compile hd) parts
  exact ⟨horderly.arranged, Assembly.accepts_of_wellFormed horderly.wellFormed⟩

/-- Tags and texts that are refused, and elements that are closed by the names of others. -/
def unrulyParts : List Part :=
  [.closing "p" 0, .text ['x'] 0, .opening "card" [] 0, .opening "p" [] 0, .opening "br" [] 1,
    .opening "card" [("id", "a")] 1, .text ['x'] 1, .opening "item" [("title", "b")] 2, .opening "item" [] 2,
    .opening "title" [] 2, .closing "p" 2, .closing "card" 3, .opening "item" [] 3, .opening "title" [] 3,
    .opening "br" [] 3, .opening "b" [] 3]

theorem arranged_unrulyParts : cardDescription.compile = .ok cardSchema ∧
    (Assembly.persist cardSchema unrulyParts {}).frames.map Frame.tag = ["br", "title", "item", "card", "br", "p"] ∧
    Arranged (Assembly.persist cardSchema unrulyParts {}).frames ∧
    (Assembly.persist cardSchema unrulyParts {}).Accepts cardSchema := by
  refine ⟨compile_cardDescription, ?_, arranged_and_accepts_persist compile_cardDescription unrulyParts {}⟩
  decide +kernel

end TaggedProse
