import TaggedProse.Proofs.Assembly.Invariant
import TaggedProse.Proofs.Assembly.Run

/-! Commands conform to the schema. Each operation on a body keeps what it has gathered sound; from that
every step of the assembly keeps the stack well formed, and a run ends with admissible commands. -/
namespace TaggedProse
variable {schema : Schema} {table : Table} {f : Field} {tag name around : String} {line : Nat}
  {attributes : List (String × String)} {l l' : Ledger}

/-! ### Fields -/

theorem Table.attributes_nil (table : Table) : table.Attributes [] := ⟨Record.ascending_nil, by simp⟩

theorem Table.Attributes.insert {fields : Record Value} (h : table.Attributes fields)
    (hf : table.get? name = some f) (hrole : f.role = .attribute) (i : Nat) (t : String) :
    table.Attributes (Record.insert name (.text i t) fields) := by
  refine ⟨h.ascending.insert _ _, fun e he => ?_⟩
  rcases Record.eq_or_mem_of_mem_insert he with rfl | he
  · exact ⟨f, i, t, hf, hrole, rfl⟩
  · exact h.text e he

theorem Table.Attributes.hasFields {fields : Record Value} (h : table.Attributes fields)
    (hsound : table.Sound) : schema.HasFields table fields := by
  refine ⟨hsound, h.ascending, fun e he => ?_⟩
  obtain ⟨f, i, t, hf, hrole, ht⟩ := h.text e he
  exact ⟨f, hf, ht ▸ .text (.inl hrole)⟩

theorem Schema.HasFields.insert {fields : Record Value} (h : schema.HasFields table fields)
    (hf : table.get? name = some f) {v : Value} (hv : schema.Holds f v) :
    schema.HasFields table (Record.insert name v fields) := by
  refine ⟨h.sound, h.ascending.insert _ _, fun e he => ?_⟩
  rcases Record.eq_or_mem_of_mem_insert he with rfl | he
  · exact ⟨f, hf, hv⟩
  · exact h.holds e he

theorem Schema.HasFields.get? {fields : Record Value} (h : schema.HasFields table fields)
    (hf : table.get? name = some f) {v : Value} (hv : Record.get? name fields = some v) :
    schema.Holds f v := by
  obtain ⟨g, hg, hholds⟩ := h.holds _ (Record.mem_of_get?_eq_some hv)
  rw [hf] at hg
  cases hg
  exact hholds

theorem attributes_of_attributeFields {fields : Record Value} (h : table.Attributes fields)
    {result : Record Value}
    (hr : attributeFields table line l fields attributes = (.ok result, l')) :
    table.Attributes result := by
  induction attributes generalizing fields l with
  | nil => cases hr; exact h
  | cons a rest ih =>
    rw [attributeFields] at hr
    split at hr
    · cases hr
    · next f hf =>
      split at hr
      · next hrole => exact ih (h.insert hf hrole _ _) hr
      · cases hr

theorem texts_of_imageFields {fields : Record Value} (h : ∀ e ∈ fields, ∃ i t, e.2 = .text i t) :
    ∀ e ∈ (imageFields line l fields attributes).1, ∃ i t, e.2 = .text i t := by
  induction attributes generalizing fields l with
  | nil => exact h
  | cons a rest ih =>
    refine ih fun e he => ?_
    rcases Record.eq_or_mem_of_mem_insert he with rfl | he
    · exact ⟨_, _, rfl⟩
    · exact h e he

/-! ### Opening elements -/

theorem fits_of_openObject (schema : Schema) (hsound : table.Sound) {body : Body}
    (h : openObject table tag attributes line l = (.ok body, l')) :
    body.kind.IsOf table ∧ body.Fits schema := by
  unfold openObject at h
  split at h
  · next hplain =>
    split at h
    · cases h
    · next fields l₁ hfields =>
      cases h
      exact ⟨⟨rfl, hplain⟩,
        (attributes_of_attributeFields table.attributes_nil hfields).hasFields hsound⟩
  · next field hfield =>
    split at h
    · next hchildless =>
      split at h
      · cases h
      · next fields l₁ hfields =>
        cases h
        exact ⟨⟨rfl, hfield, hchildless⟩, attributes_of_attributeFields table.attributes_nil hfields⟩
    · cases h

theorem Field.found_of_table {command : Bool} (h : f.table schema tag command = .ok table) :
    ∃ name, f.nested? = some name ∧ schema.table? name = some table := by
  unfold Field.table at h
  split at h
  · split at h <;> cases h
  · next name hname =>
    split at h
    · next t ht => cases h; exact ⟨name, hname, ht⟩
    · cases h

theorem Field.type_of_nested? (h : f.nested? = some name) :
    f.type = .object name ∨ f.type = .list (.object name) := by
  unfold Field.nested? at h
  split at h
  · next ht => cases h; exact .inl ht
  · next ht => cases h; exact .inr ht
  · cases h

theorem fits_of_openNested (hs : schema.Sound) {command : Bool} {body : Body}
    (h : openNested schema tag f command attributes line l = (.ok body, l')) :
    ∃ name table, (f.type = .object name ∨ f.type = .list (.object name)) ∧
      schema.table? name = some table ∧ body.kind.IsOf table ∧ body.Fits schema := by
  unfold openNested at h
  split at h
  · cases h
  · next table htable =>
    obtain ⟨name, hname, hfound⟩ := Field.found_of_table htable
    obtain ⟨hof, hfits⟩ := fits_of_openObject schema (hs.table name table hfound) h
    exact ⟨name, table, Field.type_of_nested? hname, hfound, hof, hfits⟩

/-- The element of a field whose role asks for an object. -/
theorem writtenBy_of_openNested (hs : schema.Sound) (hf : f.Sound) {command : Bool} {body : Body}
    (hrole : f.role = .object ∨ f.role = .list)
    (h : openNested schema tag f command attributes line l = (.ok body, l')) :
    f.WrittenBy schema (f.role == .list) body.kind ∧ body.Fits schema := by
  obtain ⟨name, table, htype, hfound, hof, hfits⟩ := fits_of_openNested hs h
  refine ⟨?_, hfits⟩
  rcases hrole with hrole | hrole
  · obtain ⟨target, ht⟩ := hf.object hrole
    have htype : f.type = .object name := by simpa [ht] using htype
    have hitem : (f.role == .list) = false := by rw [hrole]; rfl
    exact hitem ▸ .object hrole htype hfound hof
  · obtain ⟨item, ht⟩ := hf.list hrole
    have htype : f.type = .list (.object name) := by simpa [ht] using htype
    have hitem : (f.role == .list) = true := by rw [hrole]; rfl
    exact hitem ▸ .item hrole htype hfound hof

theorem kind_of_openScalar {body : Body} (h : openScalar tag attributes line = .ok body) :
    body = .scalar {} := by
  unfold openScalar at h
  split at h <;> cases h
  rfl

theorem writtenBy_of_openCommand (hs : schema.Sound) (hf : f.Sound) {body : Body}
    (h : openCommand schema tag f attributes line l = (.ok body, l')) :
    f.WrittenBy schema false body.kind ∧ body.Fits schema := by
  unfold openCommand at h
  split at h
  · cases h
  · cases h
  · next hrole =>
    obtain rfl := kind_of_openScalar (Prod.mk.inj h).1
    exact ⟨.text (.inr hrole), trivial⟩
  · next hrole =>
    obtain rfl := kind_of_openScalar (Prod.mk.inj h).1
    exact ⟨.text (.inl hrole), trivial⟩
  · next hrole =>
    have hitem : (f.role == .list) = false := by rw [hrole]; rfl
    exact hitem ▸ writtenBy_of_openNested hs hf (.inl hrole) h

theorem writtenBy_of_openField (hs : schema.Sound) (hf : f.Sound) {body : Body}
    (h : openField schema tag f attributes line l = (.ok body, l')) :
    f.role.isElement ∧ f.WrittenBy schema (f.role == .list) body.kind ∧ body.Fits schema := by
  unfold openField at h
  split at h
  · cases h
  · cases h
  · next hrole =>
    obtain rfl := kind_of_openScalar (Prod.mk.inj h).1
    exact ⟨by simp [hrole, Role.isElement], by simpa [hrole] using .text (.inl hrole), trivial⟩
  · next hrole =>
    exact ⟨by simp [hrole, Role.isElement], writtenBy_of_openNested hs hf (.inl hrole) h⟩
  · next hrole =>
    exact ⟨by simp [hrole, Role.isElement], writtenBy_of_openNested hs hf (.inr hrole) h⟩

theorem admits_of_proseCommand {prose : Option Prose} {commands : List Command}
    (h : proseCommand schema prose l = (.ok commands, l')) : ∀ c ∈ commands, schema.Admits c := by
  unfold proseCommand at h
  split at h
  · cases h; simp
  · split at h
    · cases h; simp
    · split at h
      · cases h
      · next field hfield =>
        cases h
        intro c hc
        rw [List.mem_singleton.1 hc]
        exact .prose hfield

structure Opening.Keeps (schema : Schema) (tag : String) (b : Body) (o : Opening) : Prop where
  kind : o.parent.kind = b.kind
  fits : o.parent.Fits schema
  child : ∀ body, o.child = .ok body →
    body.Fits schema ∧ StandsIn schema tag o.item body.kind b.kind

/-- A refused child leaves the element around it as sound as before. -/
theorem Opening.Keeps.refused {b p : Body} (hkind : p.kind = b.kind) (hfits : p.Fits schema)
    {e : Failure} : Opening.Keeps schema tag b ⟨p, .error e, false, l⟩ :=
  ⟨hkind, hfits, nofun⟩

theorem forall_mem_append {commands more : List Command} (h : ∀ c ∈ commands, schema.Admits c)
    (hmore : ∀ c ∈ more, schema.Admits c) : ∀ c ∈ commands ++ more, schema.Admits c :=
  fun c hc => (List.mem_append.1 hc).elim (h c) (hmore c)

theorem keeps_openInParagraph (hs : schema.Sound) {prose : Option Prose} {commands : List Command}
    (h : (Body.paragraph prose commands).Fits schema) :
    Opening.Keeps schema tag (.paragraph prose commands)
      (openInParagraph schema prose commands tag attributes line l) := by
  unfold openInParagraph
  split
  · exact ⟨rfl, h, fun body hb => by cases hb; exact ⟨trivial, .inl rfl⟩⟩
  · split
    · split
      · exact .refused (b := .paragraph prose commands) (p := .paragraph none commands) rfl h
      · next before l₁ hbefore =>
        refine ⟨rfl, forall_mem_append (forall_mem_append h (admits_of_proseCommand hbefore)) ?_,
          fun body hb => by cases hb; exact ⟨trivial, .inr (.inl rfl)⟩⟩
        intro c hc
        rw [List.mem_singleton.1 hc]
        exact .image (texts_of_imageFields (by simp))
    · split
      · exact .refused rfl h
      · next f hf =>
        split
        · exact .refused (b := .paragraph prose commands) (p := .paragraph none commands) rfl h
        · next before l₁ hbefore =>
          refine ⟨rfl, forall_mem_append h (admits_of_proseCommand hbefore), fun body hb => ?_⟩
          obtain ⟨hwritten, hfits⟩ :=
            writtenBy_of_openCommand hs (hs.root.field hf) (Prod.ext hb rfl)
          exact ⟨hfits, .inr (.inr ⟨rfl, f, hf, hwritten⟩)⟩

theorem keeps_openInObject (hs : schema.Sound) {fields : Record Value}
    (h : (Body.object table fields).Fits schema) :
    Opening.Keeps schema tag (.object table fields)
      (openInObject schema table fields tag attributes line l) := by
  unfold openInObject
  split
  · exact .refused rfl h
  · next f hf =>
    split
    · exact .refused rfl h
    · refine ⟨rfl, h, fun body hb => ?_⟩
      obtain ⟨helement, hwritten, hfits⟩ :=
        writtenBy_of_openField hs (Schema.HasFields.sound h |>.field hf) (Prod.ext hb rfl)
      exact ⟨hfits, f, hf, helement, hwritten⟩

theorem Body.keeps_openChild (hs : schema.Sound) {b : Body} (h : b.Fits schema) :
    Opening.Keeps schema tag b (b.openChild schema around tag attributes line l) := by
  cases b with
  | paragraph prose commands => exact keeps_openInParagraph hs h
  | object table fields => exact keeps_openInObject hs h
  | scalar prose =>
    rw [openChild]
    split
    · exact ⟨rfl, h, fun body hb => by cases hb; exact ⟨trivial, rfl⟩⟩
    · exact .refused rfl h
  | content table field fields prose =>
    rw [openChild]
    split
    · exact ⟨rfl, h, fun body hb => by cases hb; exact ⟨trivial, rfl⟩⟩
    · split <;> exact .refused rfl h
  | image => exact .refused rfl h
  | lineBreak => exact .refused rfl h

/-! ### Text and closing -/

theorem Body.fits_of_write {b body : Body} {s : List Char} (h : b.Fits schema)
    (hw : b.write around s line = .ok body) : body.kind = b.kind ∧ body.Fits schema := by
  cases b with
  | paragraph prose commands => cases hw; exact ⟨rfl, h⟩
  | scalar prose => cases hw; exact ⟨rfl, h⟩
  | content table field fields prose => cases hw; exact ⟨rfl, h⟩
  | object _ _ | image | lineBreak =>
    rw [write] at hw
    cases hr : refuseText around s line with
    | error e => rw [hr] at hw; cases hw
    | ok u => rw [hr] at hw; cases hw; exact ⟨rfl, h⟩

inductive Field.Delivers (schema : Schema) (f : Field) : Bool → Value → Prop
  | text {i : Nat} {t : String} (role : f.role = .scalar ∨ f.role = .content) :
      Delivers schema f false (.text i t)
  | object {name : String} {v : Value} (role : f.role = .object) (type : f.type = .object name)
      (conforms : schema.Conforms name v) : Delivers schema f false v
  | item {name : String} {v : Value} (role : f.role = .list) (type : f.type = .list (.object name))
      (conforms : schema.Conforms name v) : Delivers schema f true v

theorem Body.conforms_of_close {b : Body} {v : Value} (hfits : b.Fits schema)
    (hof : b.kind.IsOf table) (hfound : schema.table? name = some table)
    (h : b.close schema line l = (.ok (.value v), l')) : schema.Conforms name v := by
  cases b with
  | object t fields =>
    obtain ⟨rfl, hplain⟩ := hof
    cases h
    refine .object hfound hplain hfits.ascending (fun e he => ?_) fun e he f hf => ?_
    · obtain ⟨f, hf, -⟩ := hfits.holds e he
      simp [hf]
    · obtain ⟨g, hg, hholds⟩ := hfits.holds e he
      rw [hf] at hg
      cases hg
      exact hholds
  | content t field fields prose =>
    obtain ⟨rfl, hown, hchildless⟩ := hof
    cases h
    refine .content hfound hown hchildless (hfits.ascending.insert _ _)
      (Record.get?_insert_self _ _ _) fun e he hne => ?_
    exact hfits.text e ((Record.eq_or_mem_of_mem_insert he).resolve_left fun h => hne (by rw [h]))
  | paragraph _ _ | scalar _ | image | lineBreak => exact hof.elim

theorem Field.delivers_of_close {b : Body} {item : Bool} {v : Value} (hfits : b.Fits schema)
    (hwritten : f.WrittenBy schema item b.kind)
    (h : b.close schema line l = (.ok (.value v), l')) : f.Delivers schema item v := by
  cases hb : b.kind with
  | scalar =>
    cases b <;> cases hb
    cases h
    cases hwritten with
    | text role => exact .text role
    | object _ _ _ fields => exact fields.elim
    | item _ _ _ fields => exact fields.elim
  | _ =>
    rw [hb] at hwritten
    cases hwritten with
    | object role type found fields =>
      exact .object role type (b.conforms_of_close hfits (hb ▸ fields) found h)
    | item role type found fields =>
      exact .item role type (b.conforms_of_close hfits (hb ▸ fields) found h)

theorem admits_of_close {b : Body} {commands : List Command} (hfits : b.Fits schema)
    (h : b.close schema line l = (.ok (.commands commands), l')) :
    ∀ c ∈ commands, schema.Admits c := by
  cases b with
  | paragraph prose before =>
    rw [Body.close] at h
    split at h
    · cases h
    · next last l₁ hlast =>
      cases h
      exact forall_mem_append hfits (admits_of_proseCommand hlast)
  | _ => cases h

/-! ### Taking up values -/

theorem Schema.HasFields.addItem {fields : Record Value} {v : Value} {target : String}
    (h : schema.HasFields table fields) (hf : table.get? name = some f) (hrole : f.role = .list)
    (htype : f.type = .list (.object target)) (hv : schema.Conforms target v) :
    schema.HasFields table (addItem name v line fields l).1 := by
  unfold TaggedProse.addItem
  split
  · next id items hitems =>
    -- what stands under the name already is a list of the same type
    have hlist := h.get? hf hitems
    cases hlist with
    | object role => rw [hrole] at role; cases role
    | list _ type nonempty conforms =>
      rw [htype] at type
      cases type
      refine h.insert hf (.list hrole htype (by simp) fun w hw => ?_)
      rcases List.mem_append.1 hw with hw | hw
      · exact conforms w hw
      · rw [List.mem_singleton.1 hw]
        exact hv
  · exact h
  · refine h.insert hf (.list hrole htype (by simp) fun w hw => ?_)
    rw [List.mem_singleton.1 hw]
    exact hv

theorem Body.fits_of_accept {b body : Body} {child : Frame} {v : Value} (h : b.Fits schema)
    (hdelivers : ∀ f : Field, f.WrittenBy schema child.item child.body.kind →
      f.Delivers schema child.item v)
    (hchild : child.body.kind ≠ .lineBreak ∧ child.body.kind ≠ .image)
    (hstands : StandsIn schema child.tag child.item child.body.kind b.kind)
    (ha : b.accept around child v l = (.ok body, l')) :
    body.kind = b.kind ∧ body.Fits schema := by
  cases b with
  | paragraph prose commands =>
    cases ha
    obtain hbreak | himage | ⟨hitem, f, hf, hwritten⟩ := hstands
    · exact absurd hbreak hchild.1
    · exact absurd himage hchild.2
    · refine ⟨rfl, forall_mem_append h fun c hc => ?_⟩
      rw [List.mem_singleton.1 hc]
      have hv := hdelivers f (hitem ▸ hwritten)
      rw [hitem] at hv
      cases hv with
      | text role => exact .text hf role
      | object role type conforms => exact .object hf role type conforms
  | object table fields =>
    obtain ⟨f, hf, helement, hwritten⟩ := hstands
    have hv := hdelivers f hwritten
    rw [accept] at ha
    split at ha
    · next hitem =>
      cases ha
      rw [hitem] at hv
      cases hv with
      | item role type conforms => exact ⟨rfl, h.addItem hf role type conforms⟩
    · next hitem =>
      cases ha
      rw [Bool.not_eq_true] at hitem
      rw [hitem] at hv
      refine ⟨rfl, h.insert hf ?_⟩
      cases hv with
      | text role => exact .text (.inr (role.resolve_right fun hc => by simp [hc, Role.isElement] at helement))
      | object role type conforms => exact .object role type conforms
  | scalar _ | content _ _ _ _ | image | lineBreak => cases ha

/-! ### Steps -/

namespace Assembly
variable {a a' : Assembly}

theorem wellFormed_openElement (hs : schema.Sound) (h : a.WellFormed schema) :
    (openElement schema tag attributes line a).2.WellFormed schema := by
  unfold openElement
  rcases h.frames.cases with hnil | ⟨breaks, around, below, hframes, hb, ha⟩
  · rw [hnil]
    simp only [splitBreaks, List.span_eq_takeWhile_dropWhile, List.dropWhile_nil]
    split
    · exact h
    · refine ⟨⟨fun c hc => ?_, trivial, rfl, rfl⟩, h.commands⟩
      cases hc
  · rw [hframes, splitBreaks_append hb ha]
    dsimp only
    have hnested : Nested schema (breaks ++ around :: below) := hframes ▸ h.frames
    have hkeeps : Opening.Keeps schema tag around.body
        (around.body.openChild schema around.tag tag attributes line a.ledger) :=
      Body.keeps_openChild hs hnested.of_append.1
    have hbelow := hnested.replace hb ha hkeeps.kind hkeeps.fits
    split
    · exact ⟨hbelow, h.commands⟩
    · next body hbody =>
      obtain ⟨hfits, hstands⟩ := hkeeps.child body hbody
      refine ⟨⟨hfits, hbelow, ?_⟩, h.commands⟩
      have hparent : Body.isLineBreak
          (around.body.openChild schema around.tag tag attributes line a.ledger).parent = false := by
        rw [Bool.eq_false_iff, Ne, Body.isLineBreak_iff, hkeeps.kind, ← Body.isLineBreak_iff, ha]
        simp
      rw [enclosing_append hb hparent, hkeeps.kind]
      exact hstands

theorem wellFormed_write {s : List Char} (h : a.WellFormed schema) :
    (write s line a).2.WellFormed schema := by
  unfold write
  rcases h.frames.cases with hnil | ⟨breaks, around, below, hframes, hb, ha⟩
  · rw [hnil]
    exact h
  · rw [hframes, splitBreaks_append hb ha]
    dsimp only
    have hnested : Nested schema (breaks ++ around :: below) := hframes ▸ h.frames
    split
    · exact h
    · next body hbody =>
      obtain ⟨hkind, hfits⟩ := Body.fits_of_write hnested.of_append.1 hbody
      exact ⟨hnested.replace hb ha hkind hfits, h.commands⟩

/-- The value of the element that was innermost goes to the one around it. -/
theorem wellFormed_deliver {f : Frame} {v : Value} (hf : Nested schema (f :: a.frames))
    (hc : f.body.close schema f.line l = (.ok (.value v), l')) (h : a.WellFormed schema) :
    (deliver tag line f v a).2.WellFormed schema := by
  unfold deliver
  obtain ⟨hfits, -, hstands⟩ := hf
  rcases h.frames.cases with hnil | ⟨breaks, around, below, hframes, hb, ha⟩
  · rw [hnil]
    exact h
  · rw [hframes, splitBreaks_append hb ha]
    dsimp only
    have hnested : Nested schema (breaks ++ around :: below) := hframes ▸ h.frames
    rw [hframes, enclosing_append hb ha] at hstands
    have hkind : f.body.kind ≠ .lineBreak ∧ f.body.kind ≠ .image := by
      cases hbody : f.body <;> rw [hbody] at hc <;> simp [Body.kind, Body.close] at hc ⊢
    split
    · exact ⟨hnested, h.commands⟩
    · next body l₁ haccept =>
      obtain ⟨hkind', hfits'⟩ := Body.fits_of_accept hnested.of_append.1
        (fun g hg => Field.delivers_of_close hfits hg hc) hkind hstands haccept
      exact ⟨hnested.replace hb ha hkind' hfits', h.commands⟩

theorem wellFormed_closeElement (h : a.WellFormed schema) :
    (closeElement schema tag line a).2.WellFormed schema := by
  unfold closeElement
  cases hframes : a.frames with
  | nil => exact h
  | cons f frames =>
    have hnested : Nested schema (f :: frames) := hframes ▸ h.frames
    dsimp only
    split
    · exact ⟨hnested.2.1, h.commands⟩
    · exact ⟨hnested.2.1, h.commands⟩
    · next commands l₁ hclose =>
      exact ⟨hnested.2.1, forall_mem_append h.commands (admits_of_close hnested.1 hclose)⟩
    · next v l₁ hclose =>
      exact wellFormed_deliver (a := { a with frames, ledger := l₁ }) hnested hclose
        ⟨hnested.2.1, h.commands⟩

theorem wellFormed_step (hs : schema.Sound) (part : Part) (h : a.WellFormed schema) :
    (step schema part a).2.WellFormed schema := by
  cases part with
  | opening tag attributes line => exact wellFormed_openElement hs h
  | text s line => exact wellFormed_write h
  | closing tag line => exact wellFormed_closeElement h

theorem wellFormed_run (hs : schema.Sound) (parts : List Part) (h : a.WellFormed schema) :
    (run schema parts a).2.WellFormed schema := by
  induction parts generalizing a with
  | nil => exact h
  | cons part parts ih =>
    have hstep := wellFormed_step hs part h
    rw [run]
    split
    · next a₁ heq => rw [heq] at hstep; exact ih hstep
    · next e a₁ heq => rw [heq] at hstep; exact hstep

theorem wellFormed_new (schema : Schema) (ledger : Ledger) :
    ({ ledger } : Assembly).WellFormed schema := ⟨trivial, by simp⟩

theorem eq_commands_of_finish {commands : List Command} (h : a.finish line = .ok commands) :
    commands = a.commands := by
  unfold finish at h
  split at h
  · cases h; rfl
  · split at h <;> cases h

end Assembly

/-- Whatever is fed to the assembly, the commands that come of it are admissible. -/
theorem admits_of_conclude {d : Description} {parts : List Part} {commands : List Command}
    (hd : d.compile = .ok schema)
    (h : Assembly.conclude schema parts line l = .ok (commands, l')) :
    ∀ c ∈ commands, schema.Admits c := by
  unfold Assembly.conclude at h
  split at h
  · cases h
  · next a hrun =>
    cases hfinish : a.finish line with
    | error e => rw [hfinish] at h; cases h
    | ok result =>
      rw [hfinish] at h
      cases h
      have hwf := Assembly.wellFormed_run (Description.sound_of_compile hd) parts
        (Assembly.wellFormed_new schema l)
      rw [hrun] at hwf
      rw [Assembly.eq_commands_of_finish hfinish]
      exact hwf.commands

def cardTable : Table :=
  ⟨"card", [("id", ⟨.attribute, .string⟩), ("item", ⟨.list, .list (.object "card")⟩),
    ("title", ⟨.scalar, .string⟩)]⟩

def cardRoot : Table :=
  ⟨"commands", [("text", ⟨.attribute, .string⟩), ("card", ⟨.object, .object "card"⟩)]⟩

def cardSchema : Schema := ⟨cardRoot, [("card", cardTable), ("commands", cardRoot)]⟩

def cardDescription : Description :=
  ⟨"commands", ⟨[("card", ⟨[⟨"id", .string, none⟩, ⟨"item", .list (.object "card"), none⟩,
      ⟨"title", .string, some .element⟩]⟩),
    ("commands", ⟨[⟨"text", .string, none⟩, ⟨"card", .object "card", none⟩]⟩)], by decide⟩⟩

theorem compile_cardDescription : cardDescription.compile = .ok cardSchema := by
  with_unfolding_all rfl

def cardParts : List Part :=
  [.opening "p" [] 0, .text ['H', 'i'] 0, .opening "card" [("id", "a")] 1, .opening "item" [] 2,
    .closing "item" 2, .opening "title" [] 3, .text ['T'] 3, .closing "title" 3,
    .closing "card" 4, .closing "p" 4]

def cardCommands : List Command :=
  [⟨"text", .text 0 "Hi"⟩,
    ⟨"card", .object 5 [("id", .text 1 "a"), ("item", .list 3 [.object 2 []]), ("title", .text 4 "T")]⟩]

def cardLedger : Ledger := ⟨6, [(5, 1), (4, 3), (3, 2), (2, 2), (1, 1), (0, 0)]⟩

theorem conclude_cardParts :
    Assembly.conclude cardSchema cardParts 4 {} = .ok (cardCommands, cardLedger) := rfl

theorem admits_cardCommands : cardDescription.compile = .ok cardSchema ∧
    Assembly.conclude cardSchema cardParts 4 {} = .ok (cardCommands, cardLedger) ∧
    ∀ c ∈ cardCommands, cardSchema.Admits c :=
  ⟨compile_cardDescription, conclude_cardParts,
    admits_of_conclude compile_cardDescription conclude_cardParts⟩

end TaggedProse
