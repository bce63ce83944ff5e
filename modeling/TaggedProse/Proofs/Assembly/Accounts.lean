import TaggedProse.Proofs.Assembly.Balance
import TaggedProse.Proofs.Assembly.Conformance
import TaggedProse.Proofs.Assembly.Tags
import TaggedProse.Proofs.Document.Reports
import TaggedProse.Proofs.Schema.Names

/-! Accounts of values. Every value that is made is noted, and from then on some open element or command
holds it: none is overwritten, dropped or held twice. Each operation that succeeds keeps the balance
between the notes it makes and the values that it adds. -/
namespace TaggedProse
variable {schema : Schema} {table : Table} {f : Field} {tag name around : String} {line : Nat}
  {attributes : List (String × String)} {l l' l'' : Ledger} {before after more : List Value}
  {fields result : Record Value}

/-! ### Opening elements -/

def Body.held : Body → List Value
  | .paragraph _ commands => commandNodes commands
  | .object _ fields | .content _ _ fields _ => Value.fieldNodes fields
  | .scalar _ | .image | .lineBreak => []

def Body.fields? : Body → Option (Record Value)
  | .object _ fields => some fields
  | _ => none

theorem commandNodes_append (xs ys : List Command) :
    commandNodes (xs ++ ys) = commandNodes xs ++ commandNodes ys := List.flatMap_append

def Fresh (attributes : List (String × String)) (fields : Record Value) : Prop :=
  (attributes.map Prod.fst).Nodup ∧ ∀ a ∈ attributes, Record.get? a.1 fields = none

theorem Fresh.insert {a : String × String} (h : Fresh (a :: attributes) fields) (v : Value) :
    Fresh attributes (Record.insert a.1 v fields) := by
  obtain ⟨hnames, hnew⟩ := h
  obtain ⟨ha, hrest⟩ := List.nodup_cons.1 hnames
  refine ⟨hrest, fun b hb => ?_⟩
  have hne : b.1 ≠ a.1 := fun heq => ha (heq ▸ List.mem_map.2 ⟨b, hb, rfl⟩)
  rw [Record.get?_insert_of_ne hne]
  exact hnew b (List.mem_cons_of_mem _ hb)

theorem fresh_nil (h : (attributes.map Prod.fst).Nodup) : Fresh attributes [] := ⟨h, fun _ _ => rfl⟩

theorem balances_attributeFields (hd : Fresh attributes fields)
    (h : attributeFields table line l fields attributes = (.ok result, l')) :
    l.Balances l' (Value.fieldNodes fields) (Value.fieldNodes result) := by
  induction attributes generalizing fields l with
  | nil => cases h; exact Ledger.balances_refl _ _
  | cons a rest ih =>
    have hnew := hd.2 a List.mem_cons_self
    rw [attributeFields] at h
    split at h
    · cases h
    · split at h
      · exact (Ledger.balances_insert_text hnew l line a.2).trans (ih (hd.insert _) h)
      · cases h

theorem balances_imageFields (line : Nat) (l : Ledger) (hd : Fresh attributes fields) :
    l.Balances (imageFields line l fields attributes).2 (Value.fieldNodes fields)
      (Value.fieldNodes (imageFields line l fields attributes).1) := by
  induction attributes generalizing fields l with
  | nil => exact Ledger.balances_refl l _
  | cons a rest ih =>
    have hnew := hd.2 a List.mem_cons_self
    exact (Ledger.balances_insert_text hnew l line a.2).trans (ih _ (hd.insert _))

theorem ascending_imageFields (h : Record.Ascending fields) :
    Record.Ascending (imageFields line l fields attributes).1 := by
  induction attributes generalizing fields l with
  | nil => exact h
  | cons a rest ih => exact ih (h.insert _ _)

section Open
variable {body : Body} (hd : (attributes.map Prod.fst).Nodup)
include hd

theorem balances_openObject (h : openObject table tag attributes line l = (.ok body, l')) :
    l.Balances l' [] body.held := by
  unfold openObject at h
  split at h
  · split at h
    · cases h
    · next fields l₁ hfields =>
      cases h
      exact balances_attributeFields (fresh_nil hd) hfields
  · split at h
    · split at h
      · cases h
      · next fields l₁ hfields =>
        cases h
        exact balances_attributeFields (fresh_nil hd) hfields
    · cases h

theorem balances_openNested {command : Bool}
    (h : openNested schema tag f command attributes line l = (.ok body, l')) :
    l.Balances l' [] body.held := by
  unfold openNested at h
  split at h
  · cases h
  · exact balances_openObject hd h

omit hd in
theorem balances_openScalar (h : (openScalar tag attributes line, l) = (.ok body, l')) :
    l.Balances l' [] body.held := by
  obtain ⟨hbody, rfl⟩ := Prod.mk.inj h
  obtain rfl := kind_of_openScalar hbody
  exact l.balances_refl _

theorem balances_openCommand (h : openCommand schema tag f attributes line l = (.ok body, l')) :
    l.Balances l' [] body.held := by
  unfold openCommand at h
  split at h
  · cases h
  · cases h
  · exact balances_openScalar h
  · exact balances_openScalar h
  · exact balances_openNested hd h

theorem balances_openField (h : openField schema tag f attributes line l = (.ok body, l')) :
    l.Balances l' [] body.held := by
  unfold openField at h
  split at h
  · cases h
  · cases h
  · exact balances_openScalar h
  · exact balances_openNested hd h
  · exact balances_openNested hd h

omit hd in
theorem isElement_of_openField (h : (openField schema tag f attributes line l).1 = .ok body) :
    f.role.isElement = true := by
  unfold openField at h
  cases hrole : f.role with
  | scalar | object | list => rfl
  | _ => rw [hrole] at h; cases h

omit hd in
theorem balances_proseCommand {prose : Option Prose} {commands : List Command}
    (h : proseCommand schema prose l = (.ok commands, l')) : l.Balances l' [] (commandNodes commands) := by
  unfold proseCommand at h
  split at h
  · cases h; exact l.balances_refl _
  · next p =>
    split at h
    · cases h; exact l.balances_refl _
    · split at h
      · cases h
      · cases h
        exact l.balances_note _ (v := .text l.next p.text) rfl trivial []

/-- What opening a child does to the account: with the child, the element around it holds what it held and
what is new. If the child is to be a field, it is a new one. -/
structure Opening.Accounts (l : Ledger) (tag : String) (b : Body) (o : Opening) : Prop where
  balances : ∀ body, o.child = .ok body → l.Balances o.ledger b.held (o.parent.held ++ body.held)
  vacant : ∀ body fields, o.child = .ok body → o.item = false → o.parent.fields? = some fields →
    Record.get? tag fields = none

omit hd in
theorem Opening.Accounts.refused {b p : Body} {e : Failure} :
    Opening.Accounts l tag b ⟨p, .error e, false, l'⟩ := ⟨nofun, nofun⟩

/-- A break or image is complete at once, and what is around it is no object. -/
theorem accounts_openInParagraph {prose : Option Prose} {commands : List Command} :
    Opening.Accounts l tag (.paragraph prose commands)
      (openInParagraph schema prose commands tag attributes line l) := by
  unfold openInParagraph
  split
  · refine ⟨fun body hb => ?_, fun _ _ _ _ hf => by cases hf⟩
    cases hb
    simpa [Body.held] using l.balances_refl (commandNodes commands)
  · split
    · split
      · exact .refused
      · next before l₁ hbefore =>
        refine ⟨fun body hb => ?_, fun _ _ _ _ hf => by cases hf⟩
        cases hb
        have himage := balances_imageFields line l₁ (fresh_nil hd)
        have hnote := Ledger.balances_note (imageFields line l₁ [] attributes).2 line
          (v := .object _ (imageFields line l₁ [] attributes).1) rfl
          (ascending_imageFields Record.ascending_nil) []
        have hall := (l.balances_refl (commandNodes commands)).add
          ((balances_proseCommand hbefore).add (himage.add hnote))
        simpa [Body.held, commandNodes, Value.nodes] using hall
    · split
      · exact .refused
      · split
        · exact .refused
        · next before l₁ hbefore =>
          refine ⟨fun body hb => ?_, fun _ _ _ _ hf => by cases hf⟩
          have hchild := balances_openCommand hd (Prod.ext hb rfl)
          have hall := (l.balances_refl (commandNodes commands)).add
            ((balances_proseCommand hbefore).add hchild)
          simpa [Body.held, commandNodes_append] using hall

theorem accounts_openInObject :
    Opening.Accounts l tag (.object table fields)
      (openInObject schema table fields tag attributes line l) := by
  unfold openInObject
  split
  · exact .refused
  · next f hf =>
    split
    · exact .refused
    · next hnew =>
      refine ⟨fun body hb => ?_, fun body fields' hb hitem hfields => ?_⟩
      · have hchild := balances_openField hd (Prod.ext hb rfl)
        exact (l.balances_refl (Value.fieldNodes fields)).add hchild
      · cases hfields
        have helement := isElement_of_openField hb
        have hlist : (f.role != .list) = true := by simpa using hitem
        simpa [helement, hlist, Record.contains] using hnew

theorem Body.accounts_openChild (b : Body) :
    Opening.Accounts l tag b (b.openChild schema around tag attributes line l) := by
  cases b with
  | paragraph prose commands => exact accounts_openInParagraph hd
  | object table fields => exact accounts_openInObject hd
  | scalar prose =>
    rw [openChild]
    split
    · refine ⟨fun body hb => ?_, fun _ _ _ _ hf => by cases hf⟩
      cases hb
      exact l.balances_refl []
    · exact .refused
  | content table field fields prose =>
    rw [openChild]
    split
    · refine ⟨fun body hb => ?_, fun _ _ _ _ hf => by cases hf⟩
      cases hb
      simpa [Body.held] using l.balances_refl (Value.fieldNodes fields)
    · split <;> exact .refused
  | image => exact .refused
  | lineBreak => exact .refused

end Open

/-! ### Text and closing -/

theorem Body.held_write {b body : Body} {s : List Char} (h : b.write around s line = .ok body) :
    body.held = b.held := by
  cases b with
  | paragraph prose commands => cases h; rfl
  | scalar prose => cases h; rfl
  | content table field fields prose => cases h; rfl
  | object _ _ | image | lineBreak =>
    rw [write] at h
    cases hs : refuseText around s line with
    | error e => rw [hs] at h; cases h
    | ok u => rw [hs] at h; cases h; rfl

def Closed.held : Closed → List Value
  | .value v => v.nodes
  | .commands l => commandNodes l
  | .nothing => []

def Body.OwnVacant (b : Body) : Prop :=
  ∀ table field fields prose, b = .content table field fields prose → Record.get? field fields = none

theorem Body.balances_close {b : Body} {closed : Closed} (hfits : b.Fits schema) (hown : b.OwnVacant)
    (h : b.close schema line l = (.ok closed, l')) : l.Balances l' b.held closed.held := by
  cases b with
  | paragraph prose commands =>
    rw [close] at h
    split at h
    · cases h
    · next last l₁ hlast =>
      cases h
      have hall := (l.balances_refl (commandNodes commands)).add (balances_proseCommand hlast)
      rwa [← commandNodes_append] at hall
  | scalar prose =>
    cases h
    exact l.balances_note line (v := .text l.next prose.text) rfl trivial []
  | object table fields =>
    cases h
    exact l.balances_note line (v := .object l.next fields) rfl hfits.ascending (Value.fieldNodes fields)
  | content table field fields prose =>
    cases h
    have htext := Ledger.balances_insert_text (hown table field fields prose rfl) l (prose.firstLine.getD line)
      prose.text
    have hall := Ledger.balances_note (l.note (prose.firstLine.getD line)) line
      (v := .content (l.next + 1) (Record.insert field (.text l.next prose.text) fields) field) rfl
      (hfits.ascending.insert _ _)
    exact htext.trans (hall _)
  | image => cases h; exact Ledger.balances_refl _ _
  | lineBreak => cases h; exact Ledger.balances_refl _ _

/-! ### Taking up values -/

theorem balances_addItem (hfits : schema.HasFields table fields) (hf : table.get? name = some f)
    (hrole : f.role = .list) (v : Value) (line : Nat) (l : Ledger) :
    l.Balances (addItem name v line fields l).2 (Value.fieldNodes fields ++ v.nodes)
      (Value.fieldNodes (addItem name v line fields l).1) := by
  unfold addItem
  cases hname : Record.get? name fields with
  | none =>
    have hnote := Ledger.balances_note l line (v := .list l.next [v]) rfl trivial
      (Value.fieldNodes fields ++ v.nodes)
    refine hnote.perm (List.Perm.refl _) ?_
    have hperm := (Value.fieldNodes_insert hname (.list l.next [v])).symm
    simpa [Value.nodes, Value.itemNodes] using hperm
  | some w =>
    -- what stands under the name already is a list
    cases hfits.get? hf hname with
    | text role => simp [hrole] at role
    | object role => simp [hrole] at role
    | list role type nonempty conforms => exact Ledger.balances_insert_item hfits.ascending hname l v

theorem Body.balances_accept {b body : Body} {child : Frame} {v : Value} (hfits : b.Fits schema)
    (hstands : StandsIn schema child.tag child.item child.body.kind b.kind)
    (hvacant : child.item = false → ∀ fields, b.fields? = some fields → Record.get? child.tag fields = none)
    (h : b.accept around child v l = (.ok body, l')) : l.Balances l' (b.held ++ v.nodes) body.held := by
  cases b with
  | paragraph prose commands =>
    cases h
    simpa [held, commandNodes_append, commandNodes] using l.balances_refl (commandNodes commands ++ v.nodes)
  | object table fields =>
    obtain ⟨f, hf, -, hwritten⟩ := hstands
    rw [accept] at h
    split at h
    · next hitem =>
      cases h
      rw [hitem] at hwritten
      cases hwritten with
      | item role type found fields => exact balances_addItem hfits hf role v child.line l
    · next hitem =>
      cases h
      have hnew := hvacant (by simpa using hitem) fields rfl
      exact (l.balances_refl _).perm (List.Perm.refl _) (Value.fieldNodes_insert hnew v).symm
  | scalar _ | content _ _ _ _ | image | lineBreak => cases h

/-! ### Steps -/

def fieldsAround (frames : List Frame) : Option (Record Value) :=
  (Assembly.splitBreaks frames).2.head?.bind (·.body.fields?)

/-- Every open element that is to be a field has its place free in the object around it. -/
def Vacant : List Frame → Prop
  | [] => True
  | f :: below => Vacant below ∧ (f.body.isLineBreak = false → f.item = false →
      ∀ fields, fieldsAround below = some fields → Record.get? f.tag fields = none)

theorem fieldsAround_append {breaks below : List Frame} {f : Frame}
    (hb : ∀ b ∈ breaks, b.body.isLineBreak = true) (hf : f.body.isLineBreak = false) :
    fieldsAround (breaks ++ f :: below) = f.body.fields? := by
  rw [fieldsAround, Assembly.splitBreaks_append hb hf]
  rfl

/-- What is under line breaks may change. -/
theorem Vacant.replace {breaks below : List Frame} {f : Frame} {body : Body}
    (h : Vacant (breaks ++ f :: below)) (hb : ∀ b ∈ breaks, b.body.isLineBreak = true)
    (hf : f.body.isLineBreak = false) : Vacant (breaks ++ { f with body } :: below) := by
  induction breaks with
  | nil => exact ⟨h.1, fun _ => h.2 hf⟩
  | cons b breaks ih =>
    have hbreak := hb b List.mem_cons_self
    refine ⟨ih h.1 fun c hc => hb c (List.mem_cons_of_mem _ hc), fun hno => ?_⟩
    rw [hbreak] at hno
    cases hno

theorem Field.WrittenBy.found {f : Field} {item : Bool} {field : String}
    (h : f.WrittenBy schema item (.content table field)) :
    ∃ name, schema.table? name = some table ∧ table.content? = some field := by
  cases h with
  | object role type found fields => exact ⟨_, fields.1 ▸ found, fields.1 ▸ fields.2.1⟩
  | item role type found fields => exact ⟨_, fields.1 ▸ found, fields.1 ▸ fields.2.1⟩

/-- The place for an element's own text is free: only attributes are in its fields. -/
theorem Nested.ownVacant (hn : schema.Named) {f : Frame} {below : List Frame}
    (h : Nested schema (f :: below)) : f.body.OwnVacant := by
  intro table field fields prose hbody
  obtain ⟨hfits, -, hstands⟩ := h
  rw [hbody] at hfits hstands
  have hwritten : ∃ g : Field, ∃ item, g.WrittenBy schema item (.content table field) := by
    cases hkind : enclosing below with
    | none => rw [hkind] at hstands; cases hstands.2
    | some around =>
      rw [hkind] at hstands
      cases around with
      | paragraph =>
        rcases hstands with hbreak | himage | ⟨-, g, -, hwritten⟩
        · cases hbreak
        · cases himage
        · exact ⟨g, _, hwritten⟩
      | object table =>
        obtain ⟨g, -, -, hwritten⟩ := hstands
        exact ⟨g, _, hwritten⟩
      | _ => cases hstands
  obtain ⟨_, _, hwritten⟩ := hwritten
  obtain ⟨name, hfound, hcontent⟩ := hwritten.found
  cases hget : Record.get? field fields with
  | none => rfl
  | some v =>
    obtain ⟨g, i, t, hg, hrole, -⟩ := hfits.text _ (Record.mem_of_get?_eq_some hget)
    have hcontents := (hn name table hfound).role_of_content? hcontent hg
    rw [hrole] at hcontents
    cases hcontents

def Part.Distinct : Part → Prop
  | .opening _ attributes _ => (attributes.map Prod.fst).Nodup
  | .text _ _ | .closing _ _ => True

namespace Assembly
open scoped List
variable {a a' : Assembly}

def held (a : Assembly) : List Value := commandNodes a.commands ++ a.frames.flatMap (·.body.held)

/-- What is held on top of the stack may as well be held by an element under it. -/
theorem perm_append_held (xs ys zs ws : List Value) :
    xs ++ (ys ++ (zs ++ ws)) ~ ys ++ ((zs ++ xs) ++ ws) :=
  calc xs ++ (ys ++ (zs ++ ws))
    _ ~ ys ++ (xs ++ (zs ++ ws)) := List.perm_append_comm_assoc xs ys (zs ++ ws)
    _ ~ ys ++ (zs ++ (xs ++ ws)) := (List.perm_append_comm_assoc xs zs ws).append_left ys
    _ = ys ++ ((zs ++ xs) ++ ws) := by rw [List.append_assoc]

theorem balances_openElement (hs : schema.Sound) (hw : a.WellFormed schema) (hv : Vacant a.frames)
    (hd : (attributes.map Prod.fst).Nodup) (h : openElement schema tag attributes line a = (.ok (), a')) :
    a.ledger.Balances a'.ledger a.held a'.held ∧ Vacant a'.frames := by
  unfold openElement at h
  rcases hw.frames.cases with hnil | ⟨breaks, around, below, hframes, hb, ha⟩
  · rw [hnil] at h
    simp only [splitBreaks, List.span_eq_takeWhile_dropWhile, List.dropWhile_nil] at h
    split at h
    · cases h
    · cases h
      refine ⟨?_, trivial, fun _ _ fields hfields => ?_⟩
      · simpa [held, hnil, Body.held, commandNodes] using a.ledger.balances_refl (commandNodes a.commands)
      · cases hfields
  · rw [hframes, splitBreaks_append hb ha] at h
    dsimp only at h
    have hfits := (hframes ▸ hw.frames : Nested schema (breaks ++ around :: below)).of_append.1
    have hkeeps : Opening.Keeps schema tag around.body
        (around.body.openChild schema around.tag tag attributes line a.ledger) :=
      Body.keeps_openChild hs hfits
    have hopening : Opening.Accounts a.ledger tag around.body
        (around.body.openChild schema around.tag tag attributes line a.ledger) :=
      Body.accounts_openChild hd around.body
    rw [hframes] at hv
    generalize around.body.openChild schema around.tag tag attributes line a.ledger = o at h hkeeps hopening
    split at h
    · cases h
    · next body hbody =>
      cases h
      have hparent : o.parent.isLineBreak = false := by
        rw [Bool.eq_false_iff, Ne, Body.isLineBreak_iff, hkeeps.kind, ← Body.isLineBreak_iff, ha]
        simp
      refine ⟨?_, hv.replace hb ha, fun _ hitem fields hfields => ?_⟩
      · have hall := (hopening.balances body hbody).frame
          (commandNodes a.commands ++ breaks.flatMap (·.body.held)) (below.flatMap (·.body.held))
        refine hall.perm ?_ ?_
        · simp [held, hframes]
        · have hperm := (perm_append_held body.held (breaks.flatMap (·.body.held)) o.parent.held
            (below.flatMap (·.body.held))).symm.append_left (commandNodes a.commands)
          simpa [held] using hperm
      · rw [fieldsAround_append hb hparent] at hfields
        exact hopening.vacant body fields hbody hitem hfields

theorem balances_write {s : List Char} (hw : a.WellFormed schema) (hv : Vacant a.frames)
    (h : write s line a = (.ok (), a')) :
    a.ledger.Balances a'.ledger a.held a'.held ∧ Vacant a'.frames := by
  unfold write at h
  rcases hw.frames.cases with hnil | ⟨breaks, around, below, hframes, hb, ha⟩
  · rw [hnil] at h
    obtain ⟨-, rfl⟩ := Prod.mk.inj h
    exact ⟨a.ledger.balances_refl _, hv⟩
  · rw [hframes, splitBreaks_append hb ha] at h
    dsimp only at h
    split at h
    · cases h
    · next body hbody =>
      cases h
      rw [hframes] at hv
      refine ⟨?_, hv.replace hb ha⟩
      have hsame : held { a with frames := breaks ++ { around with body } :: below } = a.held := by
        simp [held, hframes, Body.held_write hbody]
      rw [hsame]
      exact a.ledger.balances_refl _

/-- The value of an element that has closed, which the elements and commands do not hold any more, is held
by the element around it. -/
theorem balances_deliver {f : Frame} {v : Value} (hf : Nested schema (f :: a.frames))
    (hv : Vacant (f :: a.frames)) (hc : f.body.close schema f.line l = (.ok (.value v), l'))
    (h : deliver tag line f v a = (.ok (), a')) :
    a.ledger.Balances a'.ledger (commandNodes a.commands ++ (v.nodes ++ a.frames.flatMap (·.body.held)))
      a'.held ∧ Vacant a'.frames := by
  unfold deliver at h
  obtain ⟨-, hbelow, hstands⟩ := hf
  obtain ⟨hvacant, hplace⟩ := hv
  rcases hbelow.cases with hnil | ⟨breaks, around, below, hframes, hb, ha⟩
  · rw [hnil] at h
    cases h
  · rw [hframes, splitBreaks_append hb ha] at h
    dsimp only at h
    rw [hframes] at hstands hbelow hvacant
    rw [hframes, fieldsAround_append hb ha] at hplace
    rw [enclosing_append hb ha] at hstands
    have hbody : f.body.isLineBreak = false := by
      cases hkind : f.body <;> rw [hkind] at hc
      case lineBreak => cases hc
      all_goals rfl
    split at h
    · cases h
    · next body ledger haccept =>
      cases h
      have haround := Body.balances_accept hbelow.of_append.1 hstands (hplace hbody) haccept
      refine ⟨?_, hvacant.replace hb ha⟩
      have hall := haround.frame (commandNodes a.commands ++ breaks.flatMap (·.body.held))
        (below.flatMap (·.body.held))
      refine hall.perm ?_ ?_
      · have hperm := (perm_append_held v.nodes (breaks.flatMap (·.body.held)) around.body.held
          (below.flatMap (·.body.held))).append_left (commandNodes a.commands)
        simpa [hframes] using hperm
      · simp [held]

theorem balances_closeElement (hn : schema.Named) (hw : a.WellFormed schema) (hv : Vacant a.frames)
    (h : closeElement schema tag line a = (.ok (), a')) :
    a.ledger.Balances a'.ledger a.held a'.held ∧ Vacant a'.frames := by
  unfold closeElement at h
  cases hframes : a.frames with
  | nil => rw [hframes] at h; cases h
  | cons f frames =>
    have hnested : Nested schema (f :: frames) := hframes ▸ hw.frames
    rw [hframes] at h hv
    -- what closing leaves behind, next to what the other elements and the commands hold
    have hclose : ∀ {closed : Closed} {ledger : Ledger},
        f.body.close schema f.line a.ledger = (.ok closed, ledger) →
        a.ledger.Balances ledger a.held
          (commandNodes a.commands ++ (closed.held ++ frames.flatMap (·.body.held))) := by
      intro closed ledger hclosed
      have hbody := Body.balances_close hnested.1 (hnested.ownVacant hn) hclosed
      have hall := hbody.frame (commandNodes a.commands) (frames.flatMap (·.body.held))
      simpa [held, hframes] using hall
    dsimp only at h
    split at h
    · cases h
    · next ledger hclosed =>
      cases h
      exact ⟨hclose hclosed, hv.1⟩
    · next more ledger hclosed =>
      cases h
      have hall := hclose hclosed
      rw [← List.append_assoc, Closed.held, ← commandNodes_append] at hall
      exact ⟨hall, hv.1⟩
    · next v ledger hclosed =>
      obtain ⟨hdeliver, hvacant⟩ := balances_deliver hnested hv hclosed h
      exact ⟨(hclose hclosed).trans hdeliver, hvacant⟩

structure Tidy (schema : Schema) (a : Assembly) : Prop where
  wellFormed : a.WellFormed schema
  vacant : Vacant a.frames
  settled : a.Settled

theorem tidy_new (schema : Schema) (ledger : Ledger) : Tidy schema { ledger } :=
  ⟨wellFormed_new schema ledger, trivial, fun hc => by cases hc⟩

theorem balances_step (hs : schema.Sound) (hn : schema.Named) {part : Part} (hd : part.Distinct)
    (ht : a.Tidy schema) (h : step schema part a = (.ok (), a')) :
    a.ledger.Balances a'.ledger a.held a'.held ∧ a'.Tidy schema := by
  have hw := wellFormed_step hs part ht.wellFormed
  have hstanding := Standing.of_step ⟨ht.wellFormed.frames.rooted, ht.settled⟩ h
  rw [h] at hw
  cases part with
  | opening tag attributes line =>
    obtain ⟨hbalances, hvacant⟩ := balances_openElement hs ht.wellFormed ht.vacant hd h
    exact ⟨hbalances, hw, hvacant, hstanding.settled⟩
  | text s line =>
    obtain ⟨hbalances, hvacant⟩ := balances_write ht.wellFormed ht.vacant h
    exact ⟨hbalances, hw, hvacant, hstanding.settled⟩
  | closing tag line =>
    obtain ⟨hbalances, hvacant⟩ := balances_closeElement hn ht.wellFormed ht.vacant h
    exact ⟨hbalances, hw, hvacant, hstanding.settled⟩

/-- Over a whole run, exactly what is noted is held in the end beside what was held before. -/
theorem balances_run (hs : schema.Sound) (hn : schema.Named) {parts : List Part}
    (hd : ∀ part ∈ parts, part.Distinct) (ht : a.Tidy schema) (h : run schema parts a = (.ok (), a')) :
    a.ledger.Balances a'.ledger a.held a'.held ∧ a'.Tidy schema := by
  induction parts generalizing a with
  | nil =>
    cases h
    exact ⟨Ledger.balances_refl _ _, ht⟩
  | cons part parts ih =>
    obtain ⟨a₁, hstep, hrun⟩ := exists_of_run_cons h
    obtain ⟨hfirst, ht₁⟩ := balances_step hs hn (hd part List.mem_cons_self) ht hstep
    obtain ⟨hrest, ht'⟩ := ih (fun p hp => hd p (List.mem_cons_of_mem _ hp)) ht₁ hrun
    exact ⟨hfirst.trans hrest, ht'⟩

end Assembly

end TaggedProse
