import TaggedProse.Proofs.Element.Evaluation
import TaggedProse.Proofs.Record
import TaggedProse.Proofs.Text.Visible

/-! Where the values of element trees come from. The value of a stretch of prose, and of an element's own
text, has the line of its first visible character; every other value has the line of a tag. -/
namespace TaggedProse

/-- Which characters, and which tags with which attributes, stand on which lines. -/
structure Sites where
  char : Nat → Char → Prop
  tag : String → List (String × String) → Nat → Prop

variable {α β : Type} {S : Sites} {schema : Schema} {table : Table} {tag : String} {line : Nat}
  {attributes : List (String × String)} {children : List Tree}

/-! ### Outcomes -/

def Yields (r : Except Failure α) (R : α → Prop) : Prop :=
  match r with
  | .error _ => True
  | .ok x => R x

section Yields
variable {r : Except Failure α} {R : α → Prop} {R' : β → Prop}

theorem Yields.bind {f : α → Except Failure β} (h : Yields r R) (hf : ∀ x, R x → Yields (f x) R') :
    Yields (r.bind f) R' := by
  cases r with
  | error e => trivial
  | ok x => exact hf x h

theorem Yields.map {f : α → β} (h : Yields r R) (hf : ∀ x, R x → R' (f x)) : Yields (r.map f) R' := by
  cases r with
  | error e => trivial
  | ok x => exact hf x h

theorem Yields.mono {R' : α → Prop} (h : Yields r R) (hR : ∀ x, R x → R' x) : Yields r R' := by
  cases r with
  | error e => trivial
  | ok x => exact hR x h

end Yields

/-! ### Prose -/

def Prose.Pinned (S : Sites) (p : Prose) : Prop :=
  match p.firstLine with
  | none => firstVisible? p.passage.pieces.flatten = none
  | some n => ∃ c, firstVisible? p.passage.pieces.flatten = some c ∧ S.char n c

def Part.Pinned (S : Sites) : Part → Prop
  | .text s line => ∀ n, visibleLine? line s = some n → ∃ c, firstVisible? s = some c ∧ S.char n c
  | .opening tag attributes line => S.tag tag attributes line
  | .closing _ _ => True

def TextPinned (S : Sites) (n : Nat) (t : String) : Prop :=
  ∃ c, firstVisible? t.toList = some c ∧ S.char n c

theorem Prose.pinned_empty (S : Sites) : Prose.Pinned S {} := rfl

theorem Prose.Pinned.write {p : Prose} {s : List Char} (h : p.Pinned S)
    (hs : (Part.text s line).Pinned S) : (p.write s line).Pinned S := by
  have hflatten : (p.write s line).passage.pieces.flatten = p.passage.pieces.flatten ++ s := by
    simp [Prose.write, Passage.pieces, Passage.write]
  unfold Prose.Pinned at h ⊢
  rw [hflatten, firstVisible?_append]
  change match p.firstLine.or (visibleLine? line s) with | none => _ | some n => _
  cases hfirst : p.firstLine with
  | some n =>
    rw [hfirst] at h
    obtain ⟨c, hc, hq⟩ := h
    exact ⟨c, by rw [hc]; rfl, hq⟩
  | none =>
    rw [hfirst] at h
    rw [h, Option.none_or, Option.none_or]
    cases hline : visibleLine? line s with
    | none => exact firstVisible?_eq_none.2 (visibleLine?_eq_none.1 hline)
    | some n => exact hs n hline

theorem Prose.Pinned.lineBreak {p : Prose} (h : p.Pinned S) : p.lineBreak.Pinned S := by
  have hflatten : p.lineBreak.passage.pieces.flatten = p.passage.pieces.flatten := by
    simp [Prose.lineBreak]
  unfold Prose.Pinned at h ⊢
  rw [hflatten]
  exact h

theorem Prose.firstVisible?_text (p : Prose) :
    firstVisible? p.text.toList = firstVisible? p.passage.pieces.flatten := by
  rw [Prose.text, Passage.text, String.toList_ofList, firstVisible?_chars]

theorem Prose.Pinned.text {p : Prose} (h : p.Pinned S) (fallback : Nat) :
    (p.firstLine.getD fallback = fallback ∧ firstVisible? p.text.toList = none) ∨
      TextPinned S (p.firstLine.getD fallback) p.text := by
  unfold TextPinned
  rw [p.firstVisible?_text]
  unfold Prose.Pinned at h
  cases hfirst : p.firstLine with
  | none => rw [hfirst] at h; exact .inl ⟨rfl, h⟩
  | some n => rw [hfirst] at h; exact .inr h

theorem Prose.firstVisible?_of_not_isBlank {p : Prose} (h : p.isBlank = false) :
    firstVisible? p.text.toList ≠ none := by
  rw [p.firstVisible?_text]
  intro hnone
  have hall := firstVisible?_eq_none.1 hnone
  rw [allBlank, List.all_flatten] at hall
  exact absurd hall (by simpa [Prose.isBlank, Passage.isBlank, allBlank] using h)

/-! ### Values -/

def AttributeOn (attributes : List (String × String)) (line : Nat) (e : String × LinedValue) : Prop :=
  ∃ t, (e.1, t) ∈ attributes ∧ e.2 = .text line t

/-- The value of an element `tag`. It has the line of a tag of that name, and so have its attributes; the
values in its fields have those of their own tags. A list has the line of its first item. An element's own
text is pinned, or blank and on the line of its element. -/
inductive LinedValue.Placed (S : Sites) : String → LinedValue → Prop
  | text {tag : String} {attributes : List (String × String)} {line : Nat}
      (own : S.tag tag attributes line) (t : String) : Placed S tag (.text line t)
  | object {tag : String} {attributes : List (String × String)} {line : Nat}
      {fields : List (String × LinedValue)} (own : S.tag tag attributes line)
      (within : ∀ e ∈ fields, ¬AttributeOn attributes line e → Placed S e.1 e.2) :
      Placed S tag (.object line fields)
  | list {tag : String} {first : LinedValue} {rest : List LinedValue}
      (items : ∀ v ∈ first :: rest, Placed S tag v) : Placed S tag (.list first.line (first :: rest))
  | content {tag field t : String} {attributes : List (String × String)} {line n : Nat}
      {fields : List (String × LinedValue)} (own : S.tag tag attributes line)
      (within : ∀ e ∈ fields, e.1 = field ∨ AttributeOn attributes line e)
      (held : Record.get? field fields = some (.text n t))
      (begins : n = line ∧ firstVisible? t.toList = none ∨ TextPinned S n t) :
      Placed S tag (.content line fields field)

def LinedCommand.Placed (S : Sites) (c : LinedCommand) : Prop :=
  c.value.Placed S c.name ∨ ∃ n t, c.value = .text n t ∧ TextPinned S n t

def FieldsPlaced (S : Sites) (attributes : List (String × String)) (line : Nat)
    (fields : Record LinedValue) : Prop :=
  ∀ e ∈ fields, AttributeOn attributes line e ∨ e.2.Placed S e.1

def AttributesOn (attributes : List (String × String)) (line : Nat) (fields : Record LinedValue) : Prop :=
  ∀ e ∈ fields, AttributeOn attributes line e

section Fields
variable {fields : Record LinedValue} {v : LinedValue} {name value : String}

theorem FieldsPlaced.insert (h : FieldsPlaced S attributes line fields) (hv : v.Placed S name) :
    FieldsPlaced S attributes line (Record.insert name v fields) := by
  intro e he
  rcases Record.eq_or_mem_of_mem_insert he with rfl | he
  · exact .inr hv
  · exact h e he

theorem FieldsPlaced.within (h : FieldsPlaced S attributes line fields) :
    ∀ e ∈ fields, ¬AttributeOn attributes line e → e.2.Placed S e.1 :=
  fun e he hne => (h e he).resolve_left hne

theorem AttributesOn.placed (h : AttributesOn attributes line fields) :
    FieldsPlaced S attributes line fields := fun e he => .inl (h e he)

theorem AttributesOn.insert (h : AttributesOn attributes line fields) (hm : (name, value) ∈ attributes) :
    AttributesOn attributes line (Record.insert name (.text line value) fields) := by
  intro e he
  rcases Record.eq_or_mem_of_mem_insert he with rfl | he
  · exact ⟨value, hm, rfl⟩
  · exact h e he

theorem yields_attributeValues {rest : List (String × String)} (hr : rest ⊆ attributes)
    (h : AttributesOn attributes line fields) :
    Yields (attributeValues table line fields rest) (AttributesOn attributes line) := by
  induction rest generalizing fields with
  | nil => exact h
  | cons pair rest ih =>
    obtain ⟨hpair, hrest⟩ := List.cons_subset.1 hr
    rw [attributeValues]
    split
    · trivial
    · split
      · exact ih hrest (h.insert hpair)
      · trivial

theorem attributesOn_imageValues {rest : List (String × String)} (hr : rest ⊆ attributes)
    (h : AttributesOn attributes line fields) :
    AttributesOn attributes line (imageValues line fields rest) := by
  induction rest generalizing fields with
  | nil => exact h
  | cons pair rest ih =>
    obtain ⟨hpair, hrest⟩ := List.cons_subset.1 hr
    exact ih hrest (h.insert hpair)

theorem FieldsPlaced.takeUpItem (h : FieldsPlaced S attributes line fields) (hv : v.Placed S name) :
    FieldsPlaced S attributes line (takeUpItem name v v.line fields) := by
  unfold TaggedProse.takeUpItem
  split
  · next first items heq =>
    rcases h _ (Record.mem_of_get?_eq_some heq) with ⟨t, -, htext⟩ | hlist
    · cases htext
    · cases hlist with
      | @list _ head rest hitems =>
        refine h.insert (show LinedValue.Placed S name (.list head.line (head :: (rest ++ [v]))) from
          .list fun w hw => ?_)
        rw [← List.cons_append, List.mem_append, List.mem_singleton] at hw
        rcases hw with hw | rfl
        · exact hitems w hw
        · exact hv
  · exact h
  · refine h.insert (.list fun w hw => ?_)
    obtain rfl := List.mem_singleton.1 hw
    exact hv

end Fields

theorem yields_scalarValue (h : S.tag tag attributes line) :
    Yields (scalarValue tag attributes line children) fun v => v.Placed S tag ∧ v.line = line := by
  unfold scalarValue
  split
  · cases Tree.gatherAll (.undescribedChild tag) {} children with
    | error e => trivial
    | ok p => exact ⟨.text h p.text, rfl⟩
  · trivial

/-! ### Elements -/

section Trees
variable (refuse : String → Fault) (schema)

def TreesPinned (S : Sites) (ns : List Tree) : Prop :=
  ∀ part ∈ Tree.partsOf ns, part.Pinned S

theorem TreesPinned.cons {n : Tree} {ns : List Tree} (h : TreesPinned S (n :: ns)) :
    TreesPinned S [n] ∧ TreesPinned S ns := by
  unfold TreesPinned at h ⊢
  rw [Tree.partsOf] at h
  rw [Tree.partsOf, Tree.partsOf, List.append_nil]
  exact ⟨fun part hp => h part (List.mem_append_left _ hp),
    fun part hp => h part (List.mem_append_right _ hp)⟩

theorem TreesPinned.text {s : List Char} (h : TreesPinned S [.text s line]) :
    (Part.text s line).Pinned S := h _ List.mem_cons_self

theorem TreesPinned.element {closing : Nat}
    (h : TreesPinned S [.element tag attributes line children closing]) :
    S.tag tag attributes line ∧ TreesPinned S children := by
  unfold TreesPinned at h
  rw [Tree.partsOf, Tree.parts] at h
  exact ⟨h _ List.mem_cons_self, fun part hp => h part (by simp [hp])⟩

mutual

theorem Tree.yields_gather (n : Tree) (p : Prose) (hn : TreesPinned S [n]) (hp : p.Pinned S) :
    Yields (n.gather refuse p) (Prose.Pinned S) := by
  cases n with
  | text s line => exact hp.write hn.text
  | element tag attributes line children closing =>
    rw [Tree.gather]
    split
    · exact Tree.yields_gatherAll children p.lineBreak hn.element.2 hp.lineBreak
    · trivial

theorem Tree.yields_gatherAll (ns : List Tree) (p : Prose) (hns : TreesPinned S ns) (hp : p.Pinned S) :
    Yields (Tree.gatherAll refuse p ns) (Prose.Pinned S) := by
  match ns with
  | [] => exact hp
  | n :: ns =>
    exact (n.yields_gather p hns.cons.1 hp).bind fun q hq => Tree.yields_gatherAll ns q hns.cons.2 hq

end

theorem yields_objectValue (ht : S.tag tag attributes line) (hns : TreesPinned S children)
    {childFields : Record LinedValue → Except Failure (Record LinedValue)}
    (hc : ∀ own, FieldsPlaced S attributes line own →
      Yields (childFields own) (FieldsPlaced S attributes line)) :
    Yields (objectValue table tag attributes line children childFields) fun v =>
      v.Placed S tag ∧ v.line = line := by
  have hattributes : Yields (attributeValues table line [] attributes) (AttributesOn attributes line) :=
    yields_attributeValues (List.Subset.refl _) (List.forall_mem_nil _)
  unfold objectValue
  split
  · refine hattributes.bind fun own hown => ?_
    exact (hc own hown.placed).map fun fields h => ⟨.object ht h.within, rfl⟩
  · next field _ =>
    split
    · refine hattributes.bind fun own hown => ?_
      refine (Tree.yields_gatherAll _ children {} hns (Prose.pinned_empty S)).map fun p hp => ?_
      refine ⟨.content ht (fun e he => ?_) (Record.get?_insert_self _ _ _) (hp.text line), rfl⟩
      rcases Record.eq_or_mem_of_mem_insert he with rfl | he
      · exact .inl rfl
      · exact .inr (hown e he)
    · trivial

theorem yields_nestedValue {f : Field} {command : Bool} (ht : S.tag tag attributes line)
    (hns : TreesPinned S children)
    {childFields : Table → Record LinedValue → Except Failure (Record LinedValue)}
    (hc : ∀ table own, FieldsPlaced S attributes line own →
      Yields (childFields table own) (FieldsPlaced S attributes line)) :
    Yields (nestedValue schema tag f command attributes line children childFields) fun v =>
      v.Placed S tag ∧ v.line = line := by
  unfold nestedValue
  split
  · trivial
  · next table _ => exact yields_objectValue ht hns (hc table)

theorem yields_fieldValue {f : Field} (ht : S.tag tag attributes line) (hns : TreesPinned S children)
    {childFields : Table → Record LinedValue → Except Failure (Record LinedValue)}
    (hc : ∀ table own, FieldsPlaced S attributes line own →
      Yields (childFields table own) (FieldsPlaced S attributes line)) :
    Yields (fieldValue schema tag f attributes line children childFields) fun v =>
      v.Placed S tag ∧ v.line = line := by
  unfold fieldValue
  cases f.role with
  | scalar => exact yields_scalarValue ht
  | object => exact yields_nestedValue schema ht hns hc
  | list => exact yields_nestedValue schema ht hns hc
  | _ => trivial

mutual

theorem Tree.yields_takeUp (around : String) (table : Table) (own : List (String × String))
    (start : Nat) (n : Tree) (fields : Record LinedValue) (hn : TreesPinned S [n])
    (hf : FieldsPlaced S own start fields) :
    Yields (n.takeUp schema around table fields) (FieldsPlaced S own start) := by
  cases n with
  | text s line =>
    rw [Tree.takeUp]
    cases refuseText around s line with
    | error e => trivial
    | ok u => exact hf
  | element tag attributes line children closing =>
    obtain ⟨ht, hchildren⟩ := hn.element
    rw [Tree.takeUp]
    split
    · trivial
    · next f _ =>
      split
      · trivial
      · refine (yields_fieldValue schema ht hchildren fun t fs hfs =>
          Tree.yields_takeUpAll tag t attributes line children fs hchildren hfs).map ?_
        rintro v ⟨hv, rfl⟩
        split
        · exact hf.takeUpItem hv
        · exact hf.insert hv

theorem Tree.yields_takeUpAll (around : String) (table : Table) (own : List (String × String))
    (start : Nat) (ns : List Tree) (fields : Record LinedValue) (hns : TreesPinned S ns)
    (hf : FieldsPlaced S own start fields) :
    Yields (Tree.takeUpAll schema around table fields ns) (FieldsPlaced S own start) := by
  match ns with
  | [] => exact hf
  | n :: ns =>
    exact (n.yields_takeUp around table own start fields hns.cons.1 hf).bind fun fs hfs =>
      Tree.yields_takeUpAll around table own start ns fs hns.cons.2 hfs

end

/-! ### The paragraph -/

theorem yields_commandValue {f : Field} (ht : S.tag tag attributes line) (hns : TreesPinned S children) :
    Yields (commandValue schema tag f attributes line children) fun v => v.Placed S tag ∧ v.line = line := by
  unfold commandValue
  cases f.role with
  | content => exact yields_scalarValue ht
  | scalar => exact yields_scalarValue ht
  | object =>
    exact yields_nestedValue schema ht hns fun table own hown =>
      Tree.yields_takeUpAll schema tag table attributes line children own hns hown
  | _ => trivial

theorem yields_proseValue {p : Prose} (hp : p.Pinned S) :
    Yields (proseValue schema p) fun commands => ∀ c ∈ commands, c.Placed S := by
  unfold proseValue
  split
  · exact List.forall_mem_nil _
  · next hblank =>
    dsimp only
    split
    · trivial
    · intro c hc
      obtain rfl := List.mem_singleton.1 hc
      rcases hp.text 0 with ⟨-, hnone⟩ | hpinned
      · exact absurd hnone (p.firstVisible?_of_not_isBlank (Bool.eq_false_iff.2 hblank))
      · exact .inr ⟨_, _, rfl, hpinned⟩

structure Draft.Placed (S : Sites) (d : Draft) : Prop where
  prose : d.prose.Pinned S
  commands : ∀ c ∈ d.commands, c.Placed S

theorem Draft.Placed.emit {d : Draft} (h : d.Placed S) {before : List LinedCommand} {c : LinedCommand}
    (hb : ∀ c ∈ before, c.Placed S) (hc : c.Placed S) :
    Draft.Placed S ⟨d.commands ++ before ++ [c], {}⟩ := by
  refine ⟨Prose.pinned_empty S, fun c' hm => ?_⟩
  rcases List.mem_append.1 hm with hm | hm
  · exact (List.mem_append.1 hm).elim (h.commands c') (hb c')
  · obtain rfl := List.mem_singleton.1 hm
    exact hc

mutual

theorem Tree.yields_draft (n : Tree) (d : Draft) (hn : TreesPinned S [n]) (hd : d.Placed S) :
    Yields (n.draft schema d) (Draft.Placed S) := by
  cases n with
  | text s line => exact ⟨hd.prose.write hn.text, hd.commands⟩
  | element tag attributes line children closing =>
    have hprose := yields_proseValue schema hd.prose
    obtain ⟨ht, hchildren⟩ := hn.element
    rw [Tree.draft]
    split
    · exact Tree.yields_draftAll children _ hchildren ⟨hd.prose.lineBreak, hd.commands⟩
    · split
      · next himage =>
        refine hprose.bind fun before hbefore => ?_
        have hfields : AttributesOn attributes line (imageValues line [] attributes) :=
          attributesOn_imageValues (List.Subset.refl _) (List.forall_mem_nil _)
        cases refuseChildren imageTag children with
        | error e => trivial
        | ok u => exact hd.emit hbefore (.inl (.object (himage ▸ ht) hfields.placed.within))
      · split
        · trivial
        · refine hprose.bind fun before hbefore => ?_
          exact (yields_commandValue schema ht hchildren).map fun v hv => hd.emit hbefore (.inl hv.1)

theorem Tree.yields_draftAll (ns : List Tree) (d : Draft) (hns : TreesPinned S ns) (hd : d.Placed S) :
    Yields (Tree.draftAll schema d ns) (Draft.Placed S) := by
  match ns with
  | [] => exact hd
  | n :: ns =>
    exact (n.yields_draft d hns.cons.1 hd).bind fun d' hd' => Tree.yields_draftAll ns d' hns.cons.2 hd'

end

/-- The values of a paragraph's commands are on the lines of its tags and of the first characters of its
texts. -/
theorem yields_evaluate (hns : TreesPinned S children) :
    Yields (Tree.evaluate schema children) fun lined => ∀ c ∈ lined, c.Placed S := by
  refine (Tree.yields_draftAll schema children {} hns ⟨Prose.pinned_empty S, List.forall_mem_nil _⟩).bind
    fun d hd => (yields_proseValue schema hd.prose).map fun last hlast c hc => ?_
  exact (List.mem_append.1 hc).elim (hd.commands c) (hlast c)

end Trees

end TaggedProse
