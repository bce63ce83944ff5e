import TaggedProse.Proofs.Assembly.Conformance
import TaggedProse.Proofs.Element.Bare
import TaggedProse.Proofs.Element.Places
import TaggedProse.Proofs.Text.Words

/-! Squeezed texts. Every text that an element collects is squeezed between its hard breaks, at any depth.
Attributes are no such texts: they stay as they are written. -/
namespace TaggedProse
variable {schema : Schema} {table : Table} {f : Field} {tag : String} {line : Nat}
  {attributes : List (String × String)} {children : List Tree} {written : List (String × String) → Prop}

def IsSqueezed (t : String) : Prop :=
  ∃ segments, t.toList = joinWith '\n' segments ∧ ∀ s ∈ segments, squeeze s = s

/-- The segments are the lines. -/
theorem isSqueezed_iff {t : String} : IsSqueezed t ↔ ∀ s ∈ splitLines t.toList, squeeze s = s := by
  constructor
  · rintro ⟨segments, ht, hsegments⟩
    rw [ht]
    by_cases hne : segments = []
    · subst hne
      decide
    · rwa [splitLines_joinWith hne]
      intro s hs
      rw [← hsegments s hs]
      exact newlines_squeeze s
  · intro h
    exact ⟨splitLines t.toList, (joinWith_splitLines _).symm, h⟩

instance (t : String) : Decidable (IsSqueezed t) := decidable_of_iff _ isSqueezed_iff.symm

theorem Prose.isSqueezed_text (p : Prose) : IsSqueezed p.text := by
  refine ⟨p.passage.pieces.map squeeze, by rw [Prose.text, Passage.text, String.toList_ofList, Passage.chars],
    fun s hs => ?_⟩
  obtain ⟨piece, -, rfl⟩ := List.mem_map.1 hs
  exact squeeze_squeeze piece

/-- All texts in the value of this field are squeezed, except those of attributes. -/
inductive Schema.Tidy (schema : Schema) : Field → Value → Prop
  | asWritten {f : Field} (role : f.role = .attribute) (id : Nat) (t : String) : Tidy schema f (.text id t)
  | text {t : String} (squeezed : IsSqueezed t) (f : Field) (id : Nat) : Tidy schema f (.text id t)
  | object {f : Field} {name : String} {table : Table} {fields : List (String × Value)}
      (nested : f.nested? = some name) (found : schema.table? name = some table)
      (declared : ∀ e ∈ fields, (table.get? e.1).isSome)
      (within : ∀ e ∈ fields, ∀ g, table.get? e.1 = some g → Tidy schema g e.2) (id : Nat) :
      Tidy schema f (.object id fields)
  | content {f : Field} {name : String} {table : Table} {fields : List (String × Value)}
      (nested : f.nested? = some name) (found : schema.table? name = some table)
      (declared : ∀ e ∈ fields, (table.get? e.1).isSome)
      (within : ∀ e ∈ fields, ∀ g, table.get? e.1 = some g → Tidy schema g e.2) (id : Nat) (field : String) :
      Tidy schema f (.content id fields field)
  | list {f : Field} {items : List Value} (each : ∀ v ∈ items, Tidy schema f v) (id : Nat) :
      Tidy schema f (.list id items)

/-- All texts in the command are squeezed, except those of attributes. The fields of an image are attributes
that `written` holds of. -/
inductive Command.Tidy (schema : Schema) (written : List (String × String) → Prop) : Command → Prop
  | image {attributes : List (String × String)} {fields : List (String × Value)} (tag : written attributes)
      (texts : ∀ e ∈ fields, ∃ i t, e.2 = .text i t ∧ (e.1, t) ∈ attributes) (id : Nat) :
      Tidy schema written ⟨imageTag, .object id fields⟩
  | prose {field t : String} (target : schema.root.prose? = some field) (squeezed : IsSqueezed t) (id : Nat) :
      Tidy schema written ⟨field, .text id t⟩
  | element {name : String} {f : Field} {v : Value} (found : schema.command? name = some f)
      (role : f.role ≠ .attribute) (tidy : schema.Tidy f v) : Tidy schema written ⟨name, v⟩

def FieldsTidy (schema : Schema) (table : Table) (fields : Record LinedValue) : Prop :=
  ∀ e ∈ fields, ∃ g, table.get? e.1 = some g ∧ schema.Tidy g e.2.bare

namespace FieldsTidy
variable {fields : Record LinedValue} {name : String} {v : LinedValue}

theorem nil : FieldsTidy schema table [] := List.forall_mem_nil _

theorem insert (h : FieldsTidy schema table fields) (hf : table.get? name = some f) (hv : schema.Tidy f v.bare) :
    FieldsTidy schema table (Record.insert name v fields) := by
  intro e he
  rcases Record.eq_or_mem_of_mem_insert he with rfl | he
  · exact ⟨f, hf, hv⟩
  · exact h e he

theorem takeUpItem (h : FieldsTidy schema table fields) (hf : table.get? name = some f) (hv : schema.Tidy f v.bare)
    (line : Nat) : FieldsTidy schema table (takeUpItem name v line fields) := by
  unfold TaggedProse.takeUpItem
  split
  · next first items heq =>
    obtain ⟨g, hg, hlist⟩ := h _ (Record.mem_of_get?_eq_some heq)
    rw [hf] at hg
    cases hg
    refine h.insert hf ?_
    rw [LinedValue.bare] at hlist ⊢
    cases hlist with
    | list each =>
      refine .list (fun w hw => ?_) 0
      rw [LinedValue.bareItems_append, List.mem_append] at hw
      rcases hw with hw | hw
      · exact each w hw
      · obtain rfl := List.mem_singleton.1 hw
        exact hv
  · exact h
  · refine h.insert hf (.list (fun w hw => ?_) 0)
    obtain rfl := List.mem_singleton.1 hw
    exact hv

theorem within (h : FieldsTidy schema table fields) :
    (∀ e ∈ LinedValue.bareFields fields, (table.get? e.1).isSome) ∧
      ∀ e ∈ LinedValue.bareFields fields, ∀ g, table.get? e.1 = some g → schema.Tidy g e.2 := by
  rw [LinedValue.bareFields_eq_map]
  constructor
  · intro e he
    obtain ⟨e', he', rfl⟩ := List.mem_map.1 he
    obtain ⟨g, hg, -⟩ := h e' he'
    simp [hg]
  · intro e he g hg
    obtain ⟨e', he', rfl⟩ := List.mem_map.1 he
    obtain ⟨g', hg', htidy⟩ := h e' he'
    rw [hg'] at hg
    cases hg
    exact htidy

end FieldsTidy

theorem yields_attributeValues_tidy {fields : Record LinedValue} (h : FieldsTidy schema table fields) :
    Yields (attributeValues table line fields attributes) (FieldsTidy schema table) := by
  induction attributes generalizing fields with
  | nil => exact h
  | cons pair rest ih =>
    rw [attributeValues]
    split
    · trivial
    · next f hf =>
      split
      · next hrole => exact ih (h.insert hf (.asWritten hrole 0 pair.2))
      · trivial

theorem Table.exists_get?_of_content? {field : String} (h : table.content? = some field) :
    ∃ f, table.get? field = some f := by
  obtain ⟨⟨name, f⟩, hfind, rfl⟩ := Option.map_eq_some_iff.1 h
  exact Option.isSome_iff_exists.1 (List.lookup_isSome_iff.2 ⟨_, List.mem_of_find?_eq_some hfind, by simp⟩)

theorem yields_scalarValue_tidy : Yields (scalarValue tag attributes line children) fun v => schema.Tidy f v.bare := by
  unfold scalarValue
  split
  · cases Tree.gatherAll (.undescribedChild tag) {} children with
    | error e => trivial
    | ok p => exact .text p.isSqueezed_text f 0
  · trivial

theorem yields_nestedValue_tidy {command : Bool}
    {childFields : Table → Record LinedValue → Except Failure (Record LinedValue)}
    (hc : ∀ table own, FieldsTidy schema table own → Yields (childFields table own) (FieldsTidy schema table)) :
    Yields (nestedValue schema tag f command attributes line children childFields) fun v => schema.Tidy f v.bare := by
  unfold nestedValue
  split
  · trivial
  · next table htable =>
    obtain ⟨name, hnested, hfound⟩ := Field.found_of_table htable
    have hattributes : Yields (attributeValues table line [] attributes) (FieldsTidy schema table) :=
      yields_attributeValues_tidy .nil
    unfold objectValue
    split
    · exact hattributes.bind fun own hown => (hc table own hown).map fun fields h =>
        .object hnested hfound h.within.1 h.within.2 0
    · next field hfield =>
      obtain ⟨g, hg⟩ := Table.exists_get?_of_content? hfield
      split
      · refine hattributes.bind fun own hown => ?_
        cases Tree.gatherAll table.refuse {} children with
        | error e => trivial
        | ok p =>
          have htext : schema.Tidy g (LinedValue.text (p.firstLine.getD line) p.text).bare :=
            .text p.isSqueezed_text g 0
          have hfields := hown.insert hg htext
          exact .content hnested hfound hfields.within.1 hfields.within.2 0 field
      · trivial

theorem yields_fieldValue_tidy
    {childFields : Table → Record LinedValue → Except Failure (Record LinedValue)}
    (hc : ∀ table own, FieldsTidy schema table own → Yields (childFields table own) (FieldsTidy schema table)) :
    Yields (fieldValue schema tag f attributes line children childFields) fun v => schema.Tidy f v.bare := by
  unfold fieldValue
  cases f.role with
  | scalar => exact yields_scalarValue_tidy
  | object => exact yields_nestedValue_tidy hc
  | list => exact yields_nestedValue_tidy hc
  | _ => trivial

mutual

theorem Tree.yields_takeUp_tidy (around : String) (table : Table) (n : Tree) (fields : Record LinedValue)
    (hf : FieldsTidy schema table fields) :
    Yields (n.takeUp schema around table fields) (FieldsTidy schema table) := by
  cases n with
  | text s line =>
    rw [Tree.takeUp]
    cases refuseText around s line with
    | error e => trivial
    | ok u => exact hf
  | element tag attributes line children closing =>
    rw [Tree.takeUp]
    split
    · trivial
    · next f hfound =>
      split
      · trivial
      · refine (yields_fieldValue_tidy fun t fs hfs =>
          Tree.yields_takeUpAll_tidy tag t children fs hfs).map fun v hv => ?_
        split
        · exact hf.takeUpItem hfound hv line
        · exact hf.insert hfound hv

theorem Tree.yields_takeUpAll_tidy (around : String) (table : Table) (ns : List Tree) (fields : Record LinedValue)
    (hf : FieldsTidy schema table fields) :
    Yields (Tree.takeUpAll schema around table fields ns) (FieldsTidy schema table) := by
  match ns with
  | [] => exact hf
  | n :: ns =>
    exact (n.yields_takeUp_tidy around table fields hf).bind fun fs hfs =>
      Tree.yields_takeUpAll_tidy around table ns fs hfs

end

/-! ### The paragraph -/

def CommandsTidy (schema : Schema) (written : List (String × String) → Prop) (commands : List LinedCommand) : Prop :=
  ∀ c ∈ commands, c.bare.Tidy schema written

theorem CommandsTidy.append {commands more : List LinedCommand} (h : CommandsTidy schema written commands)
    (hmore : CommandsTidy schema written more) : CommandsTidy schema written (commands ++ more) :=
  fun c hc => (List.mem_append.1 hc).elim (h c) (hmore c)

theorem CommandsTidy.singleton {c : LinedCommand} (h : c.bare.Tidy schema written) :
    CommandsTidy schema written [c] := by
  intro c' hc
  obtain rfl := List.mem_singleton.1 hc
  exact h

def ImagesWritten (written : List (String × String) → Prop) (ns : List Tree) : Prop :=
  TreesPinned ⟨fun _ _ => True, fun tag attributes _ => tag = imageTag → written attributes⟩ ns

theorem yields_proseValue_tidy (p : Prose) :
    Yields (proseValue schema p) (CommandsTidy schema written) := by
  unfold proseValue
  split
  · exact List.forall_mem_nil _
  · dsimp only
    split
    · trivial
    · next field hfield => exact .singleton (.prose hfield p.isSqueezed_text 0)

theorem yields_commandValue_tidy :
    Yields (commandValue schema tag f attributes line children) fun v =>
      f.role ≠ .attribute ∧ schema.Tidy f v.bare := by
  unfold commandValue
  cases hrole : f.role with
  | content => exact yields_scalarValue_tidy.mono fun v hv => ⟨nofun, hv⟩
  | scalar => exact yields_scalarValue_tidy.mono fun v hv => ⟨nofun, hv⟩
  | object =>
    have hvalue : Yields (nestedValue schema tag f true attributes line children fun table own =>
        Tree.takeUpAll schema tag table own children) fun v => schema.Tidy f v.bare :=
      yields_nestedValue_tidy fun table own hown => Tree.yields_takeUpAll_tidy tag table children own hown
    exact hvalue.mono fun v hv => ⟨nofun, hv⟩
  | _ => trivial

mutual

theorem Tree.yields_draft_tidy (n : Tree) (d : Draft) (hn : ImagesWritten written [n])
    (hd : CommandsTidy schema written d.commands) :
    Yields (n.draft schema d) fun d => CommandsTidy schema written d.commands := by
  cases n with
  | text s line => exact hd
  | element tag attributes line children closing =>
    have hprose : Yields (proseValue schema d.prose) (CommandsTidy schema written) := yields_proseValue_tidy _
    obtain ⟨htag, hchildren⟩ := hn.element
    rw [Tree.draft]
    split
    · exact Tree.yields_draftAll_tidy children _ hchildren hd
    · split
      · next himage =>
        refine hprose.bind fun before hbefore => ?_
        cases refuseChildren imageTag children with
        | error e => trivial
        | ok u =>
          refine (hd.append hbefore).append (.singleton (.image (htag himage) (fun e he => ?_) 0))
          rw [LinedValue.bareFields_eq_map] at he
          obtain ⟨e', he', rfl⟩ := List.mem_map.1 he
          have hfields : AttributesOn attributes line (imageValues line [] attributes) :=
            attributesOn_imageValues (List.Subset.refl attributes) (List.forall_mem_nil _)
          obtain ⟨t, hmem, htext⟩ := hfields e' he'
          exact ⟨0, t, by rw [htext]; rfl, hmem⟩
      · split
        · trivial
        · next f hfound =>
          refine hprose.bind fun before hbefore => yields_commandValue_tidy.map fun v hv => ?_
          exact (hd.append hbefore).append (.singleton (.element hfound hv.1 hv.2))

theorem Tree.yields_draftAll_tidy (ns : List Tree) (d : Draft) (hns : ImagesWritten written ns)
    (hd : CommandsTidy schema written d.commands) :
    Yields (Tree.draftAll schema d ns) fun d => CommandsTidy schema written d.commands := by
  match ns with
  | [] => exact hd
  | n :: ns =>
    exact (n.yields_draft_tidy d hns.cons.1 hd).bind fun d' hd' => Tree.yields_draftAll_tidy ns d' hns.cons.2 hd'

end

/-- All texts in a paragraph's commands are squeezed, except those of attributes. -/
theorem yields_evaluate_tidy (h : ImagesWritten written children) :
    Yields (Tree.evaluate schema children) (CommandsTidy schema written) := by
  have hnil : CommandsTidy schema written ({} : Draft).commands := List.forall_mem_nil _
  exact (Tree.yields_draftAll_tidy children {} h hnil).bind fun d hd =>
    (yields_proseValue_tidy d.prose).map fun last hlast => hd.append hlast

end TaggedProse
