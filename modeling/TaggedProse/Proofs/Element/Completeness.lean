import TaggedProse.Proofs.Element.Refinement
import TaggedProse.Proofs.Element.Writing
import TaggedProse.Proofs.Schema.Names
import TaggedProse.Proofs.Value.Walk
import TaggedProse.Proofs.Assembly.Conformance

/-! Every admissible command can be written: its elements mean it, and the assembly makes it of them. -/
namespace TaggedProse
variable {schema : Schema} {table : Table} {f g : Field} {tag name target around : String} {line : Nat}
  {own : Record LinedValue} {entries others fields : List (String × Value)} {ns : List Tree}

/-! ### Gathering fields -/

/-- The record has these entries, whatever their lines and in whatever order they came. -/
structure Gathered (own : Record LinedValue) (entries : List (String × Value)) : Prop where
  ascending : Record.Ascending own
  perm : (LinedValue.bareFields own).Perm (Value.bareFields entries)

namespace Gathered
variable {v : Value} {lv : LinedValue}

theorem nil : Gathered [] [] := ⟨Record.ascending_nil, .nil⟩

theorem get?_eq_none (h : Gathered own entries) (hnew : name ∉ entries.map Prod.fst) :
    Record.get? name own = none := by
  refine Record.get?_eq_none_of_not_mem fun hmem => hnew ?_
  have hnames := h.perm.map Prod.fst
  simp only [LinedValue.bareFields_eq_map, Value.bareFields_eq_map, List.map_map] at hnames
  exact hnames.mem_iff.1 hmem

theorem insert (h : Gathered own entries) (hnew : name ∉ entries.map Prod.fst) (hv : lv.bare = v.bare) :
    Gathered (Record.insert name lv own) (entries ++ [(name, v)]) := by
  refine ⟨h.ascending.insert name lv, ?_⟩
  have hperm := h.perm
  rw [LinedValue.bareFields_eq_map, Value.bareFields_eq_map] at hperm ⊢
  calc
    List.Perm ((Record.insert name lv own).map fun e => (e.1, e.2.bare))
        (((name, lv) :: own).map fun e => (e.1, e.2.bare)) :=
      (Record.insert_perm (h.get?_eq_none hnew) lv).map _
    List.Perm _ ((name, v.bare) :: entries.map fun e => (e.1, e.2.bare)) := by
      rw [List.map_cons, hv]
      exact hperm.cons _
    List.Perm _ ((entries ++ [(name, v)]).map fun e => (e.1, e.2.bare)) := by
      rw [List.map_append]
      exact (List.perm_append_singleton _ _).symm

theorem of_perm (h : Gathered own entries) (hp : entries.Perm others) : Gathered own others := by
  refine ⟨h.ascending, h.perm.trans ?_⟩
  rw [Value.bareFields_eq_map, Value.bareFields_eq_map]
  exact hp.map _

theorem bareFields_eq (h : Gathered own fields) (hf : Record.Ascending fields) :
    LinedValue.bareFields own = Value.bareFields fields := by
  have hperm := h.perm
  rw [LinedValue.bareFields_eq_map, Value.bareFields_eq_map] at hperm ⊢
  exact Record.Ascending.eq_of_perm (List.pairwise_map.2 h.ascending) (List.pairwise_map.2 hf) hperm

end Gathered

theorem not_mem_of_nodup_middle {v : Value}
    (h : ((others ++ (name, v) :: entries).map Prod.fst).Nodup) : name ∉ others.map Prod.fst := by
  rw [List.map_append, List.map_cons, List.nodup_middle] at h
  exact fun hmem => (List.nodup_cons.1 h).1 (List.mem_append_left _ hmem)

/-- Attributes with new names become fields. -/
theorem exists_attributeValues (table : Table) (line : Nat) (h : Gathered own others)
    (hfresh : ((others ++ entries).map Prod.fst).Nodup)
    (hrole : ∀ e ∈ entries, ∃ g, table.get? e.1 = some g ∧ g.role = .attribute)
    (htext : ∀ e ∈ entries, ∃ i t, e.2 = .text i t) :
    ∃ own', attributeValues table line own (entries.map fun e => (e.1, e.2.writtenText)) = .ok own' ∧
      Gathered own' (others ++ entries) := by
  induction entries generalizing own others with
  | nil => exact ⟨own, rfl, by simpa using h⟩
  | cons e entries ih =>
    obtain ⟨name, v⟩ := e
    obtain ⟨⟨g, hg, hattribute⟩, hroles⟩ := List.forall_mem_cons.1 hrole
    obtain ⟨⟨i, t, rfl⟩, htexts⟩ := List.forall_mem_cons.1 htext
    have hinsert : Gathered (Record.insert name (.text line t) own) (others ++ [(name, .text i t)]) :=
      h.insert (not_mem_of_nodup_middle hfresh) rfl
    rw [List.append_cons] at hfresh ⊢
    obtain ⟨own', hown, hgathered⟩ := ih hinsert hfresh hroles htexts
    refine ⟨own', ?_, hgathered⟩
    rw [List.map_cons, attributeValues]
    simp only [hg, hattribute, if_true]
    exact hown

theorem takeUpAll_element {attributes : List (String × String)} {children : List Tree} {closing : Nat}
    {lv : LinedValue} (hg : table.get? tag = some g)
    (hnew : g.role = .list ∨ Record.get? tag own = none)
    (hv : fieldValue schema tag g attributes line children
      (fun t fs => Tree.takeUpAll schema tag t fs children) = .ok lv) :
    Tree.takeUpAll schema around table own [.element tag attributes line children closing] =
      .ok (if g.role == .list then takeUpItem tag lv line own else Record.insert tag lv own) := by
  have honce : (g.role.isElement && g.role != .list && Record.contains tag own) = false := by
    rcases hnew with hlist | hnone
    · simp [hlist]
    · simp [Record.contains, hnone]
  rw [Tree.takeUpAll, Tree.takeUp, hg]
  simp only [honce, hv, Bool.false_eq_true, if_false, Except.map]
  rfl

/-! ### Elements with fields -/

theorem table_of_nested? (hf : f.nested? = some target) (ht : schema.table? target = some table)
    (tag : String) (command : Bool) : f.table schema tag command = .ok table := by
  rw [Field.table, hf]
  simp only [ht]

theorem inner?_of_nested? (hf : f.nested? = some target) (ht : schema.table? target = some table)
    (name : String) : schema.inner? f name = table.get? name := by
  simp [Schema.inner?, Schema.field?, hf, ht]

/-- The trees are an element that has the value `v` of the field `f`, in an object or as a command. -/
def Nests (schema : Schema) (tag : String) (f : Field) (ns : List Tree) (v : Value) : Prop :=
  ∃ attributes line children closing, ns = [.element tag attributes line children closing] ∧
    ∀ command, ∃ lv, nestedValue schema tag f command attributes line children
        (fun t fs => Tree.takeUpAll schema tag t fs children) = .ok lv ∧ lv.bare = v.bare

theorem Schema.Holds.role_ne_content {v : Value} (h : schema.Holds g v) : g.role ≠ .content := by
  cases h with
  | text role => rcases role with h | h <;> simp [h]
  | object role => simp [role]
  | list role => simp [role]

theorem Schema.Holds.eq_text {v : Value} (h : schema.Holds g v) (hrole : g.role = .attribute) :
    ∃ i t, v = .text i t := by
  cases h with
  | text => exact ⟨_, _, rfl⟩
  | object role => simp [role] at hrole
  | list role => simp [role] at hrole

section Object
variable (hf : f.nested? = some target) (ht : schema.table? target = some table)

include hf ht

theorem inAttribute_iff {e : String × Value} :
    schema.inAttribute f e = true ↔ ∃ g, table.get? e.1 = some g ∧ g.role = .attribute := by
  rw [Schema.inAttribute, inner?_of_nested? hf ht, Option.any_eq_true]
  simp

/-- A field of an object without own text is in an attribute or in an element. -/
theorem inAttribute_append_inElement_perm (hdeclared : ∀ e ∈ fields, (table.get? e.1).isSome)
    (hholds : ∀ e ∈ fields, ∀ g, table.get? e.1 = some g → schema.Holds g e.2) :
    (fields.filter (schema.inAttribute f) ++ fields.filter (schema.inElement f)).Perm fields := by
  have hother : ∀ e ∈ fields, schema.inElement f e = !schema.inAttribute f e := by
    intro e he
    obtain ⟨g, hg⟩ := Option.isSome_iff_exists.1 (hdeclared e he)
    have hrole := (hholds e he g hg).role_ne_content
    rw [Schema.inElement, Schema.inAttribute, inner?_of_nested? hf ht, hg]
    cases hg : g.role with
    | content => exact absurd hg hrole
    | _ => simp [hg, Role.isElement]
  rw [List.filter_congr hother]
  exact List.filter_append_perm _ fields

theorem exists_attributeValues_attributes (line : Nat) (hfields : Record.Ascending fields)
    (htext : ∀ e ∈ fields, schema.inAttribute f e = true → ∃ i t, e.2 = .text i t) :
    ∃ own, attributeValues table line [] (Value.attributes schema f fields) = .ok own ∧
      Gathered own (fields.filter (schema.inAttribute f)) := by
  have hfresh : (([] ++ fields.filter (schema.inAttribute f)).map Prod.fst).Nodup :=
    hfields.nodup_names.sublist (List.filter_sublist.map _)
  refine exists_attributeValues table line Gathered.nil hfresh (fun e he => ?_) fun e he => ?_
  · exact (inAttribute_iff hf ht).1 (List.mem_filter.1 he).2
  · exact htext e (List.mem_filter.1 he).1 (List.mem_filter.1 he).2

theorem nests_object {id : Nat} (hplain : table.content? = none) (hfields : Record.Ascending fields)
    (hdeclared : ∀ e ∈ fields, (table.get? e.1).isSome)
    (hholds : ∀ e ∈ fields, ∀ g, table.get? e.1 = some g → schema.Holds g e.2)
    (hchildren : ∀ own ns, Gathered own (fields.filter (schema.inAttribute f)) →
      ns.map Tree.bare = Value.fieldElements schema f fields →
      ∃ own', Tree.takeUpAll schema tag table own ns = .ok own' ∧ Gathered own'
        (fields.filter (schema.inAttribute f) ++ fields.filter (schema.inElement f)))
    (hns : ns.map Tree.bare = (Value.object id fields).elements schema tag f) :
    Nests schema tag f ns (.object id fields) := by
  obtain ⟨line, children, closing, rfl, hinside⟩ := Tree.exists_of_map_bare_eq_element hns
  refine ⟨_, line, children, closing, rfl, fun command => ?_⟩
  obtain ⟨own, hown, hattributes⟩ := exists_attributeValues_attributes hf ht line hfields fun e he hin => by
    obtain ⟨g, hg, hrole⟩ := (inAttribute_iff hf ht).1 hin
    exact (hholds e he g hg).eq_text hrole
  obtain ⟨all, hall, hgathered⟩ := hchildren own children hattributes hinside
  have heq := (hgathered.of_perm (inAttribute_append_inElement_perm hf ht hdeclared hholds)).bareFields_eq
    hfields
  refine ⟨.object line all, ?_, by rw [LinedValue.bare, Value.bare, heq]⟩
  rw [nestedValue, table_of_nested? hf ht]
  simp only [objectValue, hplain, hown, Except.bind, hall, Except.map]

theorem not_inAttribute_own {e : String × Value} (hnamed : table.Named) (hown : table.content? = some e.1) :
    schema.inAttribute f e ≠ true := by
  rw [Ne, inAttribute_iff hf ht]
  rintro ⟨g, hg, hrole⟩
  rw [hnamed.role_of_content? hown hg] at hrole
  cases hrole

/-- Beside its own text an object has only attributes. -/
theorem inAttribute_append_own_perm {field : String} {v : Value} (hnamed : table.Named)
    (hown : table.content? = some field) (hfields : Record.Ascending fields)
    (hheld : Record.get? field fields = some v)
    (hattributes : ∀ e ∈ fields, e.1 ≠ field →
      ∃ g i t, table.get? e.1 = some g ∧ g.role = .attribute ∧ e.2 = .text i t) :
    (fields.filter (schema.inAttribute f) ++ [(field, v)]).Perm fields := by
  obtain ⟨front, back, rfl⟩ := List.append_of_mem (Record.mem_of_get?_eq_some hheld)
  have hnames := hfields.nodup_names
  rw [List.map_append, List.map_cons, List.nodup_middle, ← List.map_append] at hnames
  have hothers : ∀ e ∈ front ++ back, schema.inAttribute f e = true := by
    intro e he
    have hne : e.1 ≠ field := fun heq =>
      (List.nodup_cons.1 hnames).1 (List.mem_map.2 ⟨e, he, heq⟩)
    have hmem : e ∈ front ++ (field, v) :: back :=
      List.mem_append.2 ((List.mem_append.1 he).imp_right (List.mem_cons_of_mem _))
    obtain ⟨g, -, -, hg, hrole, -⟩ := hattributes e hmem hne
    exact (inAttribute_iff hf ht).2 ⟨g, hg, hrole⟩
  rw [List.filter_append, List.filter_cons_of_neg (not_inAttribute_own hf ht hnamed hown),
    ← List.filter_append, List.filter_eq_self.2 hothers, List.append_assoc]
  exact (List.perm_append_singleton _ _).append_left front

theorem nests_content {id textId : Nat} {field text : String} (hnamed : table.Named)
    (hown : table.content? = some field) (hchildless : table.elements = [])
    (hfields : Record.Ascending fields) (hheld : Record.get? field fields = some (.text textId text))
    (hattributes : ∀ e ∈ fields, e.1 ≠ field →
      ∃ g i t, table.get? e.1 = some g ∧ g.role = .attribute ∧ e.2 = .text i t)
    (htidy : TidyText text)
    (hns : ns.map Tree.bare = (Value.content id fields field).elements schema tag f) :
    Nests schema tag f ns (.content id fields field) := by
  obtain ⟨line, children, closing, rfl, hinside⟩ := Tree.exists_of_map_bare_eq_element hns
  refine ⟨_, line, children, closing, rfl, fun command => ?_⟩
  have hperm := inAttribute_append_own_perm hf ht hnamed hown hfields hheld hattributes
  have hnodup := (hperm.map Prod.fst).nodup_iff.2 hfields.nodup_names
  obtain ⟨own, hattribute, hgathered⟩ := exists_attributeValues_attributes hf ht line hfields
    fun e he hin => by
      have hne : e.1 ≠ field := fun heq => not_inAttribute_own hf ht hnamed (heq ▸ hown) hin
      obtain ⟨g, i, t, -, -, heq⟩ := hattributes e he hne
      exact ⟨i, t, heq⟩
  have htext : children.map Tree.bare = Tree.ofText text := by
    rw [hinside, Value.ownText?, hheld]
    rfl
  obtain ⟨p, hp, rfl⟩ := Tree.exists_gatherAll_ofText table.refuse htidy htext
  have hall : Gathered (Record.insert field (.text (p.firstLine.getD line) p.text) own) fields :=
    (hgathered.insert (not_mem_of_nodup_middle hnodup) rfl).of_perm hperm
  refine ⟨.content line _ field, ?_, by rw [LinedValue.bare, Value.bare, hall.bareFields_eq hfields]⟩
  rw [nestedValue, table_of_nested? hf ht]
  simp only [objectValue, hown, hchildless, hattribute, Except.bind, hp, Except.map]

end Object

/-! ### Values at any depth -/

theorem exists_scalarValue {id : Nat} {t : String} (ht : TidyText t)
    (hns : ns.map Tree.bare = (Value.text id t).elements schema tag f) :
    ∃ line children closing, ns = [.element tag [] line children closing] ∧
      scalarValue tag [] line children = .ok (.text line t) := by
  obtain ⟨line, children, closing, rfl, hinside⟩ := Tree.exists_of_map_bare_eq_element hns
  obtain ⟨p, hp, rfl⟩ := Tree.exists_gatherAll_ofText (.undescribedChild tag) ht hinside
  exact ⟨line, children, closing, rfl, by simp only [scalarValue, hp, Except.map]⟩

section Nests
variable {v : Value} (h : Nests schema tag g ns v) (hg : table.get? tag = some g)

include h hg

theorem Nests.takeUpAll_object (hrole : g.role = .object) (hnew : Record.get? tag own = none) :
    ∃ lv, Tree.takeUpAll schema around table own ns = .ok (Record.insert tag lv own) ∧
      lv.bare = v.bare := by
  obtain ⟨attributes, line, children, closing, rfl, hvalue⟩ := h
  obtain ⟨lv, hlv, hbare⟩ := hvalue false
  refine ⟨lv, ?_, hbare⟩
  rw [takeUpAll_element hg (.inr hnew) (by rw [fieldValue, hrole]; exact hlv), hrole]
  rfl

theorem Nests.takeUpAll_list (hrole : g.role = .list) :
    ∃ lv line, Tree.takeUpAll schema around table own ns = .ok (takeUpItem tag lv line own) ∧
      lv.bare = v.bare := by
  obtain ⟨attributes, line, children, closing, rfl, hvalue⟩ := h
  obtain ⟨lv, hlv, hbare⟩ := hvalue false
  refine ⟨lv, line, ?_, hbare⟩
  rw [takeUpAll_element hg (.inl hrole) (by rw [fieldValue, hrole]; exact hlv), hrole]
  rfl

end Nests

theorem takeUpItem_of_get?_none {lv : LinedValue} (h : Record.get? name own = none) :
    takeUpItem name lv line own = Record.insert name (.list line [lv]) own := by
  rw [takeUpItem, h]

theorem takeUpItem_insert {lv : LinedValue} {first : Nat} {items : List LinedValue} :
    takeUpItem name lv line (Record.insert name (.list first items) own) =
      Record.insert name (.list first (items ++ [lv])) own := by
  rw [takeUpItem, Record.get?_insert_self]
  exact Record.insert_insert ..

theorem Tree.takeUpAll_append (ms : List Tree) : Tree.takeUpAll schema around table own (ns ++ ms) =
    (Tree.takeUpAll schema around table own ns).bind fun fs => Tree.takeUpAll schema around table fs ms := by
  induction ns generalizing own with
  | nil => rfl
  | cons n ns ih =>
    rw [List.cons_append, Tree.takeUpAll, Tree.takeUpAll]
    cases n.takeUp schema around table own with
    | error e => rfl
    | ok fs => exact ih

/-- Wherever the value conforms, an element that it is written in has it as its value. -/
def Schema.NestsBack (schema : Schema) (v : Value) : Prop :=
  ∀ (f : Field) (tag target : String) (ns : List Tree), schema.Conforms target v →
    f.nested? = some target → v.Tidy schema f → ns.map Tree.bare = v.elements schema tag f →
    Nests schema tag f ns v

/-- Wherever a field may hold the value, the elements that it is written in add it to the fields. -/
def Schema.TakesBack (schema : Schema) (v : Value) : Prop :=
  ∀ (g : Field) (around tag : String) (table : Table) (own : Record LinedValue) (ns : List Tree),
    schema.Holds g v → table.get? tag = some g → g.role.isElement = true → v.Tidy schema g →
    Record.get? tag own = none → ns.map Tree.bare = v.elements schema tag g →
    ∃ lv, Tree.takeUpAll schema around table own ns = .ok (Record.insert tag lv own) ∧ lv.bare = v.bare

theorem exists_takeUpAll_fieldElements (around : String) (hback : ∀ e ∈ fields, schema.TakesBack e.2)
    (hf : f.nested? = some target) (ht : schema.table? target = some table)
    (hholds : ∀ e ∈ fields, ∀ g, table.get? e.1 = some g → schema.Holds g e.2)
    (htidy : Value.TidyFields schema f fields) (hown : Gathered own others)
    (hfresh : ((others ++ fields.filter (schema.inElement f)).map Prod.fst).Nodup)
    (hns : ns.map Tree.bare = Value.fieldElements schema f fields) :
    ∃ own', Tree.takeUpAll schema around table own ns = .ok own' ∧
      Gathered own' (others ++ fields.filter (schema.inElement f)) := by
  induction fields generalizing own others ns with
  | nil =>
    obtain rfl := List.map_eq_nil_iff.1 hns
    exact ⟨own, rfl, by simpa using hown⟩
  | cons e fields ih =>
    obtain ⟨name, v⟩ := e
    obtain ⟨hv, hrest⟩ := List.forall_mem_cons.1 hback
    obtain ⟨hhold, hholds⟩ := List.forall_mem_cons.1 hholds
    have hinner := inner?_of_nested? hf ht name
    rw [Value.fieldElements, hinner] at hns
    by_cases hin : schema.inElement f (name, v) = true
    · have hsome := hin
      rw [Schema.inElement, hinner, Option.any_eq_true] at hsome
      obtain ⟨g, hg, hrole⟩ := hsome
      simp only [hg, hrole, if_true] at hns
      obtain ⟨ms, ms', rfl, hms, hms'⟩ := List.map_eq_append_iff.1 hns
      rw [List.filter_cons_of_pos hin] at hfresh ⊢
      have hnew := not_mem_of_nodup_middle hfresh
      obtain ⟨lv, htake, hbare⟩ := hv g around name table own ms (hhold g hg) hg hrole
        (htidy.1 g (hinner.trans hg)) (hown.get?_eq_none hnew) hms
      rw [List.append_cons] at hfresh ⊢
      rw [Tree.takeUpAll_append, htake]
      exact ih hrest hholds htidy.2 (hown.insert hnew hbare) hfresh hms'
    · rw [List.filter_cons_of_neg hin] at hfresh ⊢
      refine ih hrest hholds htidy.2 hown hfresh ?_
      rw [Schema.inElement, hinner] at hin
      cases hg : table.get? name with
      | none => simpa only [hg] using hns
      | some g =>
        have hrole : g.role.isElement = false := by simpa [hg] using hin
        simpa only [hg, hrole, Bool.false_eq_true, if_false] using hns

/-- The elements of the items go on with the list. -/
theorem exists_takeUpAll_itemElements {items : List Value} {first : Nat} {litems : List LinedValue}
    (hback : ∀ v ∈ items, schema.NestsBack v) (hv : ∀ v ∈ items, schema.Conforms target v)
    (hg : table.get? tag = some g) (hrole : g.role = .list) (hf : g.nested? = some target)
    (htidy : Value.TidyItems schema g items)
    (hns : ns.map Tree.bare = Value.itemElements schema tag g items) :
    ∃ all, Tree.takeUpAll schema around table (Record.insert tag (.list first litems) own) ns =
        .ok (Record.insert tag (.list first all) own) ∧
      LinedValue.bareItems all = LinedValue.bareItems litems ++ Value.bareItems items := by
  induction items generalizing litems ns with
  | nil =>
    obtain rfl := List.map_eq_nil_iff.1 hns
    exact ⟨litems, rfl, (List.append_nil _).symm⟩
  | cons v items ih =>
    obtain ⟨hnests, hrest⟩ := List.forall_mem_cons.1 hback
    obtain ⟨hconforms, hvs⟩ := List.forall_mem_cons.1 hv
    obtain ⟨ms, ms', rfl, hms, hms'⟩ := List.map_eq_append_iff.1 hns
    obtain ⟨lv, line, htake, hbare⟩ :=
      (hnests g tag target ms hconforms hf htidy.1 hms).takeUpAll_list hg hrole
    obtain ⟨all, hall, hbares⟩ := ih hrest hvs htidy.2 hms'
    refine ⟨all, ?_, ?_⟩
    · rw [Tree.takeUpAll_append, htake, takeUpItem_insert]
      exact hall
    · rw [hbares, LinedValue.bareItems_append, Value.bareItems, ← hbare, List.append_assoc]
      rfl

theorem nestsBack_of_children (hs : schema.Named) {v : Value}
    (hback : ∀ w ∈ v.children, schema.TakesBack w) : schema.NestsBack v := by
  intro f tag target ns hv hf htidy hns
  cases hv with
  | object found plain ascending declared holds =>
    have hfresh := ((inAttribute_append_inElement_perm hf found declared holds).map Prod.fst).nodup_iff.2
      ascending.nodup_names
    refine nests_object hf found plain ascending declared holds (fun own children hown hinside => ?_) hns
    exact exists_takeUpAll_fieldElements tag (fun e he => hback e.2 (List.mem_map_of_mem he)) hf found holds
      htidy hown hfresh hinside
  | content found own childless ascending held attributes =>
    refine nests_content hf found (hs _ _ found) own childless ascending held attributes ?_ hns
    rw [Value.Tidy, Value.ownText?, held] at htidy
    exact htidy

theorem takesBack_of_children {v : Value} (hback : ∀ w ∈ v.children, schema.NestsBack w)
    (hv : schema.NestsBack v) : schema.TakesBack v := by
  intro g around tag table own ns hholds hg hrole htidy hnew hns
  cases hholds with
  | @text _ id t role =>
    have hscalar : g.role = .scalar := role.resolve_left fun hattribute => by
      simp [hattribute, Role.isElement] at hrole
    obtain ⟨line, children, closing, rfl, hlv⟩ := exists_scalarValue (htidy (by simp [hscalar])) hns
    refine ⟨.text line t, ?_, rfl⟩
    rw [takeUpAll_element hg (.inr hnew) (by rw [fieldValue, hscalar]; exact hlv), hscalar]
    rfl
  | @object _ target v role type conforms =>
    have hf : g.nested? = some target := by rw [Field.nested?, type]
    exact (hv g tag target ns conforms hf htidy hns).takeUpAll_object hg role hnew
  | @list _ target id items role type nonempty conforms =>
    have hf : g.nested? = some target := by rw [Field.nested?, type]
    obtain ⟨v, rest, rfl⟩ := List.exists_cons_of_ne_nil nonempty
    obtain ⟨hnests, hrest⟩ := List.forall_mem_cons.1 hback
    obtain ⟨hconforms, hvs⟩ := List.forall_mem_cons.1 conforms
    rw [Value.elements, Value.itemElements] at hns
    obtain ⟨ms, ms', rfl, hms, hms'⟩ := List.map_eq_append_iff.1 hns
    -- The first item makes the list.
    obtain ⟨lv, line, htake, hbare⟩ :=
      (hnests g tag target ms hconforms hf htidy.1 hms).takeUpAll_list hg role
    have hitems : ∃ all, Tree.takeUpAll schema around table (Record.insert tag (.list line [lv]) own) ms' =
        .ok (Record.insert tag (.list line all) own) ∧ LinedValue.bareItems all = [lv.bare] ++ _ :=
      exists_takeUpAll_itemElements hrest hvs hg role hf htidy.2 hms'
    obtain ⟨all, hall, hbares⟩ := hitems
    refine ⟨.list line all, ?_, by rw [LinedValue.bare, Value.bare, hbares, hbare]; rfl⟩
    rw [Tree.takeUpAll_append, htake, takeUpItem_of_get?_none hnew]
    exact hall

theorem nestsBack (hs : schema.Named) (v : Value) : schema.NestsBack v := by
  have hboth : schema.NestsBack v ∧ schema.TakesBack v := by
    induction v using Value.children_induction with
    | step v ih =>
      have hnests := nestsBack_of_children hs fun w hw => (ih w hw).2
      exact ⟨hnests, takesBack_of_children (fun w hw => (ih w hw).1) hnests⟩
  exact hboth.1

/-! ### Commands -/

theorem exists_commandValue_text {id : Nat} {t : String} (hrole : f.role = .scalar ∨ f.role = .content)
    (ht : TidyText t) (hns : ns.map Tree.bare = (Value.text id t).elements schema tag f) :
    ∃ line children closing, ns = [.element tag [] line children closing] ∧
      commandValue schema tag f [] line children = .ok (.text line t) := by
  obtain ⟨line, children, closing, rfl, hlv⟩ := exists_scalarValue ht hns
  refine ⟨line, children, closing, rfl, ?_⟩
  rcases hrole with h | h <;> rw [commandValue, h] <;> exact hlv

theorem exists_commandValue (hs : schema.Named) (hroot : schema.root.Named) {c : Command}
    (hc : schema.Admits c) (hf : schema.command? c.name = some f) (himage : c.name ≠ imageTag)
    (hrole : f.role ≠ .attribute) (htidy : c.value.Tidy schema f)
    (hns : ns.map Tree.bare = c.value.elements schema c.name f) :
    ∃ attributes line children closing lv, ns = [.element c.name attributes line children closing] ∧
      commandValue schema c.name f attributes line children = .ok lv ∧ lv.bare = c.value.bare := by
  cases hc with
  | image => exact absurd rfl himage
  | prose target =>
    have hcontent := (hroot.role_of_prose? target hf).resolve_right hrole
    obtain ⟨line, children, closing, rfl, hlv⟩ := exists_commandValue_text (.inr hcontent) (htidy hrole) hns
    exact ⟨[], line, children, closing, _, rfl, hlv, rfl⟩
  | text found role =>
    rw [hf] at found
    cases found
    obtain ⟨line, children, closing, rfl, hlv⟩ := exists_commandValue_text role (htidy hrole) hns
    exact ⟨[], line, children, closing, _, rfl, hlv, rfl⟩
  | @object name target g v found role type conforms =>
    rw [hf] at found
    cases found
    have hnested : f.nested? = some target := by rw [Field.nested?, type]
    obtain ⟨attributes, line, children, closing, rfl, hvalue⟩ :=
      nestsBack hs v f name target ns conforms hnested htidy hns
    obtain ⟨lv, hlv, hbare⟩ := hvalue true
    refine ⟨attributes, line, children, closing, lv, rfl, ?_, hbare⟩
    rw [commandValue, role]
    exact hlv

/-- The one element of a paragraph that is no line break and no image is its one command. -/
theorem evaluate_element {lv : LinedValue} {attributes : List (String × String)} {children : List Tree}
    {closing : Nat} (hbreak : tag ≠ breakTag) (himage : tag ≠ imageTag)
    (hf : schema.command? tag = some f)
    (hlv : commandValue schema tag f attributes line children = .ok lv) :
    Tree.evaluate schema [.element tag attributes line children closing] = .ok [⟨tag, lv⟩] := by
  have hnone : proseValue schema {} = .ok [] := rfl
  rw [Tree.evaluate, Tree.draftAll, Tree.draft, if_neg hbreak, if_neg himage, hf]
  simp only [hnone, hlv, Except.bind, Except.map, Tree.draftAll]
  rfl

/-- A command that conforms to the schema, written as the one element of a paragraph, is what the assembly makes
of the paragraph, whatever lines its tags and texts stand on. -/
theorem conclude_elements {d : Description} {c : Command} (hd : d.compile = .ok schema)
    (hc : schema.Admits c) (hf : schema.command? c.name = some f) (hrole : f.role ≠ .attribute)
    (hbreak : c.name ≠ breakTag) (himage : c.name ≠ imageTag) (htidy : c.value.Tidy schema f)
    (hns : ns.map Tree.bare = (c.value.elements schema c.name f).map Tree.bare) (line closing last : Nat)
    (l : Ledger) :
    ∃ c' l', Assembly.conclude schema (Tree.element paragraphTag [] line ns closing).parts last l.clear =
        .ok ([c'], l') ∧ c'.alike c = true := by
  rw [Value.map_bare_elements] at hns
  obtain ⟨attributes, start, children, stop, lv, rfl, hlv, hbare⟩ := exists_commandValue
    (Description.named_of_compile hd) (Description.named_root_of_compile hd) hc hf himage hrole htidy hns
  have hgives := gives_paragraph schema [] line closing [.element c.name attributes start children stop] l
  rw [evaluate_element hbreak himage hf hlv] at hgives
  obtain ⟨a, hrun, -, hclosed, -, hcommands⟩ := hgives
  obtain ⟨v, hv, hlined⟩ := Command.exists_of_mapM_lined?_eq_singleton hcommands
  refine ⟨⟨c.name, v⟩, a.ledger, ?_, ?_⟩
  · simp only [Assembly.conclude, hrun, Assembly.finish, hclosed, if_true, hv, Except.map]
  · have halike := Value.alike_of_bare_eq v c.value ((Value.bare_of_lined? v hlined).symm.trans hbare)
    simp [Command.alike, halike]

def titledCard : Value :=
  .object 0 [("id", .text 0 " a  b"), ("item", .list 0 [.object 0 []]), ("title", .text 0 "One\nTwo")]

def titledCardElements : List Tree :=
  [.element "card" [("id", " a  b")] 1
    [.element "item" [] 2 [] 2,
      .element "title" [] 3 [.text ['O', 'n', 'e'] 3, .element "br" [] 3 [] 3, .text ['T', 'w', 'o'] 4] 4] 5]

theorem conforms_titledCard : cardSchema.Conforms "card" titledCard := by
  have hitem : cardSchema.Conforms "card" (.object 0 []) :=
    .object rfl rfl Record.ascending_nil (List.forall_mem_nil _) (List.forall_mem_nil _)
  refine .object rfl rfl (by unfold Record.Ascending; decide) (by decide) ?_
  simp only [List.forall_mem_cons]
  refine ⟨fun g hg => ?_, fun g hg => ?_, fun g hg => ?_, List.forall_mem_nil _⟩
  · cases hg
    exact .text (.inl rfl)
  · cases hg
    exact .list rfl rfl (List.cons_ne_nil _ _) (List.forall_mem_singleton.2 hitem)
  · cases hg
    exact .text (.inr rfl)

theorem tidy_titledCard : titledCard.Tidy cardSchema ⟨.object, .object "card"⟩ := by
  refine ⟨fun g hg => ?_, fun g hg => ?_, fun g hg => ?_, trivial⟩
  · cases hg
    exact fun h => absurd rfl h
  · cases hg
    exact ⟨trivial, trivial⟩
  · cases hg
    exact fun _ => ⟨[['O', 'n', 'e'], ['T', 'w', 'o']], rfl⟩

theorem conclude_titledCardElements :
    cardDescription.compile = .ok cardSchema ∧
      titledCardElements.map Tree.bare =
        (titledCard.elements cardSchema "card" ⟨.object, .object "card"⟩).map Tree.bare ∧
      ∃ c' l', Assembly.conclude cardSchema
          (Tree.element paragraphTag [] 0 titledCardElements 5).parts 5 ({} : Ledger).clear =
          .ok ([c'], l') ∧ c'.alike ⟨"card", titledCard⟩ = true := by
  have hbare : titledCardElements.map Tree.bare =
      (titledCard.elements cardSchema "card" ⟨.object, .object "card"⟩).map Tree.bare := by
    rw [Value.map_bare_elements]
    rfl
  exact ⟨compile_cardDescription, hbare,
    conclude_elements (c := ⟨"card", titledCard⟩) compile_cardDescription
      (.object rfl rfl rfl conforms_titledCard) rfl (by decide) (by decide) (by decide) tidy_titledCard
      hbare 0 5 5 {}⟩

end TaggedProse
