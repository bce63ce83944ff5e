import TaggedProse.Paragraph.Rendering
import TaggedProse.Schema.Basic
import TaggedProse.Value
import TaggedProse.Proofs.Record

/-! Conformance of values and commands to a compiled schema. It is said without the assembly: a value
conforms by what the tables declare alone. `sound_of_compile` is what compiling guarantees. -/
namespace TaggedProse

mutual

inductive Schema.Conforms (schema : Schema) : String → Value → Prop
  | object {name : String} {table : Table} {id : Nat} {fields : List (String × Value)}
      (found : schema.table? name = some table) (plain : table.content? = none)
      (ascending : Record.Ascending fields)
      (declared : ∀ e ∈ fields, (table.get? e.1).isSome)
      (holds : ∀ e ∈ fields, ∀ f, table.get? e.1 = some f → schema.Holds f e.2) :
      Conforms schema name (.object id fields)
  /-- The schema has a text of its own, beside which there are only attributes. -/
  | content {name field text : String} {table : Table} {id textId : Nat}
      {fields : List (String × Value)}
      (found : schema.table? name = some table) (own : table.content? = some field)
      (childless : table.elements = [])
      (ascending : Record.Ascending fields)
      (held : Record.get? field fields = some (.text textId text))
      (attributes : ∀ e ∈ fields, e.1 ≠ field →
        ∃ f i t, table.get? e.1 = some f ∧ f.role = .attribute ∧ e.2 = .text i t) :
      Conforms schema name (.content id fields field)

inductive Schema.Holds (schema : Schema) : Field → Value → Prop
  | text {f : Field} {id : Nat} {text : String} (role : f.role = .attribute ∨ f.role = .scalar) :
      Holds schema f (.text id text)
  | object {f : Field} {name : String} {v : Value} (role : f.role = .object)
      (type : f.type = .object name) (conforms : schema.Conforms name v) : Holds schema f v
  | list {f : Field} {name : String} {id : Nat} {items : List Value} (role : f.role = .list)
      (type : f.type = .list (.object name)) (nonempty : items ≠ [])
      (conforms : ∀ v ∈ items, schema.Conforms name v) : Holds schema f (.list id items)

end

inductive Schema.Admits (schema : Schema) : Command → Prop
  | image {id : Nat} {fields : List (String × Value)} (texts : ∀ e ∈ fields, ∃ i t, e.2 = .text i t) :
      Admits schema ⟨imageTag, .object id fields⟩
  | prose {field : String} {id : Nat} {text : String} (target : schema.root.prose? = some field) :
      Admits schema ⟨field, .text id text⟩
  | text {name : String} {f : Field} {id : Nat} {text : String} (found : schema.command? name = some f)
      (role : f.role = .scalar ∨ f.role = .content) : Admits schema ⟨name, .text id text⟩
  | object {name target : String} {f : Field} {v : Value} (found : schema.command? name = some f)
      (role : f.role = .object) (type : f.type = .object target)
      (conforms : schema.Conforms target v) : Admits schema ⟨name, v⟩

structure Field.Sound (f : Field) : Prop where
  object : f.role = .object → ∃ name, f.type = .object name
  list : f.role = .list → ∃ item, f.type = .list item

def Table.Sound (t : Table) : Prop := ∀ e ∈ t.fields, e.2.Sound

structure Schema.Sound (s : Schema) : Prop where
  root : s.root.Sound
  table : ∀ name t, s.table? name = some t → t.Sound

theorem Table.Sound.field {t : Table} (h : t.Sound) {name : String} {f : Field}
    (hf : t.get? name = some f) : f.Sound := by
  rw [Table.get?, List.lookup_eq_some_iff] at hf
  obtain ⟨l₁, l₂, heq, -⟩ := hf
  exact h (name, f) (by simp [heq])

theorem Field.sound_of_role {d : FieldDeclaration} {role : Role} (h : d.role = .ok role) :
    Field.Sound ⟨role, d.type⟩ := by
  unfold FieldDeclaration.role at h
  split at h
  · split at h <;> cases h
    exact ⟨nofun, nofun⟩
  · split at h <;> cases h
    exact ⟨nofun, nofun⟩
  · next htype _ _ => cases h; exact ⟨fun _ => ⟨_, htype⟩, nofun⟩
  · next htype _ _ => cases h; exact ⟨nofun, fun _ => ⟨_, htype⟩⟩
  · cases h; exact ⟨nofun, nofun⟩
  · cases h; exact ⟨nofun, nofun⟩

theorem sound_of_addFields {schema : String} {ds : List FieldDeclaration}
    {fields result : List (String × Field)} (hf : ∀ e ∈ fields, e.2.Sound)
    (h : addFields schema fields ds = .ok result) : ∀ e ∈ result, e.2.Sound := by
  induction ds generalizing fields with
  | nil => cases h; exact hf
  | cons d ds ih =>
    rw [addFields] at h
    split at h
    · cases h
    · split at h
      · cases h
      · split at h
        · cases h
        · next role hrole =>
          refine ih (fun e he => ?_) h
          rcases List.mem_append.1 he with he | he
          · exact hf e he
          · rw [List.mem_singleton.1 he]
            exact Field.sound_of_role hrole

theorem Table.sound_of_table {name : String} {d : SchemaDeclaration} {t : Table}
    (h : d.table name = .ok t) : t.Sound := by
  unfold SchemaDeclaration.table at h
  split at h
  · cases h
  · next fields hfields =>
    split at h
    · cases h
    · cases h
      exact sound_of_addFields (by simp) hfields

theorem sound_of_compileTables {schemas : Record SchemaDeclaration} {tables : Record Table}
    (h : compileTables schemas = .ok tables) : ∀ e ∈ tables, e.2.Sound := by
  intro e he
  obtain ⟨d, -, ht⟩ := exists_of_mem_compileTables h e he
  exact Table.sound_of_table ht

theorem Description.sound_of_compile {d : Description} {schema : Schema}
    (h : d.compile = .ok schema) : schema.Sound := by
  obtain ⟨htables, hroot⟩ := of_compile h
  have hsound := sound_of_compileTables htables
  exact ⟨hsound _ (Record.mem_of_get?_eq_some hroot), fun _ _ ht => hsound _ (Record.mem_of_get?_eq_some ht)⟩

end TaggedProse
