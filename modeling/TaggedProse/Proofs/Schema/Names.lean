import Mathlib.Data.List.Nodup
import TaggedProse.Schema.Basic
import TaggedProse.Proofs.Record

/-! Names of fields. A compiled table declares no field twice, so that the field for an element's own text
is no attribute too. -/
namespace TaggedProse

def Table.Named (t : Table) : Prop := (t.fields.map Prod.fst).Nodup

def Schema.Named (s : Schema) : Prop := ∀ name t, s.table? name = some t → t.Named

theorem not_mem_of_lookup_eq_none {α : Type} {name : String} {entries : List (String × α)}
    (h : entries.lookup name = none) : name ∉ entries.map Prod.fst := by
  intro hm
  obtain ⟨e, he, rfl⟩ := List.mem_map.1 hm
  simpa using List.lookup_eq_none_iff.1 h e he

theorem lookup_of_mem {α : Type} {entries : List (String × α)} (h : (entries.map Prod.fst).Nodup)
    {name : String} {a : α} (hm : (name, a) ∈ entries) : entries.lookup name = some a := by
  induction entries with
  | nil => cases hm
  | cons e entries ih =>
    obtain ⟨n, b⟩ := e
    obtain ⟨hn, hrest⟩ := List.nodup_cons.1 h
    rcases List.mem_cons.1 hm with heq | hm
    · cases heq
      simp
    · have hne : name ≠ n := fun heq => hn (heq ▸ List.mem_map.2 ⟨_, hm, rfl⟩)
      rw [List.lookup_cons, beq_false_of_ne hne]
      exact ih hrest hm

theorem named_of_addFields {schema : String} {ds : List FieldDeclaration}
    {fields result : List (String × Field)} (hf : (fields.map Prod.fst).Nodup)
    (h : addFields schema fields ds = .ok result) : (result.map Prod.fst).Nodup := by
  induction ds generalizing fields with
  | nil => cases h; exact hf
  | cons d ds ih =>
    rw [addFields] at h
    split at h
    · cases h
    · split at h
      · cases h
      · next hnew =>
        split at h
        · cases h
        · next role hrole =>
          refine ih ?_ h
          have habsent : d.name ∉ fields.map Prod.fst :=
            not_mem_of_lookup_eq_none (Option.not_isSome_iff_eq_none.1 hnew)
          rw [List.map_append, List.map_singleton]
          refine List.Nodup.append hf (List.nodup_singleton _) ?_
          exact List.disjoint_singleton.2 habsent

theorem Table.named_of_table {name : String} {d : SchemaDeclaration} {t : Table}
    (h : d.table name = .ok t) : t.Named := by
  unfold SchemaDeclaration.table at h
  split at h
  · cases h
  · next fields hfields =>
    split at h
    · cases h
    · cases h
      have hnone : (([] : List (String × Field)).map Prod.fst).Nodup := List.nodup_nil
      exact named_of_addFields hnone hfields

theorem named_of_compileTables {schemas : Record SchemaDeclaration} {tables : Record Table}
    (h : compileTables schemas = .ok tables) : ∀ e ∈ tables, e.2.Named := by
  intro e he
  obtain ⟨d, -, ht⟩ := exists_of_mem_compileTables h e he
  exact Table.named_of_table ht

theorem Description.named_of_compile {d : Description} {schema : Schema}
    (h : d.compile = .ok schema) : schema.Named := fun _ _ ht =>
  named_of_compileTables (of_compile h).1 _ (Record.mem_of_get?_eq_some ht)

theorem Description.named_root_of_compile {d : Description} {schema : Schema}
    (h : d.compile = .ok schema) : schema.root.Named :=
  named_of_compile h _ _ (of_compile h).2

/-- Under the name of the field for an element's own text stands that field. -/
theorem Table.Named.role_of_content? {t : Table} (h : t.Named) {field : String} {f : Field}
    (hcontent : t.content? = some field) (hf : t.get? field = some f) : f.role = .content := by
  obtain ⟨⟨name, g⟩, hfind, rfl⟩ := Option.map_eq_some_iff.1 hcontent
  have hrole : g.role = .content := by simpa using List.find?_some hfind
  have hlookup := lookup_of_mem h (List.mem_of_find?_eq_some hfind)
  rw [Table.get?, hlookup] at hf
  cases hf
  exact hrole

/-- Under the name of the field for prose stands a field that is no element. -/
theorem Table.Named.role_of_prose? {t : Table} (h : t.Named) {field : String} {f : Field}
    (hprose : t.prose? = some field) (hf : t.get? field = some f) :
    f.role = .content ∨ f.role = .attribute := by
  rw [Table.prose?, Option.or_eq_some_iff] at hprose
  rcases hprose with hcontent | ⟨-, hattribute⟩
  · exact .inl (h.role_of_content? hcontent hf)
  · obtain ⟨⟨name, g⟩, hfind, rfl⟩ := Option.map_eq_some_iff.1 hattribute
    have hrole : g.role = .attribute := by simpa using List.find?_some hfind
    have hlookup := lookup_of_mem h (List.mem_of_find?_eq_some hfind)
    rw [Table.get?, hlookup] at hf
    cases hf
    exact .inr hrole

end TaggedProse
