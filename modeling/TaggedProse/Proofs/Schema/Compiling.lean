import TaggedProse.Proofs.Schema.Validity

/-! Compiling accepts exactly the valid descriptions. The tables of a compiled schema are its declarations in their
order; a description that is refused is refused for its first faulty schema. -/
namespace TaggedProse

namespace FieldDeclaration

def isElement (d : FieldDeclaration) : Bool := !d.type.isScalar || d.placement == some .element

def isAttribute (d : FieldDeclaration) : Bool :=
  d.type.isScalar && (d.placement == none || d.placement == some .attribute)

theorem isElement_ownRole (d : FieldDeclaration) : d.ownRole.isElement = d.isElement := by
  obtain ⟨name, type, _ | _ | _ | _⟩ := d <;> cases type <;> rfl

theorem ownRole_eq_attribute (d : FieldDeclaration) : (d.ownRole == .attribute) = d.isAttribute := by
  obtain ⟨name, type, _ | _ | _ | _⟩ := d <;> cases type <;> rfl

end FieldDeclaration

/-! ### Tables -/

/-- The table is that of the schema: every declared field is found under its name, and all lists of fields keep the
order of declaration. -/
structure Table.Describes (t : Table) (name : String) (s : SchemaDeclaration) : Prop where
  name : t.name = name
  fields : t.fields = s.fields.map fun d => (d.name, ⟨d.ownRole, d.type⟩)
  field : ∀ n f, t.get? n = some f ↔ ∃ d ∈ s.fields, d.name = n ∧ f = ⟨d.ownRole, d.type⟩
  elements : t.elements = (s.fields.filter FieldDeclaration.isElement).map FieldDeclaration.name
  content : t.content? = (s.fields.find? FieldDeclaration.isContent).map FieldDeclaration.name
  prose : t.prose? = ((s.fields.find? FieldDeclaration.isContent).or
    (s.fields.find? FieldDeclaration.isAttribute)).map FieldDeclaration.name

namespace SchemaDeclaration
variable {s : SchemaDeclaration} {name n : String} {f : Field}

theorem get?_declared (h : FieldsValid s.fields) :
    (s.declared name).get? n = some f ↔ ∃ d ∈ s.fields, d.name = n ∧ f = ⟨d.ownRole, d.type⟩ := by
  constructor
  · intro hget
    obtain ⟨l₁, l₂, heq, -⟩ := List.lookup_eq_some_iff.1 hget
    have hm : (n, f) ∈ s.fields.map FieldDeclaration.entry := by
      change (n, f) ∈ (s.declared name).fields
      rw [heq]
      exact List.mem_append_right _ List.mem_cons_self
    obtain ⟨d, hd, hentry⟩ := List.mem_map.1 hm
    exact ⟨d, hd, (Prod.mk.inj hentry).1, (Prod.mk.inj hentry).2.symm⟩
  · rintro ⟨d, hd, rfl, rfl⟩
    refine lookup_of_mem ?_ (List.mem_map_of_mem (f := FieldDeclaration.entry) hd)
    change ((s.fields.map FieldDeclaration.entry).map Prod.fst).Nodup
    rw [map_name_entry]
    exact h.distinct

theorem elements_declared (s : SchemaDeclaration) (name : String) :
    (s.declared name).elements = (s.fields.filter FieldDeclaration.isElement).map FieldDeclaration.name := by
  rw [Table.elements, declared, List.filter_map, map_name_entry]
  exact congrArg _ (List.filter_congr fun d _ => d.isElement_ownRole)

/-- The first field of a role is that of the first declaration with it. -/
theorem find?_declared {role : Role} {p : FieldDeclaration → Bool} (h : ∀ d ∈ s.fields, (d.ownRole == role) = p d) :
    ((s.declared name).fields.find? fun (_, f) => f.role == role).map Prod.fst =
      (s.fields.find? p).map FieldDeclaration.name := by
  rw [declared, List.find?_map, Option.map_map, ← List.head?_filter, ← List.head?_filter]
  exact congrArg (Option.map FieldDeclaration.name ·.head?) (List.filter_congr h)

theorem describes_declared (h : s.Valid) (name : String) : (s.declared name).Describes name s := by
  have hcontent : (s.declared name).content? =
      (s.fields.find? FieldDeclaration.isContent).map FieldDeclaration.name := by
    refine find?_declared fun d hd => ?_
    rw [Bool.eq_iff_iff, ← FieldDeclaration.ownRole_eq_content (h.fields.placed d hd), beq_iff_eq]
  refine ⟨rfl, rfl, fun n f => get?_declared h.fields, elements_declared s name, hcontent, ?_⟩
  rw [Table.prose?, hcontent, find?_declared fun d _ => d.ownRole_eq_attribute, Option.map_or]

end SchemaDeclaration

/-! ### Descriptions -/

structure Description.Valid (d : Description) : Prop where
  root : d.root ∈ d.schemas.1.map Prod.fst
  schemas : ∀ x ∈ d.schemas.1, x.2.Valid

/-- The error that the description is refused with: that of the faulty schema whose name comes first. -/
inductive Description.FailsWith (d : Description) : SchemaError → Prop
  | root (undeclared : d.root ∉ d.schemas.1.map Prod.fst) : FailsWith d (.unknownRoot d.root)
  | schema {name : String} {s : SchemaDeclaration} {e : SchemaError} (root : d.root ∈ d.schemas.1.map Prod.fst)
      (declared : (name, s) ∈ d.schemas.1) (first : ∀ x ∈ d.schemas.1, x.1 < name → x.2.Valid)
      (fault : s.FailsWith name e) : FailsWith d e

/-- The compiled schema holds what is declared and nothing else. -/
structure Schema.Describes (s : Schema) (d : Description) : Prop where
  root : ∃ decl, Record.get? d.root d.schemas.1 = some decl ∧ s.root.Describes d.root decl
  table : ∀ name t, s.table? name = some t → ∃ decl, Record.get? name d.schemas.1 = some decl ∧ t.Describes name decl
  declared : ∀ name, (s.table? name).isSome = (Record.get? name d.schemas.1).isSome
  command : ∀ n f, s.command? n = some f ↔
    ∃ decl, Record.get? d.root d.schemas.1 = some decl ∧ ∃ fd ∈ decl.fields, fd.name = n ∧ f = ⟨fd.ownRole, fd.type⟩
  field : ∀ name n f, s.field? name n = some f ↔
    ∃ decl, Record.get? name d.schemas.1 = some decl ∧ ∃ fd ∈ decl.fields, fd.name = n ∧ f = ⟨fd.ownRole, fd.type⟩

/-! ### The tables of a description -/

variable {schemas front back : Record SchemaDeclaration} {s : SchemaDeclaration} {name : String} {e : SchemaError}

theorem compileTables_append (h : ∀ x ∈ front, x.2.Valid) (back : Record SchemaDeclaration) :
    compileTables (front ++ back) =
      (compileTables back).map ((front.map fun x => (x.1, x.2.declared x.1)) ++ ·) := by
  induction front with
  | nil => cases h : compileTables back <;> simp [h, Except.map]
  | cons x front ih =>
    obtain ⟨hx, hfront⟩ := List.forall_mem_cons.1 h
    rw [List.cons_append, compileTables, SchemaDeclaration.table_of_valid hx, ih hfront]
    cases compileTables back <;> rfl

theorem compileTables_of_valid (h : ∀ x ∈ schemas, x.2.Valid) :
    compileTables schemas = .ok (schemas.map fun x => (x.1, x.2.declared x.1)) := by
  have happend := compileTables_append h []
  rw [List.append_nil] at happend
  rw [happend, compileTables, Except.map, List.append_nil]

theorem compileTables_of_failsWith (h : ∀ x ∈ front, x.2.Valid) (hfails : s.FailsWith name e)
    (back : Record SchemaDeclaration) : compileTables (front ++ (name, s) :: back) = .error e := by
  rw [compileTables_append h, compileTables, SchemaDeclaration.table_of_failsWith hfails]
  rfl

theorem valid_or_exists_failsWith (schemas : Record SchemaDeclaration) : (∀ x ∈ schemas, x.2.Valid) ∨
    ∃ front name s back e, schemas = front ++ (name, s) :: back ∧ (∀ x ∈ front, x.2.Valid) ∧ s.FailsWith name e := by
  induction schemas with
  | nil => exact .inl (List.forall_mem_nil _)
  | cons x schemas ih =>
    rcases x.2.valid_or_failsWith x.1 with hx | ⟨e, hfails⟩
    · rcases ih with hvalid | ⟨front, name, s, back, e, rfl, hfront, hfails⟩
      · exact .inl (List.forall_mem_cons.2 ⟨hx, hvalid⟩)
      · exact .inr ⟨x :: front, name, s, back, e, rfl, List.forall_mem_cons.2 ⟨hx, hfront⟩, hfails⟩
    · exact .inr ⟨[], x.1, x.2, schemas, e, rfl, List.forall_mem_nil _, hfails⟩

namespace Description
variable {d : Description} {schema : Schema}

/-- The compiled schema of a valid description. -/
theorem compile_of_valid (h : d.Valid) : ∃ decl, Record.get? d.root d.schemas.1 = some decl ∧ decl.Valid ∧
    d.compile = .ok ⟨decl.declared d.root, d.schemas.1.map fun x => (x.1, x.2.declared x.1)⟩ := by
  have hcontains := Record.contains_iff.2 h.root
  obtain ⟨decl, hdecl⟩ := Option.isSome_iff_exists.1 hcontains
  refine ⟨decl, hdecl, h.schemas _ (Record.mem_of_get?_eq_some hdecl), ?_⟩
  simp only [compile, hcontains, compileTables_of_valid h.schemas,
    Record.get?_mapEntries fun name s => SchemaDeclaration.declared name s, hdecl]
  rfl

theorem compile_of_failsWith (h : d.FailsWith e) : d.compile = .error e := by
  cases h with
  | root undeclared =>
    rw [← Record.contains_iff, Bool.not_eq_true] at undeclared
    simp [compile, undeclared]
  | @schema name s _ root declared first fault =>
    obtain ⟨front, back, hsplit⟩ := List.append_of_mem declared
    have hd := d.schemas.2
    rw [hsplit] at hd first
    have hfront : ∀ x ∈ front, x.2.Valid := fun x hx =>
      first x (List.mem_append_left _ hx) (hd.mem_front_iff.1 hx).2
    have htables : compileTables d.schemas.1 = .error e := hsplit ▸ compileTables_of_failsWith hfront fault back
    simp [compile, Record.contains_iff.2 root, htables]

theorem valid_or_failsWith (d : Description) : d.Valid ∨ ∃ e, d.FailsWith e := by
  by_cases hroot : d.root ∈ d.schemas.1.map Prod.fst
  · rcases valid_or_exists_failsWith d.schemas.1 with hvalid | ⟨front, name, s, back, e, hsplit, hfront, hfails⟩
    · exact .inl ⟨hroot, hvalid⟩
    · refine .inr ⟨e, .schema (s := s) hroot ?_ (fun x hx hlt => hfront x ?_) hfails⟩
      · rw [hsplit]
        exact List.mem_append_right _ List.mem_cons_self
      · have hd := d.schemas.2
        rw [hsplit] at hd hx
        exact hd.mem_front_iff.2 ⟨hx, hlt⟩
  · exact .inr ⟨_, .root hroot⟩

theorem describes_of_compile (h : d.Valid) (hs : d.compile = .ok schema) : schema.Describes d := by
  obtain ⟨decl, hdecl, hvalid, hcompile⟩ := compile_of_valid h
  rw [hcompile] at hs
  cases hs
  have hroot := SchemaDeclaration.describes_declared hvalid d.root
  have htable : ∀ name, Record.get? name (d.schemas.1.map fun x => (x.1, x.2.declared x.1)) =
      (Record.get? name d.schemas.1).map (·.declared name) := fun name =>
    Record.get?_mapEntries (fun name s => SchemaDeclaration.declared name s) name d.schemas.1
  refine ⟨⟨decl, hdecl, hroot⟩, fun name t ht => ?_, fun name => ?_, fun n f => ?_, fun name n f => ?_⟩
  · rw [Schema.table?, htable, Option.map_eq_some_iff] at ht
    obtain ⟨decl', hdecl', rfl⟩ := ht
    exact ⟨decl', hdecl', SchemaDeclaration.describes_declared (h.schemas _ (Record.mem_of_get?_eq_some hdecl')) name⟩
  · rw [Schema.table?, htable, Option.isSome_map]
  · rw [Schema.command?, hroot.field]
    exact ⟨fun hf => ⟨decl, hdecl, hf⟩, fun ⟨_, hdecl', hf⟩ => Option.some.inj (hdecl.symm.trans hdecl') ▸ hf⟩
  · rw [Schema.field?, Schema.table?, htable, Option.bind_eq_some_iff]
    constructor
    · rintro ⟨t, ht, hf⟩
      obtain ⟨decl', hdecl', rfl⟩ := Option.map_eq_some_iff.1 ht
      have hfields := (h.schemas _ (Record.mem_of_get?_eq_some hdecl')).fields
      exact ⟨decl', hdecl', (SchemaDeclaration.get?_declared hfields).1 hf⟩
    · rintro ⟨decl', hdecl', hf⟩
      have hfields := (h.schemas _ (Record.mem_of_get?_eq_some hdecl')).fields
      exact ⟨_, Option.map_eq_some_iff.2 ⟨decl', hdecl', rfl⟩, (SchemaDeclaration.get?_declared hfields).2 hf⟩

/-- Exactly the valid descriptions compile, to schemas that hold what is declared; the others are refused with the
first of their faults. -/
theorem compile_ok_iff_and_error_iff (d : Description) :
    ((∃ schema, d.compile = .ok schema) ↔ d.Valid) ∧ (∀ schema, d.compile = .ok schema → schema.Describes d) ∧
      ∀ e, d.compile = .error e ↔ d.FailsWith e := by
  have hnot : ∀ {schema}, d.compile = .ok schema → d.Valid := fun hs => by
    refine (valid_or_failsWith d).resolve_right ?_
    rintro ⟨e, hfails⟩
    cases hs.symm.trans (compile_of_failsWith hfails)
  refine ⟨⟨fun ⟨_, hs⟩ => hnot hs, fun h => ?_⟩, fun schema hs => describes_of_compile (hnot hs) hs, fun e =>
    ⟨fun he => ?_, compile_of_failsWith⟩⟩
  · obtain ⟨decl, -, -, hcompile⟩ := compile_of_valid h
    exact ⟨_, hcompile⟩
  · rcases valid_or_failsWith d with h | ⟨e', hfails⟩
    · obtain ⟨decl, -, -, hcompile⟩ := compile_of_valid h
      cases he.symm.trans hcompile
    · obtain rfl := Except.error.inj (he.symm.trans (compile_of_failsWith hfails))
      exact hfails

/-- A root that is fine, a schema in which a name occurs twice, and one with two fields for its own text. -/
def faultyDescription : Description :=
  ⟨"commands", ⟨[("commands", ⟨[⟨"text", .string, none⟩, ⟨"note", .object "note", none⟩]⟩),
    ("item", ⟨[⟨"to", .string, some .attribute⟩, ⟨"body", .string, some .content⟩,
      ⟨"to", .list .number, some .content⟩]⟩),
    ("note", ⟨[⟨"a", .string, some .content⟩, ⟨"b", .string, some .content⟩]⟩)], by decide⟩⟩

theorem compile_faultyDescription :
    ¬faultyDescription.Valid ∧ faultyDescription.compile = .error (.duplicateField "item" "to") := by
  have hvalid : FieldsValid [⟨"to", .string, some .attribute⟩, ⟨"body", .string, some .content⟩] := by decide +kernel
  have hfails : faultyDescription.FailsWith (.duplicateField "item" "to") :=
    .schema (by decide +kernel) (List.mem_cons_of_mem _ List.mem_cons_self) (by decide +kernel)
      (.field rfl hvalid (.duplicate (by decide +kernel) (by decide +kernel)))
  obtain ⟨hok, -, herror⟩ := faultyDescription.compile_ok_iff_and_error_iff
  have hcompile := (herror _).2 hfails
  refine ⟨fun h => ?_, hcompile⟩
  obtain ⟨schema, hs⟩ := hok.2 h
  cases hs.symm.trans hcompile

end Description

end TaggedProse
