import TaggedProse.Schema.Table
/-!
Compiled schemas: the tables of a description, among them the root's. References from one schema to
another stay names, which are looked up when they are needed.
-/
namespace TaggedProse

structure Schema where
  root : Table
  tables : Record Table
  deriving Repr

namespace Schema

def table? (s : Schema) (schema : String) : Option Table := Record.get? schema s.tables

def command? (s : Schema) (name : String) : Option Field := s.root.get? name

def field? (s : Schema) (schema name : String) : Option Field :=
  (s.table? schema).bind (·.get? name)

end Schema

def compileTables : Record SchemaDeclaration → Except SchemaError (Record Table)
  | [] => .ok []
  | (name, d) :: r =>
    match d.table name with
    | .error e => .error e
    | .ok t =>
      match compileTables r with
      | .error e => .error e
      | .ok ts => .ok ((name, t) :: ts)

/-- Every table is that of a declaration. -/
theorem exists_of_mem_compileTables {schemas : Record SchemaDeclaration} {tables : Record Table}
    (h : compileTables schemas = .ok tables) : ∀ e ∈ tables, ∃ d, (e.1, d) ∈ schemas ∧ d.table e.1 = .ok e.2 := by
  induction schemas generalizing tables with
  | nil => cases h; simp
  | cons declared schemas ih =>
    obtain ⟨name, d⟩ := declared
    rw [compileTables] at h
    split at h
    · cases h
    · next t ht =>
      split at h
      · cases h
      · next ts hts =>
        cases h
        intro e he
        rcases List.mem_cons.1 he with rfl | he
        · exact ⟨d, List.mem_cons_self, ht⟩
        · obtain ⟨d', hd', ht'⟩ := ih hts e he
          exact ⟨d', List.mem_cons_of_mem _ hd', ht'⟩

/-- Every schema has to be sound, and the root has to be among them. -/
def Description.compile (d : Description) : Except SchemaError Schema :=
  if !Record.contains d.root d.schemas.1 then .error (.unknownRoot d.root)
  else
    match compileTables d.schemas.1 with
    | .error e => .error e
    | .ok tables =>
      match Record.get? d.root tables with
      | none => .error (.unknownRoot d.root)
      | some root => .ok ⟨root, tables⟩

/-- A compiled schema has the table of every declared one, and the root's is among them. -/
theorem Description.of_compile {d : Description} {s : Schema} (h : d.compile = .ok s) :
    compileTables d.schemas.1 = .ok s.tables ∧ s.table? d.root = some s.root := by
  unfold compile at h
  split at h
  · cases h
  · split at h
    · cases h
    · next tables htables =>
      split at h
      · cases h
      · next root hroot =>
        cases h
        exact ⟨htables, hroot⟩

end TaggedProse
