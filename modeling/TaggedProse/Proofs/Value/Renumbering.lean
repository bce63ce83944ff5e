import TaggedProse.Value
import TaggedProse.Proofs.Record

/-! Values under other identities. Renumbering adds the same number to every identity in a value, and
nothing else about the value changes. -/
namespace TaggedProse

namespace Value

mutual

def renumber (k : Nat) : Value → Value
  | .text id t => .text (id + k) t
  | .object id fields => .object (id + k) (renumberFields k fields)
  | .list id items => .list (id + k) (renumberItems k items)
  | .content id fields field => .content (id + k) (renumberFields k fields) field

def renumberFields (k : Nat) : List (String × Value) → List (String × Value)
  | [] => []
  | (name, v) :: r => (name, v.renumber k) :: renumberFields k r

def renumberItems (k : Nat) : List Value → List Value
  | [] => []
  | v :: r => v.renumber k :: renumberItems k r

end

theorem renumberFields_eq_map (k : Nat) (fields : List (String × Value)) :
    renumberFields k fields = fields.map fun e => (e.1, e.2.renumber k) := by
  induction fields with
  | nil => rfl
  | cons e fields ih => simp [renumberFields, ih]

theorem renumberItems_eq_map (k : Nat) (items : List Value) :
    renumberItems k items = items.map (renumber k) := by
  induction items with
  | nil => rfl
  | cons v items ih => simp [renumberItems, ih]

@[simp] theorem id_renumber (k : Nat) (v : Value) : (v.renumber k).id = v.id + k := by
  cases v <;> rfl

theorem insert_renumberFields (k : Nat) (name : String) (v : Value) (fields : Record Value) :
    Record.insert name (v.renumber k) (renumberFields k fields) =
      renumberFields k (Record.insert name v fields) := by
  simp only [renumberFields_eq_map, Record.insert_map]

theorem get?_renumberFields (k : Nat) (name : String) (fields : Record Value) :
    Record.get? name (renumberFields k fields) = (Record.get? name fields).map (renumber k) := by
  simp only [renumberFields_eq_map, Record.get?_map]

theorem contains_renumberFields (k : Nat) (name : String) (fields : Record Value) :
    Record.contains name (renumberFields k fields) = Record.contains name fields := by
  simp only [Record.contains, get?_renumberFields, Option.isSome_map]

mutual

theorem nodes_renumber (k : Nat) (v : Value) : (v.renumber k).nodes = v.nodes.map (renumber k) := by
  cases v with
  | text id t => rfl
  | object id fields => simp [renumber, nodes, fieldNodes_renumber k fields]
  | list id items => simp [renumber, nodes, itemNodes_renumber k items]
  | content id fields field => simp [renumber, nodes, fieldNodes_renumber k fields]

theorem fieldNodes_renumber (k : Nat) (fields : List (String × Value)) :
    fieldNodes (renumberFields k fields) = (fieldNodes fields).map (renumber k) := by
  match fields with
  | [] => rfl
  | (name, v) :: r =>
    simp [renumberFields, fieldNodes, nodes_renumber k v, fieldNodes_renumber k r]

theorem itemNodes_renumber (k : Nat) (items : List Value) :
    itemNodes (renumberItems k items) = (itemNodes items).map (renumber k) := by
  match items with
  | [] => rfl
  | v :: r => simp [renumberItems, itemNodes, nodes_renumber k v, itemNodes_renumber k r]

end

mutual

/-- Two renumberings of one value differ in nothing but the identities. -/
theorem alike_renumber (j k : Nat) (v : Value) : (v.renumber j).alike (v.renumber k) = true := by
  cases v with
  | text id t => simp [renumber, alike]
  | object id fields => simpa [renumber, alike] using fieldsAlike_renumber j k fields
  | list id items => simpa [renumber, alike] using itemsAlike_renumber j k items
  | content id fields field => simpa [renumber, alike] using fieldsAlike_renumber j k fields

theorem fieldsAlike_renumber (j k : Nat) (fields : List (String × Value)) :
    fieldsAlike (renumberFields j fields) (renumberFields k fields) = true := by
  match fields with
  | [] => rfl
  | (name, v) :: r =>
    simp [renumberFields, fieldsAlike, alike_renumber j k v, fieldsAlike_renumber j k r]

theorem itemsAlike_renumber (j k : Nat) (items : List Value) :
    itemsAlike (renumberItems j items) (renumberItems k items) = true := by
  match items with
  | [] => rfl
  | v :: r => simp [renumberItems, itemsAlike, alike_renumber j k v, itemsAlike_renumber j k r]

end

end Value

namespace Command

def renumber (k : Nat) (c : Command) : Command := ⟨c.name, c.value.renumber k⟩

theorem alike_renumber (j k : Nat) (c : Command) : (c.renumber j).alike (c.renumber k) = true := by
  simp [renumber, alike, Value.alike_renumber]

end Command

end TaggedProse
