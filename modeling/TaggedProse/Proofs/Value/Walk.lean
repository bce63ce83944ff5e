import Mathlib.Data.List.Forall2
import TaggedProse.Value
import TaggedProse.Proofs.Record

/-! Walks through values: every value in a value is come to once, after the values inside it. -/
namespace TaggedProse.Value

/-- The walk goes through the children one after the other, and then comes to the value itself. -/
inductive Walk : Value → List Value → Prop
  | visit {v : Value} {walks : List (List Value)} (children : List.Forall₂ Walk v.children walks) :
      Walk v (walks.flatten ++ [v])

def Ordered : Value → Prop
  | .object _ fields | .content _ fields _ => Record.Ascending fields
  | .text _ _ | .list _ _ => True

mutual

theorem walk_nodes (v : Value) : v.Walk v.nodes := by
  cases v with
  | text id t =>
    have hnone : List.Forall₂ Walk (Value.text id t).children [] := .nil
    exact .visit hnone
  | object id fields =>
    obtain ⟨walks, hwalks, heq⟩ := walks_fieldNodes fields
    rw [nodes, ← heq]
    exact .visit hwalks
  | list id items =>
    obtain ⟨walks, hwalks, heq⟩ := walks_itemNodes items
    rw [nodes, ← heq]
    exact .visit hwalks
  | content id fields field =>
    obtain ⟨walks, hwalks, heq⟩ := walks_fieldNodes fields
    rw [nodes, ← heq]
    exact .visit hwalks

theorem walks_fieldNodes (fields : List (String × Value)) :
    ∃ walks, List.Forall₂ Walk (fields.map Prod.snd) walks ∧ walks.flatten = fieldNodes fields := by
  match fields with
  | [] => exact ⟨[], .nil, rfl⟩
  | (name, v) :: r =>
    obtain ⟨walks, hwalks, heq⟩ := walks_fieldNodes r
    exact ⟨v.nodes :: walks, .cons (walk_nodes v) hwalks, by rw [List.flatten_cons, heq, fieldNodes]⟩

theorem walks_itemNodes (items : List Value) :
    ∃ walks, List.Forall₂ Walk items walks ∧ walks.flatten = itemNodes items := by
  match items with
  | [] => exact ⟨[], .nil, rfl⟩
  | v :: r =>
    obtain ⟨walks, hwalks, heq⟩ := walks_itemNodes r
    exact ⟨v.nodes :: walks, .cons (walk_nodes v) hwalks, by rw [List.flatten_cons, heq, itemNodes]⟩

end

theorem sizeOf_snd_lt {fields : List (String × Value)} {w : Value} (h : w ∈ fields.map Prod.snd) :
    sizeOf w < sizeOf fields := by
  obtain ⟨⟨name, v⟩, he, rfl⟩ := List.mem_map.1 h
  have hlt := List.sizeOf_lt_of_mem he
  rw [Prod.mk.sizeOf_spec] at hlt
  dsimp only
  omega

theorem sizeOf_lt_of_mem_children {v w : Value} (h : w ∈ v.children) : sizeOf w < sizeOf v := by
  cases v with
  | text => cases h
  | object id fields =>
    have hlt := sizeOf_snd_lt h
    rw [object.sizeOf_spec]
    omega
  | list id items =>
    have hlt : sizeOf w < sizeOf items := List.sizeOf_lt_of_mem h
    rw [list.sizeOf_spec]
    omega
  | content id fields field =>
    have hlt := sizeOf_snd_lt h
    rw [content.sizeOf_spec]
    omega

/-- What holds of a value as soon as it holds of the values directly inside holds of every value. -/
@[elab_as_elim]
theorem children_induction {P : Value → Prop} (step : ∀ v, (∀ w ∈ v.children, P w) → P v) (v : Value) :
    P v :=
  step v fun w _ => children_induction step w
termination_by v
decreasing_by exact sizeOf_lt_of_mem_children ‹_›

/-! ### Values in fields and items -/

theorem fieldNodes_append (fs gs : List (String × Value)) :
    fieldNodes (fs ++ gs) = fieldNodes fs ++ fieldNodes gs := by
  induction fs with
  | nil => rfl
  | cons e fs ih => rw [List.cons_append, fieldNodes, fieldNodes, ih, List.append_assoc]

theorem itemNodes_append (vs ws : List Value) : itemNodes (vs ++ ws) = itemNodes vs ++ itemNodes ws := by
  induction vs with
  | nil => rfl
  | cons v vs ih => rw [List.cons_append, itemNodes, itemNodes, ih, List.append_assoc]

theorem fieldNodes_insert {name : String} {fields : Record Value} (h : Record.get? name fields = none)
    (v : Value) : (fieldNodes (Record.insert name v fields)).Perm (fieldNodes fields ++ v.nodes) := by
  obtain ⟨front, back, rfl, hinsert⟩ := Record.insert_of_get?_none h v
  rw [hinsert, fieldNodes_append, fieldNodes_append, fieldNodes, List.append_assoc]
  exact List.perm_append_comm.append_left (fieldNodes front)

end TaggedProse.Value
