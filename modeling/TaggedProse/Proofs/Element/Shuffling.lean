import Mathlib.Data.List.Nodup
import TaggedProse.Proofs.Element.Bare
import TaggedProse.Proofs.Element.Evaluation
import TaggedProse.Proofs.Record

/-! Attributes and children of objects in another order. Attributes with distinct names may be taken in any order,
and so may children that have no name in common: what one of them does to the fields leaves those of the others
alone. -/
namespace TaggedProse

/-! ### The same but for what is not looked at -/

section
variable {ε α β γ δ : Type} {view : α → β} {view' : γ → δ} {a b c : Except ε α}

/-- Both fail, or both succeed with what looks the same. -/
def SameUpTo (view : α → β) (a b : Except ε α) : Prop := a.toOption.map view = b.toOption.map view

theorem SameUpTo.refl (a : Except ε α) : SameUpTo view a a := rfl

theorem SameUpTo.symm (h : SameUpTo view a b) : SameUpTo view b a := Eq.symm h

theorem SameUpTo.trans (h : SameUpTo view a b) (h' : SameUpTo view b c) : SameUpTo view a c := Eq.trans h h'

theorem sameUpTo_error (e e' : ε) : SameUpTo view (.error e) (.error e') := rfl

theorem sameUpTo_ok {x y : α} (h : view x = view y) : SameUpTo view (.ok x : Except ε α) (.ok y) :=
  congrArg some h

theorem SameUpTo.cases (h : SameUpTo view a b) :
    (∃ e e', a = .error e ∧ b = .error e') ∨ ∃ x y, a = .ok x ∧ b = .ok y ∧ view x = view y := by
  cases a with
  | error e =>
    cases b with
    | error e' => exact .inl ⟨e, e', rfl, rfl⟩
    | ok y => cases h
  | ok x =>
    cases b with
    | error e' => cases h
    | ok y => exact .inr ⟨x, y, rfl, rfl, Option.some.inj h⟩

theorem SameUpTo.bind {f g : α → Except ε γ} (h : SameUpTo view a b)
    (hfg : ∀ x y, view x = view y → SameUpTo view' (f x) (g y)) : SameUpTo view' (a.bind f) (b.bind g) := by
  rcases h.cases with ⟨e, e', rfl, rfl⟩ | ⟨x, y, rfl, rfl, hxy⟩
  · exact sameUpTo_error e e'
  · exact hfg x y hxy

theorem SameUpTo.bind_id {f g : α → Except ε γ} (h : SameUpTo id a b) (hfg : ∀ x, SameUpTo view' (f x) (g x)) :
    SameUpTo view' (a.bind f) (b.bind g) := by
  refine h.bind fun x y hxy => ?_
  obtain rfl : x = y := hxy
  exact hfg x

theorem SameUpTo.of_id (h : SameUpTo id a b) : SameUpTo view a b := by
  rw [SameUpTo, Option.map_id, id, id] at h
  rw [SameUpTo, h]

theorem SameUpTo.map {f g : α → γ} (h : SameUpTo view a b)
    (hfg : ∀ x y, view x = view y → view' (f x) = view' (g y)) : SameUpTo view' (a.map f) (b.map g) := by
  rcases h.cases with ⟨e, e', rfl, rfl⟩ | ⟨x, y, rfl, rfl, hxy⟩
  · exact sameUpTo_error e e'
  · exact sameUpTo_ok (hfg x y hxy)

end

variable {schema : Schema} {table : Table} {ns ns' ms ms' : List Tree} {tag around : String}
  {attributes attributes' : List (String × String)} {line line' : Nat}
  {fields fields' : Record LinedValue} {v v' : LinedValue}

/-! ### Records without their lines -/

open LinedValue (bareFields)

theorem bareFields_insert (hv : v.bare = v'.bare) (hf : bareFields fields = bareFields fields') (name : String) :
    bareFields (Record.insert name v fields) = bareFields (Record.insert name v' fields') := by
  rw [LinedValue.bareFields_eq_map, LinedValue.bareFields_eq_map] at hf ⊢
  rw [← Record.insert_map, ← Record.insert_map, hf, hv]

theorem get?_of_bareFields (hf : bareFields fields = bareFields fields') (name : String) :
    (Record.get? name fields).map LinedValue.bare = (Record.get? name fields').map LinedValue.bare := by
  rw [LinedValue.bareFields_eq_map, LinedValue.bareFields_eq_map] at hf
  rw [← Record.get?_map, ← Record.get?_map, hf]

theorem contains_of_bareFields (hf : bareFields fields = bareFields fields') (name : String) :
    Record.contains name fields = Record.contains name fields' := by
  have h := congrArg Option.isSome (get?_of_bareFields hf name)
  rwa [Option.isSome_map, Option.isSome_map] at h

theorem LinedValue.bareItems_eq_map (items : List LinedValue) : bareItems items = items.map bare := by
  induction items with
  | nil => rfl
  | cons v items ih => simp [bareItems, ih]

theorem bareFields_takeUpItem (hv : v.bare = v'.bare) (hf : bareFields fields = bareFields fields') (name : String) :
    bareFields (takeUpItem name v line fields) = bareFields (takeUpItem name v' line' fields') := by
  have hget := get?_of_bareFields hf name
  unfold takeUpItem
  cases hfound : Record.get? name fields with
  | none =>
    rw [hfound, Option.map_none, eq_comm, Option.map_eq_none_iff] at hget
    rw [hget]
    exact bareFields_insert (by simp [LinedValue.bare, LinedValue.bareItems, hv]) hf name
  | some w =>
    rw [hfound, Option.map_some, eq_comm, Option.map_eq_some_iff] at hget
    obtain ⟨w', hfound', hw⟩ := hget
    rw [hfound']
    cases w with
    | list first items =>
      cases w' with
      | list first' items' =>
        simp only [LinedValue.bare, Value.list.injEq, true_and] at hw
        refine bareFields_insert ?_ hf name
        rw [LinedValue.bare, LinedValue.bare, LinedValue.bareItems_append, LinedValue.bareItems_append, hw]
        simp [LinedValue.bareItems, hv]
      | _ => simp [LinedValue.bare] at hw
    | _ =>
      cases w' with
      | list => simp [LinedValue.bare] at hw
      | _ => exact hf

/-! ### Attributes -/

theorem bareFields_imageValues (line line' : Nat) (attributes : List (String × String))
    (hf : bareFields fields = bareFields fields') :
    bareFields (imageValues line fields attributes) = bareFields (imageValues line' fields' attributes) := by
  induction attributes generalizing fields fields' with
  | nil => exact hf
  | cons e attributes ih =>
    have hv : (LinedValue.text line e.2).bare = (LinedValue.text line' e.2).bare := rfl
    exact ih (bareFields_insert hv hf e.1)

/-- Attributes with distinct names may be taken in any order. -/
theorem imageValues_perm (h : attributes.Perm attributes') (distinct : (attributes.map Prod.fst).Nodup) (line : Nat)
    (fields : Record LinedValue) : imageValues line fields attributes = imageValues line fields attributes' := by
  have hfold : ∀ (es : List (String × String)) (r : Record LinedValue), imageValues line r es =
      es.foldl (fun r e => Record.insert e.1 (.text line e.2) r) r := by
    intro es
    induction es with
    | nil => exact fun _ => rfl
    | cons e es ih => exact fun r => ih _
  rw [hfold, hfold]
  refine h.foldl_eq' (fun d hd e he r => ?_) fields
  by_cases heq : d.1 = e.1
  · rw [List.inj_on_of_nodup_map distinct hd he heq]
  · exact Record.insert_comm (Ne.symm heq) _ _ r

def Table.takes (table : Table) (attributes : List (String × String)) : Bool :=
  attributes.all fun e => (table.get? e.1).any (·.role == .attribute)

theorem attributeValues_of_takes (h : table.takes attributes = true) (line : Nat) (fields : Record LinedValue) :
    attributeValues table line fields attributes = .ok (imageValues line fields attributes) := by
  induction attributes generalizing fields with
  | nil => rfl
  | cons e attributes ih =>
    obtain ⟨he, hrest⟩ := Bool.and_eq_true_iff.1 h
    obtain ⟨f, hf, hrole⟩ := (Option.any_eq_true _ _).1 he
    rw [attributeValues, hf]
    dsimp only
    rw [if_pos (beq_iff_eq.1 hrole)]
    exact ih hrest _

theorem exists_attributeValues_error (h : table.takes attributes = false) (line : Nat)
    (fields : Record LinedValue) : ∃ e, attributeValues table line fields attributes = .error e := by
  induction attributes generalizing fields with
  | nil => cases h
  | cons e attributes ih =>
    rw [attributeValues]
    cases hf : table.get? e.1 with
    | none => exact ⟨_, rfl⟩
    | some f =>
      dsimp only
      split
      · next hrole =>
        refine ih ?_ _
        simpa [Table.takes, hf, hrole] using h
      · exact ⟨_, rfl⟩

theorem sameUpTo_attributeValues (h : attributes.Perm attributes') (distinct : (attributes.map Prod.fst).Nodup)
    (table : Table) (line line' : Nat) : SameUpTo bareFields (attributeValues table line [] attributes)
      (attributeValues table line' [] attributes') := by
  have htakes : table.takes attributes = table.takes attributes' := h.all_eq
  cases ht : table.takes attributes with
  | true =>
    rw [attributeValues_of_takes ht, attributeValues_of_takes (htakes.symm.trans ht), imageValues_perm h distinct]
    exact sameUpTo_ok (bareFields_imageValues line line' attributes' rfl)
  | false =>
    obtain ⟨e, he⟩ := exists_attributeValues_error ht line []
    obtain ⟨e', he'⟩ := exists_attributeValues_error (htakes.symm.trans ht) line' []
    rw [he, he']
    exact sameUpTo_error e e'

/-! ### Children of an object -/

/-- What is held under the name of a child with this value; a list goes on with it. -/
def Field.held? (f : Field) (v : LinedValue) (line : Nat) (old : Option LinedValue) : Option LinedValue :=
  if f.role == .list then
    match old with
    | some (.list first items) => some (.list first (items ++ [v]))
    | some _ => none
    | none => some (.list line [v])
  else some v

def Field.place (f : Field) (tag : String) (v : LinedValue) (line : Nat) (fields : Record LinedValue) :
    Record LinedValue :=
  if f.role == .list then takeUpItem tag v line fields else Record.insert tag v fields

def Field.refuses (f : Field) (tag : String) (fields : Record LinedValue) : Bool :=
  f.role.isElement && f.role != .list && Record.contains tag fields

variable {f f' : Field} {tag' : String} {m n : Tree}

theorem Field.place_eq (f : Field) (tag : String) (v : LinedValue) (line : Nat) (fields : Record LinedValue) :
    f.place tag v line fields =
      match f.held? v line (Record.get? tag fields) with
      | none => fields
      | some w => Record.insert tag w fields := by
  unfold place held? takeUpItem
  by_cases hrole : (f.role == .list) = true
  · rw [if_pos hrole, if_pos hrole]
    cases Record.get? tag fields with
    | none => rfl
    | some w => cases w <;> rfl
  · rw [if_neg hrole, if_neg hrole]

theorem Field.get?_place_of_ne (h : tag ≠ tag') :
    Record.get? tag' (f.place tag v line fields) = Record.get? tag' fields := by
  rw [place_eq]
  cases f.held? v line (Record.get? tag fields) with
  | none => rfl
  | some w => exact Record.get?_insert_of_ne h.symm w fields

theorem Field.place_comm (h : tag ≠ tag') :
    f.place tag v line (f'.place tag' v' line' fields) = f'.place tag' v' line' (f.place tag v line fields) := by
  rw [place_eq f, get?_place_of_ne h.symm, place_eq f', place_eq f', get?_place_of_ne h, place_eq f]
  cases f.held? v line (Record.get? tag fields) with
  | none => rfl
  | some w =>
    cases f'.held? v' line' (Record.get? tag' fields) with
    | none => rfl
    | some w' => exact Record.insert_comm h w w' fields

theorem Field.refuses_place_of_ne (h : tag ≠ tag') :
    f'.refuses tag' (f.place tag v line fields) = f'.refuses tag' fields := by
  rw [refuses, refuses, Record.contains, Record.contains, get?_place_of_ne h]

theorem Field.bareFields_place (hv : v.bare = v'.bare) (hf : bareFields fields = bareFields fields') (f : Field)
    (tag : String) (line line' : Nat) :
    bareFields (f.place tag v line fields) = bareFields (f.place tag v' line' fields') := by
  unfold place
  split
  · exact bareFields_takeUpItem hv hf tag
  · exact bareFields_insert hv hf tag

namespace Tree

def childValue (schema : Schema) (tag : String) (f : Field) (attributes : List (String × String)) (line : Nat)
    (children : List Tree) : Except Failure LinedValue :=
  fieldValue schema tag f attributes line children fun t fs => takeUpAll schema tag t fs children

def isRefused (table : Table) (fields : Record LinedValue) : Tree → Bool
  | .text _ _ => false
  | .element tag _ _ _ _ => (table.get? tag).any (·.refuses tag fields)

/-- What the child does to the fields, whatever they are. -/
def action (schema : Schema) (around : String) (table : Table) :
    Tree → Except Failure (Record LinedValue → Record LinedValue)
  | .text s line => (refuseText around s line).map fun _ => id
  | .element tag attributes line children _ =>
    match table.get? tag with
    | none => .error ⟨.unknownField tag, line⟩
    | some f => (childValue schema tag f attributes line children).map fun v => f.place tag v line

def refusal : Tree → Failure
  | .text _ line => ⟨.undescribedText "", line⟩
  | .element tag _ line _ _ => ⟨.alreadyDefined tag, line⟩

theorem takeUp_eq (n : Tree) (fields : Record LinedValue) : takeUp schema around table fields n =
    if n.isRefused table fields then .error n.refusal else (n.action schema around table).map (· fields) := by
  cases n with
  | text s line =>
    rw [takeUp, action, isRefused]
    cases refuseText around s line <;> rfl
  | element tag attributes line children closing =>
    rw [takeUp, action, isRefused]
    cases table.get? tag with
    | none => rfl
    | some f =>
      dsimp only [Option.any_some]
      change (if f.refuses tag fields then _ else _) = _
      split
      · rfl
      · change (childValue schema tag f attributes line children).map _ = _
        cases childValue schema tag f attributes line children <;> rfl

/-! ### Neighbours with different names -/

def hasTag (tag : String) : Tree → Bool
  | .text _ _ => false
  | .element t _ _ _ _ => t == tag

def Unlike (m n : Tree) : Prop := ∀ tag, hasTag tag m = true → hasTag tag n = false

theorem exists_place_of_action {k : Record LinedValue → Record LinedValue}
    (h : n.action schema around table = .ok k) :
    k = id ∨ ∃ tag f v line, hasTag tag n = true ∧ k = Field.place f tag v line := by
  cases n with
  | text s line =>
    rw [action] at h
    cases ht : refuseText around s line with
    | error e => rw [ht] at h; cases h
    | ok u => rw [ht] at h; cases h; exact .inl rfl
  | element tag attributes line children closing =>
    rw [action] at h
    cases hf : table.get? tag with
    | none => rw [hf] at h; cases h
    | some f =>
      rw [hf] at h
      dsimp only at h
      cases hv : childValue schema tag f attributes line children with
      | error e => rw [hv] at h; cases h
      | ok v =>
        rw [hv] at h
        cases h
        exact .inr ⟨tag, f, v, line, by simp [hasTag], rfl⟩

theorem Unlike.isRefused (h : Unlike m n) {k : Record LinedValue → Record LinedValue}
    (hk : m.action schema around table = .ok k) (fields : Record LinedValue) :
    n.isRefused table (k fields) = n.isRefused table fields := by
  rcases exists_place_of_action hk with rfl | ⟨tag, f, v, line, htag, rfl⟩
  · rfl
  · cases n with
    | text s line => rfl
    | element tag' attributes line' children closing =>
      have hne : tag ≠ tag' := by
        rintro rfl
        simpa [hasTag] using h tag htag
      simp only [Tree.isRefused, Field.refuses_place_of_ne hne]

theorem Unlike.action_comm (h : Unlike m n) {k k' : Record LinedValue → Record LinedValue}
    (hk : m.action schema around table = .ok k) (hk' : n.action schema around table = .ok k')
    (fields : Record LinedValue) : k' (k fields) = k (k' fields) := by
  rcases exists_place_of_action hk with rfl | ⟨tag, f, v, line, htag, rfl⟩
  · rfl
  · rcases exists_place_of_action hk' with rfl | ⟨tag', f', v', line', htag', rfl⟩
    · rfl
    · refine Field.place_comm ?_
      rintro rfl
      rw [h _ htag] at htag'
      cases htag'

theorem Unlike.symm (h : Unlike m n) : Unlike n m := by
  intro tag hn
  cases hm : hasTag tag m with
  | false => rfl
  | true =>
    rw [h tag hm] at hn
    cases hn

/-- Two children that have no name in common may be taken in either order. -/
theorem Unlike.sameUpTo_takeUp (h : Unlike m n) (fields : Record LinedValue) :
    SameUpTo id ((takeUp schema around table fields m).bind fun fs => takeUp schema around table fs n)
      ((takeUp schema around table fields n).bind fun fs => takeUp schema around table fs m) := by
  simp only [takeUp_eq]
  cases hm : m.action schema around table with
  | error e =>
    cases hn : n.action schema around table with
    | error e' => cases m.isRefused table fields <;> cases n.isRefused table fields <;> exact sameUpTo_error _ _
    | ok k' =>
      have hkept := h.symm.isRefused hn fields
      cases hrefused : m.isRefused table fields <;> cases n.isRefused table fields <;>
        simp [Except.map, Except.bind, hkept, hrefused, SameUpTo, Except.toOption]
  | ok k =>
    have hkept := h.isRefused hm fields
    cases hn : n.action schema around table with
    | error e' =>
      cases m.isRefused table fields <;> cases hrefused' : n.isRefused table fields <;>
        simp [Except.map, Except.bind, hkept, hrefused', SameUpTo, Except.toOption]
    | ok k' =>
      have hkept' := h.symm.isRefused hn fields
      have hcomm := h.action_comm hm hn fields
      cases hrefused : m.isRefused table fields <;> cases hrefused' : n.isRefused table fields <;>
        simp [Except.map, Except.bind, hkept, hkept', hrefused, hrefused', hcomm, SameUpTo, Except.toOption]

theorem takeUpAll_cons (n : Tree) (ns : List Tree) (fields : Record LinedValue) :
    takeUpAll schema around table fields (n :: ns) =
      (takeUp schema around table fields n).bind fun fs => takeUpAll schema around table fs ns := by
  rw [takeUpAll]

theorem takeUpAll_cons_cons (n m : Tree) (ns : List Tree) (fields : Record LinedValue) :
    takeUpAll schema around table fields (n :: m :: ns) =
      ((takeUp schema around table fields n).bind fun fs => takeUp schema around table fs m).bind fun fs =>
        takeUpAll schema around table fs ns := by
  rw [takeUpAll]
  cases takeUp schema around table fields n <;> rfl

theorem sameUpTo_takeUpAll_cons (n : Tree) (fields : Record LinedValue)
    (h : ∀ fs, SameUpTo id (takeUpAll schema around table fs ns) (takeUpAll schema around table fs ns')) :
    SameUpTo id (takeUpAll schema around table fields (n :: ns)) (takeUpAll schema around table fields (n :: ns')) :=
  (SameUpTo.refl _).bind_id h

/-- A child may be taken before all those in front of it that have no name in common with it. -/
theorem sameUpTo_takeUpAll_front {front : List Tree} (h : ∀ n ∈ front, Unlike n m) (back : List Tree)
    (fields : Record LinedValue) : SameUpTo id (takeUpAll schema around table fields (front ++ m :: back))
      (takeUpAll schema around table fields (m :: (front ++ back))) := by
  induction front generalizing fields with
  | nil => exact SameUpTo.refl _
  | cons n front ih =>
    obtain ⟨hn, hfront⟩ := List.forall_mem_cons.1 h
    have hnext : SameUpTo id (takeUpAll schema around table fields (n :: m :: (front ++ back)))
        (takeUpAll schema around table fields (m :: n :: (front ++ back))) := by
      rw [takeUpAll_cons_cons, takeUpAll_cons_cons]
      exact (hn.sameUpTo_takeUp fields).bind_id fun _ => SameUpTo.refl _
    exact (sameUpTo_takeUpAll_cons n fields fun fs => ih hfront fs).trans hnext

/-- The first child in the new order stands behind none of its name in the old one. -/
theorem exists_front (order : ns.Perm (m :: ns'))
    (kept : ∀ tag, ns.filter (hasTag tag) = (m :: ns').filter (hasTag tag)) :
    ∃ front back, ns = front ++ m :: back ∧ ∀ n ∈ front, Unlike n m := by
  cases hm : m with
  | text s line =>
    obtain ⟨front, back, rfl⟩ := List.append_of_mem (order.mem_iff.2 List.mem_cons_self)
    exact ⟨front, back, by rw [hm], fun n _ tag _ => rfl⟩
  | element tag attributes line children closing =>
    have hfirst : ns.filter (hasTag tag) = m :: ns'.filter (hasTag tag) := by
      rw [kept tag, List.filter_cons_of_pos (by simp [hm, hasTag])]
    obtain ⟨front, back, rfl, hfront, -, -⟩ := List.filter_eq_cons_iff.1 hfirst
    refine ⟨front, back, by rw [hm], fun n hn t ht => ?_⟩
    rw [hasTag, beq_eq_false_iff_ne]
    rintro rfl
    exact hfront n hn ht

/-- Children may be taken in any order in which those of the same name stay in order. -/
theorem sameUpTo_takeUpAll_shuffle (order : ns.Perm ns')
    (kept : ∀ tag, ns.filter (hasTag tag) = ns'.filter (hasTag tag)) (fields : Record LinedValue) :
    SameUpTo id (takeUpAll schema around table fields ns) (takeUpAll schema around table fields ns') := by
  induction ns' generalizing ns fields with
  | nil =>
    rw [order.eq_nil]
    exact SameUpTo.refl _
  | cons m ns' ih =>
    obtain ⟨front, back, rfl, hfront⟩ := exists_front order kept
    have hrest : (front ++ back).Perm ns' := (List.perm_middle.symm.trans order).cons_inv
    refine (sameUpTo_takeUpAll_front hfront back fields).trans (sameUpTo_takeUpAll_cons m fields fun fs => ?_)
    refine ih hrest (fun tag => ?_) fs
    have hkept := kept tag
    rw [List.filter_append] at hkept ⊢
    cases htag : hasTag tag m with
    | false =>
      rwa [List.filter_cons_of_neg (by simp [htag]), List.filter_cons_of_neg (by simp [htag])] at hkept
    | true =>
      have hnone : front.filter (hasTag tag) = [] := by
        refine List.filter_eq_nil_iff.2 fun n hn hn' => ?_
        rw [hfront n hn tag hn'] at htag
        cases htag
      rw [hnone, List.filter_cons_of_pos htag, List.filter_cons_of_pos htag] at hkept
      rw [hnone]
      exact (List.cons.inj hkept).2

end Tree

end TaggedProse
