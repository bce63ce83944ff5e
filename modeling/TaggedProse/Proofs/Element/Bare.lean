import TaggedProse.Proofs.Element.Tree

/-! Trees without their lines, and values without lines or identities. Values are alike when they are the
same without them. -/
namespace TaggedProse

namespace Tree

mutual

def bare : Tree → Tree
  | .text s _ => .text s 0
  | .element tag attributes _ children _ => .element tag attributes 0 (bareAll children) 0

def bareAll : List Tree → List Tree
  | [] => []
  | n :: ns => n.bare :: bareAll ns

end

theorem bareAll_eq_map (ns : List Tree) : bareAll ns = ns.map bare := by
  induction ns with
  | nil => rfl
  | cons n ns ih => simp [bareAll, ih]

theorem exists_of_bare_eq_text {n : Tree} {s : List Char} (h : n.bare = .text s 0) :
    ∃ line, n = .text s line := by
  cases n with
  | text t line => cases h; exact ⟨line, rfl⟩
  | element => cases h

theorem exists_of_bare_eq_element {n : Tree} {tag : String} {attributes : List (String × String)}
    {children : List Tree} (h : n.bare = .element tag attributes 0 children 0) :
    ∃ line ns closing, n = .element tag attributes line ns closing ∧ ns.map bare = children := by
  cases n with
  | text => cases h
  | element tag attributes line ns closing =>
    cases h
    exact ⟨line, ns, closing, rfl, (bareAll_eq_map ns).symm⟩

theorem exists_of_map_bare_eq_element {ns : List Tree} {tag : String} {attributes : List (String × String)}
    {children : List Tree} (h : ns.map bare = [.element tag attributes 0 children 0]) :
    ∃ line ms closing, ns = [.element tag attributes line ms closing] ∧ ms.map bare = children := by
  obtain ⟨n, rfl, hn⟩ := List.map_eq_singleton_iff.1 h
  obtain ⟨line, ms, closing, rfl, hms⟩ := exists_of_bare_eq_element hn
  exact ⟨line, ms, closing, rfl, hms⟩

end Tree

namespace Value

mutual

def bare : Value → Value
  | .text _ t => .text 0 t
  | .object _ fields => .object 0 (bareFields fields)
  | .list _ items => .list 0 (bareItems items)
  | .content _ fields field => .content 0 (bareFields fields) field

def bareFields : List (String × Value) → List (String × Value)
  | [] => []
  | (name, v) :: r => (name, v.bare) :: bareFields r

def bareItems : List Value → List Value
  | [] => []
  | v :: r => v.bare :: bareItems r

end

theorem bareFields_eq_map (fields : List (String × Value)) :
    bareFields fields = fields.map fun e => (e.1, e.2.bare) := by
  induction fields with
  | nil => rfl
  | cons e fields ih => simp [bareFields, ih]

mutual

theorem alike_of_bare_eq (v w : Value) (h : v.bare = w.bare) : v.alike w = true := by
  cases v with
  | text id t => cases w <;> simp_all [bare, alike]
  | object id fields =>
    cases w with
    | object id' others =>
      rw [bare, bare, Value.object.injEq] at h
      exact fieldsAlike_of_bareFields_eq fields others h.2
    | _ => simp [bare] at h
  | list id items =>
    cases w with
    | list id' others =>
      rw [bare, bare, Value.list.injEq] at h
      exact itemsAlike_of_bareItems_eq items others h.2
    | _ => simp [bare] at h
  | content id fields field =>
    cases w with
    | content id' others field' =>
      rw [bare, bare, Value.content.injEq] at h
      rw [alike, fieldsAlike_of_bareFields_eq fields others h.2.1, h.2.2]
      simp
    | _ => simp [bare] at h

theorem fieldsAlike_of_bareFields_eq (fs gs : List (String × Value)) (h : bareFields fs = bareFields gs) :
    fieldsAlike fs gs = true := by
  match fs, gs with
  | [], [] => rfl
  | [], (n, w) :: gs => simp [bareFields] at h
  | (m, v) :: fs, [] => simp [bareFields] at h
  | (m, v) :: fs, (n, w) :: gs =>
    rw [bareFields, bareFields, List.cons.injEq, Prod.mk.injEq] at h
    obtain ⟨⟨rfl, hv⟩, hfs⟩ := h
    simp [fieldsAlike, alike_of_bare_eq v w hv, fieldsAlike_of_bareFields_eq fs gs hfs]

theorem itemsAlike_of_bareItems_eq (vs ws : List Value) (h : bareItems vs = bareItems ws) :
    itemsAlike vs ws = true := by
  match vs, ws with
  | [], [] => rfl
  | [], w :: ws => simp [bareItems] at h
  | v :: vs, [] => simp [bareItems] at h
  | v :: vs, w :: ws =>
    rw [bareItems, bareItems, List.cons.injEq] at h
    simp [itemsAlike, alike_of_bare_eq v w h.1, itemsAlike_of_bareItems_eq vs ws h.2]

end

end Value

namespace LinedValue

mutual

def bare : LinedValue → Value
  | .text _ t => .text 0 t
  | .object _ fields => .object 0 (bareFields fields)
  | .list _ items => .list 0 (bareItems items)
  | .content _ fields field => .content 0 (bareFields fields) field

def bareFields : List (String × LinedValue) → List (String × Value)
  | [] => []
  | (name, v) :: r => (name, v.bare) :: bareFields r

def bareItems : List LinedValue → List Value
  | [] => []
  | v :: r => v.bare :: bareItems r

end

theorem bareFields_eq_map (fields : List (String × LinedValue)) :
    bareFields fields = fields.map fun e => (e.1, e.2.bare) := by
  induction fields with
  | nil => rfl
  | cons e fields ih => simp [bareFields, ih]

theorem bareItems_append (vs ws : List LinedValue) : bareItems (vs ++ ws) = bareItems vs ++ bareItems ws := by
  induction vs with
  | nil => rfl
  | cons v vs ih => simp [bareItems, ih]

end LinedValue

namespace Value
variable {line? : Nat → Option Nat}

mutual

theorem bare_of_lined? (v : Value) {lv : LinedValue} (h : v.lined? line? = some lv) : lv.bare = v.bare := by
  cases v with
  | text id t =>
    obtain ⟨line, -, rfl⟩ := Option.map_eq_some_iff.1 h
    rfl
  | object id fields =>
    obtain ⟨line, lfields, -, hfields, rfl⟩ := lined?_object_eq_some.1 h
    rw [bare, LinedValue.bare, bareFields_of_linedFields? fields hfields]
  | list id items =>
    obtain ⟨line, litems, -, hitems, rfl⟩ := lined?_list_eq_some.1 h
    rw [bare, LinedValue.bare, bareItems_of_linedItems? items hitems]
  | content id fields field =>
    obtain ⟨line, lfields, -, hfields, rfl⟩ := lined?_content_eq_some.1 h
    rw [bare, LinedValue.bare, bareFields_of_linedFields? fields hfields]

theorem bareFields_of_linedFields? (fields : List (String × Value)) {lfields : List (String × LinedValue)}
    (h : linedFields? line? fields = some lfields) : LinedValue.bareFields lfields = bareFields fields := by
  match fields with
  | [] => cases h; rfl
  | (name, v) :: r =>
    obtain ⟨lv, rest, hv, hr, rfl⟩ := linedFields?_cons_eq_some.1 h
    rw [bareFields, LinedValue.bareFields, bare_of_lined? v hv, bareFields_of_linedFields? r hr]

theorem bareItems_of_linedItems? (items : List Value) {litems : List LinedValue}
    (h : linedItems? line? items = some litems) : LinedValue.bareItems litems = bareItems items := by
  match items with
  | [] => cases h; rfl
  | v :: r =>
    obtain ⟨lv, rest, hv, hr, rfl⟩ := linedItems?_cons_eq_some.1 h
    rw [bareItems, LinedValue.bareItems, bare_of_lined? v hv, bareItems_of_linedItems? r hr]

end

end Value

/-! ### Commands -/

def LinedCommand.bare (c : LinedCommand) : Command := ⟨c.name, c.value.bare⟩

namespace Command

def bare (c : Command) : Command := ⟨c.name, c.value.bare⟩

theorem map_bare_of_mapM_lined? {line? : Nat → Option Nat} {commands : List Command} {lined : List LinedCommand}
    (h : commands.mapM (Command.lined? line?) = some lined) :
    lined.map LinedCommand.bare = commands.map bare := by
  induction commands generalizing lined with
  | nil =>
    cases h
    rfl
  | cons c commands ih =>
    obtain ⟨lv, rest, hv, hrest, rfl⟩ := mapM_lined?_cons_eq_some.1 h
    rw [List.map_cons, List.map_cons, ih hrest, LinedCommand.bare, bare, Value.bare_of_lined? c.value hv]

theorem alike_of_bare_eq {c c' : Command} (h : c.bare = c'.bare) : c.alike c' = true := by
  obtain ⟨hname, hvalue⟩ := Command.mk.inj h
  simp [alike, hname, Value.alike_of_bare_eq _ _ hvalue]

end Command

end TaggedProse
