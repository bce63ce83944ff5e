import TaggedProse.Assembly.Basic

/-! Element trees, and values with the lines they belong to in place of identities. The parts of a
tree are its tags and texts in document order. -/
namespace TaggedProse

inductive Tree where
  | text (s : List Char) (line : Nat)
  /-- An element whose tag stands on `line`, and its closing tag on `closing`. -/
  | element (tag : String) (attributes : List (String × String)) (line : Nat)
    (children : List Tree) (closing : Nat)

namespace Tree

mutual

def parts : Tree → List Part
  | .text s line => [.text s line]
  | .element tag attributes line children closing =>
    .opening tag attributes line :: (partsOf children ++ [.closing tag closing])

def partsOf : List Tree → List Part
  | [] => []
  | n :: ns => n.parts ++ partsOf ns

end

end Tree

inductive LinedValue where
  | text (line : Nat) (text : String)
  | object (line : Nat) (fields : List (String × LinedValue))
  | list (line : Nat) (items : List LinedValue)
  | content (line : Nat) (fields : List (String × LinedValue)) (field : String)

def LinedValue.line : LinedValue → Nat
  | .text line _ | .object line _ | .list line _ | .content line _ _ => line

structure LinedCommand where
  name : String
  value : LinedValue

mutual

def Value.lined? (line? : Nat → Option Nat) : Value → Option LinedValue
  | .text id t => (line? id).map (.text · t)
  | .object id fields => do return .object (← line? id) (← Value.linedFields? line? fields)
  | .list id items => do return .list (← line? id) (← Value.linedItems? line? items)
  | .content id fields field => do
    return .content (← line? id) (← Value.linedFields? line? fields) field

def Value.linedFields? (line? : Nat → Option Nat) :
    List (String × Value) → Option (List (String × LinedValue))
  | [] => some []
  | (name, v) :: r => do return (name, ← v.lined? line?) :: (← Value.linedFields? line? r)

def Value.linedItems? (line? : Nat → Option Nat) : List Value → Option (List LinedValue)
  | [] => some []
  | v :: r => do return (← v.lined? line?) :: (← Value.linedItems? line? r)

end

def Command.lined? (line? : Nat → Option Nat) (c : Command) : Option LinedCommand :=
  (c.value.lined? line?).map (⟨c.name, ·⟩)

namespace Value
variable {line? line'? : Nat → Option Nat}

@[simp] theorem lined?_text (id : Nat) (t : String) :
    (Value.text id t).lined? line? = (line? id).map (.text · t) := rfl

theorem lined?_object_eq_some {id : Nat} {fields : List (String × Value)} {lv : LinedValue} :
    (Value.object id fields).lined? line? = some lv ↔ ∃ line lfields, line? id = some line ∧
      linedFields? line? fields = some lfields ∧ lv = .object line lfields := by
  simp [lined?, Option.bind_eq_some_iff, eq_comm (a := lv)]

theorem lined?_list_eq_some {id : Nat} {items : List Value} {lv : LinedValue} :
    (Value.list id items).lined? line? = some lv ↔ ∃ line litems, line? id = some line ∧
      linedItems? line? items = some litems ∧ lv = .list line litems := by
  simp [lined?, Option.bind_eq_some_iff, eq_comm (a := lv)]

theorem lined?_content_eq_some {id : Nat} {fields : List (String × Value)} {field : String}
    {lv : LinedValue} :
    (Value.content id fields field).lined? line? = some lv ↔ ∃ line lfields, line? id = some line ∧
      linedFields? line? fields = some lfields ∧ lv = .content line lfields field := by
  simp [lined?, Option.bind_eq_some_iff, eq_comm (a := lv)]

theorem linedFields?_cons_eq_some {name : String} {v : Value} {fields : List (String × Value)}
    {lfields : List (String × LinedValue)} :
    linedFields? line? ((name, v) :: fields) = some lfields ↔ ∃ lv rest,
      v.lined? line? = some lv ∧ linedFields? line? fields = some rest ∧
        lfields = (name, lv) :: rest := by
  simp [linedFields?, Option.bind_eq_some_iff, eq_comm (a := lfields)]

theorem linedItems?_cons_eq_some {v : Value} {items : List Value} {litems : List LinedValue} :
    linedItems? line? (v :: items) = some litems ↔ ∃ lv rest, v.lined? line? = some lv ∧
      linedItems? line? items = some rest ∧ litems = lv :: rest := by
  simp [linedItems?, Option.bind_eq_some_iff, eq_comm (a := litems)]

mutual

/-- Values keep their lines when more identities get one. -/
theorem lined?_mono (h : ∀ id line, line? id = some line → line'? id = some line) (v : Value)
    {lv : LinedValue} (hv : v.lined? line? = some lv) : v.lined? line'? = some lv := by
  cases v with
  | text id t =>
    obtain ⟨line, hline, rfl⟩ := Option.map_eq_some_iff.1 hv
    simp [h id line hline]
  | object id fields =>
    obtain ⟨line, lfields, hline, hfields, rfl⟩ := lined?_object_eq_some.1 hv
    exact lined?_object_eq_some.2 ⟨line, lfields, h id line hline, linedFields?_mono h fields hfields, rfl⟩
  | list id items =>
    obtain ⟨line, litems, hline, hitems, rfl⟩ := lined?_list_eq_some.1 hv
    exact lined?_list_eq_some.2 ⟨line, litems, h id line hline, linedItems?_mono h items hitems, rfl⟩
  | content id fields field =>
    obtain ⟨line, lfields, hline, hfields, rfl⟩ := lined?_content_eq_some.1 hv
    exact lined?_content_eq_some.2 ⟨line, lfields, h id line hline, linedFields?_mono h fields hfields, rfl⟩

theorem linedFields?_mono (h : ∀ id line, line? id = some line → line'? id = some line)
    (fields : List (String × Value)) {lfields : List (String × LinedValue)}
    (hf : linedFields? line? fields = some lfields) : linedFields? line'? fields = some lfields := by
  match fields with
  | [] => exact hf
  | (name, v) :: r =>
    obtain ⟨lv, rest, hv, hr, rfl⟩ := linedFields?_cons_eq_some.1 hf
    exact linedFields?_cons_eq_some.2 ⟨lv, rest, lined?_mono h v hv, linedFields?_mono h r hr, rfl⟩

theorem linedItems?_mono (h : ∀ id line, line? id = some line → line'? id = some line)
    (items : List Value) {litems : List LinedValue} (hi : linedItems? line? items = some litems) :
    linedItems? line'? items = some litems := by
  match items with
  | [] => exact hi
  | v :: r =>
    obtain ⟨lv, rest, hv, hr, rfl⟩ := linedItems?_cons_eq_some.1 hi
    exact linedItems?_cons_eq_some.2 ⟨lv, rest, lined?_mono h v hv, linedItems?_mono h r hr, rfl⟩

end

theorem linedFields?_insert (name : String) {v : Value} {lv : LinedValue}
    {fields : List (String × Value)} {lfields : List (String × LinedValue)}
    (hv : v.lined? line? = some lv) (hf : linedFields? line? fields = some lfields) :
    linedFields? line? (Record.insert name v fields) = some (Record.insert name lv lfields) := by
  induction fields generalizing lfields with
  | nil =>
    cases hf
    exact linedFields?_cons_eq_some.2 ⟨lv, [], hv, rfl, rfl⟩
  | cons e fields ih =>
    obtain ⟨n, w⟩ := e
    obtain ⟨lw, rest, hw, hr, rfl⟩ := linedFields?_cons_eq_some.1 hf
    rw [Record.insert, Record.insert]
    split
    · exact linedFields?_cons_eq_some.2 ⟨lv, _, hv, hf, rfl⟩
    · split
      · exact linedFields?_cons_eq_some.2 ⟨lv, rest, hv, hr, rfl⟩
      · exact linedFields?_cons_eq_some.2 ⟨lw, _, hw, ih hr, rfl⟩

/-- Both records have a field of the name, or neither has. -/
theorem get?_of_linedFields? (name : String) {fields : List (String × Value)}
    {lfields : List (String × LinedValue)} (hf : linedFields? line? fields = some lfields) :
    (Record.get? name fields = none ∧ Record.get? name lfields = none) ∨
      ∃ v lv, Record.get? name fields = some v ∧ v.lined? line? = some lv ∧
        Record.get? name lfields = some lv := by
  induction fields generalizing lfields with
  | nil => cases hf; exact .inl ⟨rfl, rfl⟩
  | cons e fields ih =>
    obtain ⟨n, w⟩ := e
    obtain ⟨lw, rest, hw, hr, rfl⟩ := linedFields?_cons_eq_some.1 hf
    rw [Record.get?, Record.get?]
    split
    · exact .inr ⟨w, lw, rfl, hw, rfl⟩
    · exact ih hr

theorem contains_of_linedFields? (name : String) {fields : List (String × Value)}
    {lfields : List (String × LinedValue)} (hf : linedFields? line? fields = some lfields) :
    Record.contains name lfields = Record.contains name fields := by
  rcases get?_of_linedFields? name hf with ⟨hn, hl⟩ | ⟨v, lv, hn, -, hl⟩
  · simp only [Record.contains, hn, hl, Option.isSome]
  · simp only [Record.contains, hn, hl, Option.isSome]

theorem linedItems?_append {items : List Value} {litems : List LinedValue} {v : Value}
    {lv : LinedValue} (hi : linedItems? line? items = some litems) (hv : v.lined? line? = some lv) :
    linedItems? line? (items ++ [v]) = some (litems ++ [lv]) := by
  induction items generalizing litems with
  | nil =>
    cases hi
    exact linedItems?_cons_eq_some.2 ⟨lv, [], hv, rfl, rfl⟩
  | cons w items ih =>
    obtain ⟨lw, rest, hw, hr, rfl⟩ := linedItems?_cons_eq_some.1 hi
    exact linedItems?_cons_eq_some.2 ⟨lw, _, hw, ih hr, rfl⟩

end Value

namespace Command
variable {line? line'? : Nat → Option Nat} {commands : List Command} {lined : List LinedCommand}

theorem mapM_lined?_cons_eq_some {c : Command} :
    (c :: commands).mapM (Command.lined? line?) = some lined ↔ ∃ lv rest, c.value.lined? line? = some lv ∧
      commands.mapM (Command.lined? line?) = some rest ∧ lined = ⟨c.name, lv⟩ :: rest := by
  simp only [List.mapM_cons, Command.lined?, Option.bind_eq_bind, Option.bind_eq_some_iff]
  constructor
  · rintro ⟨lc, hlc, rest, hrest, h⟩
    obtain ⟨lv, hlv, rfl⟩ := Option.map_eq_some_iff.1 hlc
    exact ⟨lv, rest, hlv, hrest, (Option.some.inj h).symm⟩
  · rintro ⟨lv, rest, hlv, hrest, rfl⟩
    exact ⟨_, Option.map_eq_some_iff.2 ⟨lv, hlv, rfl⟩, rest, hrest, rfl⟩

theorem mapM_lined?_mono (h : ∀ id line, line? id = some line → line'? id = some line)
    (hc : commands.mapM (Command.lined? line?) = some lined) :
    commands.mapM (Command.lined? line'?) = some lined := by
  induction commands generalizing lined with
  | nil => exact hc
  | cons c commands ih =>
    obtain ⟨lv, rest, hv, hrest, rfl⟩ := mapM_lined?_cons_eq_some.1 hc
    exact mapM_lined?_cons_eq_some.2 ⟨lv, rest, Value.lined?_mono h c.value hv, ih hrest, rfl⟩

theorem mapM_lined?_append {others : List Command} {linedOthers : List LinedCommand}
    (hc : commands.mapM (Command.lined? line?) = some lined)
    (ho : others.mapM (Command.lined? line?) = some linedOthers) :
    (commands ++ others).mapM (Command.lined? line?) = some (lined ++ linedOthers) := by
  rw [List.mapM_append, hc, ho]
  rfl

theorem mapM_lined?_singleton {name : String} {v : Value} {lv : LinedValue}
    (h : v.lined? line? = some lv) :
    [Command.mk name v].mapM (Command.lined? line?) = some [⟨name, lv⟩] := by
  rw [List.mapM_cons, Command.lined?, h]
  rfl

theorem exists_of_mapM_lined?_eq_singleton {name : String} {lv : LinedValue}
    (h : commands.mapM (Command.lined? line?) = some [⟨name, lv⟩]) :
    ∃ v, commands = [⟨name, v⟩] ∧ v.lined? line? = some lv := by
  cases commands with
  | nil => cases h
  | cons c commands =>
    obtain ⟨lv', rest, hv, hrest, heq⟩ := mapM_lined?_cons_eq_some.1 h
    cases heq
    cases commands with
    | nil => exact ⟨c.value, rfl, hv⟩
    | cons c' commands =>
      obtain ⟨lv', rest, -, -, hnil⟩ := mapM_lined?_cons_eq_some.1 hrest
      cases hnil

end Command

end TaggedProse
