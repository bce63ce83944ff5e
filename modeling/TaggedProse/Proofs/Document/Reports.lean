import TaggedProse.Document.Basic
import TaggedProse.Proofs.Element.Tree
import TaggedProse.Proofs.Ledger

/-! What is reported of the values of a paragraph: each of them once, with its line in the document. -/
namespace TaggedProse
variable {line? line'? : Nat → Option Nat} {offset id n : Nat} {v : Value} {lv : LinedValue}
  {notes : List (Nat × Nat)} {values : List Value} {commands : List Command} {lined : List LinedCommand}

/-! ### Shifted lines -/

mutual

def LinedValue.shift (offset : Nat) : LinedValue → LinedValue
  | .text line t => .text (line + offset) t
  | .object line fields => .object (line + offset) (LinedValue.shiftFields offset fields)
  | .list line items => .list (line + offset) (LinedValue.shiftItems offset items)
  | .content line fields field => .content (line + offset) (LinedValue.shiftFields offset fields) field

def LinedValue.shiftFields (offset : Nat) : List (String × LinedValue) → List (String × LinedValue)
  | [] => []
  | (name, v) :: r => (name, v.shift offset) :: LinedValue.shiftFields offset r

def LinedValue.shiftItems (offset : Nat) : List LinedValue → List LinedValue
  | [] => []
  | v :: r => v.shift offset :: LinedValue.shiftItems offset r

end

def LinedCommand.shift (offset : Nat) (c : LinedCommand) : LinedCommand := ⟨c.name, c.value.shift offset⟩

namespace Value

def Shifts (line? line'? : Nat → Option Nat) (offset : Nat) (values : List Value) : Prop :=
  ∀ w ∈ values, ∀ n, line? w.id = some n → line'? w.id = some (n + offset)

mutual

theorem lined?_shift (v : Value) (h : Shifts line? line'? offset v.nodes)
    {lv : LinedValue} (hv : v.lined? line? = some lv) : v.lined? line'? = some (lv.shift offset) := by
  cases v with
  | text id t =>
    obtain ⟨line, hline, rfl⟩ := Option.map_eq_some_iff.1 hv
    exact Option.map_eq_some_iff.2 ⟨_, h (.text id t) List.mem_cons_self line hline, rfl⟩
  | object id fields =>
    rw [nodes] at h
    obtain ⟨line, lfields, hline, hfields, rfl⟩ := lined?_object_eq_some.1 hv
    exact lined?_object_eq_some.2 ⟨_, _, h (.object id fields) (by simp) line hline,
      linedFields?_shift fields (fun w hw => h w (List.mem_append_left _ hw)) hfields, rfl⟩
  | list id items =>
    rw [nodes] at h
    obtain ⟨line, litems, hline, hitems, rfl⟩ := lined?_list_eq_some.1 hv
    exact lined?_list_eq_some.2 ⟨_, _, h (.list id items) (by simp) line hline,
      linedItems?_shift items (fun w hw => h w (List.mem_append_left _ hw)) hitems, rfl⟩
  | content id fields field =>
    rw [nodes] at h
    obtain ⟨line, lfields, hline, hfields, rfl⟩ := lined?_content_eq_some.1 hv
    exact lined?_content_eq_some.2 ⟨_, _, h (.content id fields field) (by simp) line hline,
      linedFields?_shift fields (fun w hw => h w (List.mem_append_left _ hw)) hfields, rfl⟩

theorem linedFields?_shift (fields : List (String × Value))
    (h : Shifts line? line'? offset (fieldNodes fields)) {lfields : List (String × LinedValue)}
    (hf : linedFields? line? fields = some lfields) :
    linedFields? line'? fields = some (LinedValue.shiftFields offset lfields) := by
  match fields with
  | [] => cases hf; rfl
  | (name, v) :: r =>
    rw [fieldNodes] at h
    obtain ⟨lv, rest, hv, hr, rfl⟩ := linedFields?_cons_eq_some.1 hf
    exact linedFields?_cons_eq_some.2 ⟨_, _, lined?_shift v (fun w hw => h w (List.mem_append_left _ hw)) hv,
      linedFields?_shift r (fun w hw => h w (List.mem_append_right _ hw)) hr, rfl⟩

theorem linedItems?_shift (items : List Value) (h : Shifts line? line'? offset (itemNodes items))
    {litems : List LinedValue} (hi : linedItems? line? items = some litems) :
    linedItems? line'? items = some (LinedValue.shiftItems offset litems) := by
  match items with
  | [] => cases hi; rfl
  | v :: r =>
    rw [itemNodes] at h
    obtain ⟨lv, rest, hv, hr, rfl⟩ := linedItems?_cons_eq_some.1 hi
    exact linedItems?_cons_eq_some.2 ⟨_, _, lined?_shift v (fun w hw => h w (List.mem_append_left _ hw)) hv,
      linedItems?_shift r (fun w hw => h w (List.mem_append_right _ hw)) hr, rfl⟩

end

def AllLined (line? : Nat → Option Nat) (values : List Value) : Prop :=
  ∀ w ∈ values, ∃ n, line? w.id = some n

theorem AllLined.append {others : List Value} (h : AllLined line? values) (ho : AllLined line? others) :
    AllLined line? (values ++ others) :=
  fun w hw => (List.mem_append.1 hw).elim (h w) (ho w)

theorem AllLined.singleton (h : line? v.id = some n) : AllLined line? [v] := by
  intro w hw
  obtain rfl := List.mem_singleton.1 hw
  exact ⟨n, h⟩

mutual

theorem allLined_nodes (v : Value) {lv : LinedValue} (hv : v.lined? line? = some lv) :
    AllLined line? v.nodes := by
  cases v with
  | text id t =>
    obtain ⟨line, hline, rfl⟩ := Option.map_eq_some_iff.1 hv
    exact AllLined.singleton (v := .text id t) hline
  | object id fields =>
    obtain ⟨line, lfields, hline, hfields, rfl⟩ := lined?_object_eq_some.1 hv
    exact (allLined_fieldNodes fields hfields).append (AllLined.singleton (v := .object id fields) hline)
  | list id items =>
    obtain ⟨line, litems, hline, hitems, rfl⟩ := lined?_list_eq_some.1 hv
    exact (allLined_itemNodes items hitems).append (AllLined.singleton (v := .list id items) hline)
  | content id fields field =>
    obtain ⟨line, lfields, hline, hfields, rfl⟩ := lined?_content_eq_some.1 hv
    exact (allLined_fieldNodes fields hfields).append
      (AllLined.singleton (v := .content id fields field) hline)

theorem allLined_fieldNodes (fields : List (String × Value)) {lfields : List (String × LinedValue)}
    (hf : linedFields? line? fields = some lfields) : AllLined line? (fieldNodes fields) := by
  match fields with
  | [] => exact List.forall_mem_nil _
  | (name, v) :: r =>
    obtain ⟨lv, rest, hv, hr, rfl⟩ := linedFields?_cons_eq_some.1 hf
    exact (allLined_nodes v hv).append (allLined_fieldNodes r hr)

theorem allLined_itemNodes (items : List Value) {litems : List LinedValue}
    (hi : linedItems? line? items = some litems) : AllLined line? (itemNodes items) := by
  match items with
  | [] => exact List.forall_mem_nil _
  | v :: r =>
    obtain ⟨lv, rest, hv, hr, rfl⟩ := linedItems?_cons_eq_some.1 hi
    exact (allLined_nodes v hv).append (allLined_itemNodes r hr)

end

end Value

/-! ### Reports -/

def commandNodes (commands : List Command) : List Value := commands.flatMap fun c => c.value.nodes

theorem mapM_lined?_shift (h : Value.Shifts line? line'? offset (commandNodes commands))
    (hc : commands.mapM (Command.lined? line?) = some lined) :
    commands.mapM (Command.lined? line'?) = some (lined.map (·.shift offset)) := by
  induction commands generalizing lined with
  | nil => cases hc; rfl
  | cons c commands ih =>
    obtain ⟨lv, rest, hv, hr, rfl⟩ := Command.mapM_lined?_cons_eq_some.1 hc
    exact Command.mapM_lined?_cons_eq_some.2 ⟨_, _,
      Value.lined?_shift c.value (fun w hw => h w (List.mem_append_left _ hw)) hv,
      ih (fun w hw => h w (List.mem_append_right _ hw)) hr, rfl⟩

theorem allLined_commandNodes (hc : commands.mapM (Command.lined? line?) = some lined) :
    Value.AllLined line? (commandNodes commands) := by
  induction commands generalizing lined with
  | nil => exact List.forall_mem_nil _
  | cons c commands ih =>
    obtain ⟨lv, rest, hv, hr, rfl⟩ := Command.mapM_lined?_cons_eq_some.1 hc
    exact (Value.allLined_nodes c.value hv).append (ih hr)

def reportedLine? (reports : List Report) (id : Nat) : Option Nat :=
  (reports.find? (·.value.id == id)).map Report.line

theorem reportedLine?_reportsOf (hv : v ∈ values) (h : notes.lookup v.id = some n) :
    reportedLine? (reportsOf notes values) v.id = some n := by
  induction values with
  | nil => cases hv
  | cons w values ih =>
    have hrest : v.id ≠ w.id → reportedLine? (reportsOf notes values) v.id = some n := by
      intro hne
      rcases List.mem_cons.1 hv with rfl | hv
      · exact absurd rfl hne
      · exact ih hv
    rw [reportsOf, List.filterMap_cons]
    cases hw : notes.lookup w.id with
    | none => exact hrest fun heq => by rw [heq, hw] at h; cases h
    | some m =>
      by_cases heq : v.id = w.id
      · rw [← heq, h] at hw
        cases hw
        simp [reportedLine?, heq]
      · have hfind := hrest heq
        simpa [reportedLine?, reportsOf, Ne.symm heq] using hfind

theorem map_value_reportsOf (h : ∀ v ∈ values, ∃ n, notes.lookup v.id = some n) :
    (reportsOf notes values).map Report.value = values := by
  induction values with
  | nil => rfl
  | cons v values ih =>
    obtain ⟨n, hn⟩ := h v List.mem_cons_self
    rw [reportsOf, List.filterMap_cons, hn]
    exact congrArg (v :: ·) (ih fun w hw => h w (List.mem_cons_of_mem _ hw))

theorem lookup_of_mem_reportsOf {report : Report} (h : report ∈ reportsOf notes values) :
    report.value ∈ values ∧ notes.lookup report.value.id = some report.line := by
  obtain ⟨v, hv, hreport⟩ := List.mem_filterMap.1 h
  obtain ⟨n, hn, rfl⟩ := Option.map_eq_some_iff.1 hreport
  exact ⟨hv, hn⟩

/-- Every value of the commands is reported once, children before parents, and the lines that are
reported are those of `lined`. -/
structure Reported (reports : List Report) (commands : List Command) (lined : List LinedCommand) : Prop where
  values : reports.map Report.value = commandNodes commands
  own : ∀ report ∈ reports, reportedLine? reports report.value.id = some report.line
  lines : commands.mapM (Command.lined? (reportedLine? reports)) = some lined

theorem reported_of_mapM_lined? {l : Ledger} (h : l.Sound) (offset : Nat)
    (hc : commands.mapM (Command.lined? l.line?) = some lined) :
    Reported (reportsOf (l.notes offset) (commandNodes commands)) commands
      (lined.map (·.shift offset)) := by
  have hall := allLined_commandNodes hc
  refine ⟨map_value_reportsOf fun w hw => ?_, fun report hreport => ?_,
    mapM_lined?_shift (fun w hw n hn => ?_) hc⟩
  · obtain ⟨n, hn⟩ := hall w hw
    exact ⟨n + offset, by rw [Ledger.lookup_notes h, hn]; rfl⟩
  · obtain ⟨hmem, hlookup⟩ := lookup_of_mem_reportsOf hreport
    exact reportedLine?_reportsOf hmem hlookup
  · refine reportedLine?_reportsOf hw ?_
    rw [Ledger.lookup_notes h, hn]
    rfl

/-! ### Notes -/

/-- The notes of a paragraph are used up, or thrown away. -/
theorem snd_parseParagraph (rules : List Rule) (schema : Schema) (p : Paragraph) (l : Ledger) :
    (parseParagraph rules schema p l).2 =
      (assemble schema l (render (tokenize rules p.source))).ledger.clear := by
  unfold parseParagraph
  dsimp only
  cases (assemble schema l (render (tokenize rules p.source))).result <;> rfl

/-- A paragraph leaves no notes behind. -/
theorem clear_parseParagraph (rules : List Rule) (schema : Schema) (p : Paragraph) (l : Ledger) :
    (parseParagraph rules schema p l).2.clear = (parseParagraph rules schema p l).2 := by
  rw [snd_parseParagraph]
  rfl

end TaggedProse
