import TaggedProse.Proofs.Element.Simulation

/-! What the assembly makes of the elements of a paragraph is what they mean. -/
namespace TaggedProse
variable {schema : Schema} {table : Table} {f : Field} {tag : String} {line : Nat} {item : Bool}
  {attributes : List (String × String)} {children : List Tree} {l l' : Ledger}
  {fields : Record Value} {lfields : Record LinedValue}

/-! ### Attributes -/

theorem agrees_attributeFields (hl : l.Sound) (hf : Value.linedFields? l.line? fields = some lfields) :
    Agrees l (attributeFields table line l fields attributes)
      (attributeValues table line lfields attributes)
      fun line? fs lfs => Value.linedFields? line? fs = some lfs := by
  induction attributes generalizing l fields lfields with
  | nil => exact ⟨fields, l, rfl, .refl hl, hf⟩
  | cons pair rest ih =>
    obtain ⟨name, value⟩ := pair
    rw [attributeFields, attributeValues]
    cases table.get? name with
    | none => rfl
    | some f =>
      by_cases hrole : f.role = .attribute
      · simp only [hrole, if_true]
        have hgrows := hl.grows_note line
        refine (ih (hl.note line) ?_).of_grows hgrows
        exact Value.linedFields?_insert name (by simp) (Value.linedFields?_mono hgrows.line? fields hf)
      · simp only [hrole, if_false]
        rfl

theorem grows_imageFields (hl : l.Sound) (hf : Value.linedFields? l.line? fields = some lfields) :
    l.Grows (imageFields line l fields attributes).2 ∧
      Value.linedFields? (imageFields line l fields attributes).2.line?
        (imageFields line l fields attributes).1 = some (imageValues line lfields attributes) := by
  induction attributes generalizing l fields lfields with
  | nil => exact ⟨.refl hl, hf⟩
  | cons pair rest ih =>
    obtain ⟨name, value⟩ := pair
    rw [imageFields, imageValues]
    have hgrows := hl.grows_note line
    have hvalue : (Value.text l.next value).lined? (l.note line).line? = some (.text line value) := by
      simp
    obtain ⟨hrest, hlined⟩ := ih (hl.note line)
      (Value.linedFields?_insert name hvalue (Value.linedFields?_mono hgrows.line? fields hf))
    exact ⟨hgrows.trans hrest, hlined⟩

/-! ### Elements with a value -/

/-- From the frame `f`, the children lead to a body that closes with the value. -/
def Leads (schema : Schema) (f : Frame) (l : Ledger) (children : List Tree)
    (r : Except Failure LinedValue) : Prop :=
  ∀ (a : Assembly) (frames : List Frame),
    Gives schema (Tree.partsOf children) { a with frames := f :: frames, ledger := l } r fun lv a' =>
      ∃ body l₁ v l₂, a' = { a with frames := { f with body } :: frames, ledger := l₁ } ∧
        body.close schema f.line l₁ = (.ok (.value v), l₂) ∧ l.Grows l₂ ∧ v.lined? l₂.line? = some lv

def Opens (schema : Schema) (tag : String) (line : Nat) (item : Bool) (children : List Tree)
    (l : Ledger) (opened : Except Failure Body × Ledger) (r : Except Failure LinedValue) : Prop :=
  match opened with
  | (.error e, _) => r = .error e
  | (.ok body, l₁) => l.Grows l₁ ∧ Leads schema ⟨tag, line, item, body⟩ l₁ children r

def TakesUp (schema : Schema) (tag : String) (children : List Tree) : Prop :=
  ∀ (start : Nat) (item : Bool) (table : Table) (fields : Record Value) (lfields : Record LinedValue)
    (l : Ledger) (a : Assembly) (below : List Frame), l.Sound →
    Value.linedFields? l.line? fields = some lfields →
    Gives schema (Tree.partsOf children)
      { a with frames := ⟨tag, start, item, .object table fields⟩ :: below, ledger := l }
      (Tree.takeUpAll schema tag table lfields children) fun lfs a' =>
        ∃ fs l', a' = { a with frames := ⟨tag, start, item, .object table fs⟩ :: below, ledger := l' } ∧
          l.Grows l' ∧ Value.linedFields? l'.line? fs = some lfs

theorem opens_scalar (hl : l.Sound) : Opens schema tag line item children l
    (openScalar tag attributes line, l) (scalarValue tag attributes line children) := by
  unfold openScalar scalarValue
  cases attributes with
  | cons pair rest => rfl
  | nil =>
    refine ⟨.refl hl, fun a frames => ?_⟩
    refine ((gathers_scalar schema tag).givesAll children {} { a with ledger := l }
      (List.forall_mem_nil _)).map ?_
    rintro p _ rfl
    exact ⟨_, l, _, _, rfl, rfl, hl.grows_note line, by simp⟩

theorem opens_object (hl : l.Sound) (hc : TakesUp schema tag children) :
    Opens schema tag line item children l (openObject table tag attributes line l)
      (objectValue table tag attributes line children fun fs =>
        Tree.takeUpAll schema tag table fs children) := by
  have hown : Agrees l (attributeFields table line l [] attributes) _ _ := agrees_attributeFields hl rfl
  unfold openObject objectValue
  cases table.content? with
  | none =>
    rcases hown.cases with ⟨e, l₁, hopen, hvalue⟩ | ⟨own, lown, l₁, hopen, hvalue, hgrows, hlined⟩
    · simp only [hopen, hvalue]
      rfl
    · simp only [hopen, hvalue]
      refine ⟨hgrows, fun a frames => ?_⟩
      refine (hc line item table own lown l₁ a frames hgrows.sound hlined).map ?_
      rintro lfs _ ⟨fs, l₂, rfl, hgrows₂, hfs⟩
      have hnote := hgrows₂.sound.grows_note line
      refine ⟨_, l₂, _, _, rfl, rfl, hgrows₂.note line, ?_⟩
      exact Value.lined?_object_eq_some.2 ⟨line, lfs, by simp, Value.linedFields?_mono hnote.line? fs hfs, rfl⟩
  | some field =>
    cases table.elements with
    | cons name names => rfl
    | nil =>
      rcases hown.cases with ⟨e, l₁, hopen, hvalue⟩ | ⟨own, lown, l₁, hopen, hvalue, hgrows, hlined⟩
      · simp only [hopen, hvalue]
        rfl
      · simp only [hopen, hvalue]
        refine ⟨hgrows, fun a frames => ?_⟩
        refine ((gathers_content schema tag table field own).givesAll children {}
          { a with ledger := l₁ } (List.forall_mem_nil _)).map ?_
        rintro p _ rfl
        -- The text is noted before the element.
        have htext := hgrows.sound.grows_note (p.firstLine.getD line)
        have helement := htext.sound.grows_note line
        have hvalue : (Value.text l₁.next p.text).lined? (l₁.note (p.firstLine.getD line)).line? =
            some (.text (p.firstLine.getD line) p.text) := by simp
        have hfields := Value.linedFields?_insert field hvalue
          (Value.linedFields?_mono htext.line? own hlined)
        refine ⟨_, l₁, _, _, rfl, rfl, htext.note line, ?_⟩
        exact Value.lined?_content_eq_some.2
          ⟨line, _, by simp, Value.linedFields?_mono helement.line? _ hfields, rfl⟩

theorem opens_nested (hl : l.Sound) (hc : TakesUp schema tag children) (command : Bool) :
    Opens schema tag line item children l (openNested schema tag f command attributes line l)
      (nestedValue schema tag f command attributes line children fun t fs =>
        Tree.takeUpAll schema tag t fs children) := by
  unfold openNested nestedValue
  cases f.table schema tag command with
  | error fault => rfl
  | ok table => exact opens_object hl hc

theorem opens_field (hl : l.Sound) (hc : TakesUp schema tag children) :
    Opens schema tag line item children l (openField schema tag f attributes line l)
      (fieldValue schema tag f attributes line children fun t fs =>
        Tree.takeUpAll schema tag t fs children) := by
  unfold openField fieldValue
  cases f.role with
  | scalar => exact opens_scalar hl
  | object | list => exact opens_nested hl hc false
  | _ => rfl

theorem opens_command (hl : l.Sound) (hc : TakesUp schema tag children) :
    Opens schema tag line item children l (openCommand schema tag f attributes line l)
      (commandValue schema tag f attributes line children) := by
  unfold openCommand commandValue
  cases f.role with
  | content | scalar => exact opens_scalar hl
  | object => exact opens_nested hl hc true
  | _ => rfl

/-- An element opens, its children are fed, and its value is taken up by the element around it, whose
body is `parent` by then. -/
theorem Opens.gives {breaks below : List Frame} {around : Frame} {parent : Body} {l₀ : Ledger}
    {opened : Except Failure Body × Ledger} {r : Except Failure LinedValue} {a : Assembly}
    {R : LinedValue → Assembly → Prop} {closing : Nat} (h : Opens schema tag line item children l₀ opened r)
    (hb : ∀ b ∈ breaks, b.body.isLineBreak = true) (ha : around.body.isLineBreak = false)
    (hp : parent.isLineBreak = false)
    (hopen : around.body.openChild schema around.tag tag attributes line l =
      ⟨parent, opened.1, item, opened.2⟩)
    (haccept : ∀ body v lv l₂, l₀.Grows l₂ → v.lined? l₂.line? = some lv → ∃ after l₃,
      parent.accept around.tag ⟨tag, line, item, body⟩ v l₂ = (.ok after, l₃) ∧
        R lv { a with frames := breaks ++ { around with body := after } :: below, ledger := l₃ }) :
    Gives schema (Tree.element tag attributes line children closing).parts
      { a with frames := breaks ++ around :: below, ledger := l } r R := by
  obtain ⟨opened, l₁⟩ := opened
  cases opened with
  | error e =>
    obtain rfl : r = .error e := h
    exact gives_error (Assembly.step_opening_error hb ha (by rw [hopen]))
  | ok body =>
    obtain ⟨hgrows, hleads⟩ := h
    refine gives_cons (Assembly.step_opening hb ha hopen) ((hleads a _).append_ok ?_)
    rintro lv _ ⟨body', l₂, v, l₃, rfl, hclose, hgrows₂, hv⟩
    obtain ⟨after, l₄, hafter, hR⟩ := haccept body' v lv l₃ (hgrows.trans hgrows₂) hv
    exact gives_cons (Assembly.step_closing_value hb hp hclose hafter) (gives_nil hR)

/-! ### Fields of an object -/

/-- The item that begins a list is noted before the list. -/
theorem accept_object {table : Table} {v : Value} {lv : LinedValue} (around : String) (body : Body)
    (hl : l.Sound) (hv : v.lined? l.line? = some lv)
    (hf : Value.linedFields? l.line? fields = some lfields) :
    ∃ fs l', (Body.object table fields).accept around ⟨tag, line, item, body⟩ v l =
        (.ok (.object table fs), l') ∧ l.Grows l' ∧ Value.linedFields? l'.line? fs =
          some (if item then takeUpItem tag lv line lfields else Record.insert tag lv lfields) := by
  cases item with
  | false => exact ⟨_, l, rfl, .refl hl, Value.linedFields?_insert tag hv hf⟩
  | true =>
    rcases Value.get?_of_linedFields? tag hf with ⟨hn, hln⟩ | ⟨w, lw, hn, hw, hln⟩
    · have hnote := hl.grows_note line
      have hlist : (Value.list l.next [v]).lined? (l.note line).line? = some (.list line [lv]) :=
        Value.lined?_list_eq_some.2 ⟨line, [lv], by simp, Value.linedItems?_cons_eq_some.2
          ⟨lv, [], Value.lined?_mono hnote.line? v hv, rfl, rfl⟩, rfl⟩
      simp only [Body.accept, addItem, takeUpItem, if_true, hn, hln]
      exact ⟨_, _, rfl, hnote,
        Value.linedFields?_insert tag hlist (Value.linedFields?_mono hnote.line? fields hf)⟩
    · simp only [Body.accept, addItem, takeUpItem, if_true, hn, hln]
      cases w with
      | list id items =>
        obtain ⟨first, litems, hid, hitems, rfl⟩ := Value.lined?_list_eq_some.1 hw
        have hlist : (Value.list id (items ++ [v])).lined? l.line? =
            some (.list first (litems ++ [lv])) := Value.lined?_list_eq_some.2
          ⟨first, _, hid, Value.linedItems?_append hitems hv, rfl⟩
        exact ⟨_, l, rfl, .refl hl, Value.linedFields?_insert tag hlist hf⟩
      | text id t =>
        obtain ⟨n, -, rfl⟩ := Option.map_eq_some_iff.1 hw
        exact ⟨fields, l, rfl, .refl hl, hf⟩
      | object id fs =>
        obtain ⟨n, lfs, -, -, rfl⟩ := Value.lined?_object_eq_some.1 hw
        exact ⟨fields, l, rfl, .refl hl, hf⟩
      | content id fs field =>
        obtain ⟨n, lfs, -, -, rfl⟩ := Value.lined?_content_eq_some.1 hw
        exact ⟨fields, l, rfl, .refl hl, hf⟩

mutual

theorem Tree.gives_takeUp (n : Tree) (around : String) (start : Nat) (item : Bool) (table : Table)
    (fields : Record Value) (lfields : Record LinedValue) (l : Ledger) (a : Assembly)
    (below : List Frame) (hl : l.Sound) (hf : Value.linedFields? l.line? fields = some lfields) :
    Gives schema n.parts
      { a with frames := ⟨around, start, item, .object table fields⟩ :: below, ledger := l }
      (n.takeUp schema around table lfields) fun lfs a' =>
        ∃ fs l', a' = { a with
            frames := ⟨around, start, item, .object table fs⟩ :: below, ledger := l' } ∧
          l.Grows l' ∧ Value.linedFields? l'.line? fs = some lfs := by
  have hb : ∀ b ∈ ([] : List Frame), b.body.isLineBreak = true := List.forall_mem_nil _
  cases n with
  | text s line =>
    rw [Tree.takeUp]
    cases hs : refuseText around s line with
    | error e =>
      have hw : (Body.object table fields).write around s line = .error e := by rw [Body.write, hs]; rfl
      exact gives_error (Assembly.step_text_error hb rfl hw)
    | ok u =>
      have hw : (Body.object table fields).write around s line = .ok (.object table fields) := by
        rw [Body.write, hs]; rfl
      exact gives_cons (Assembly.step_text hb rfl hw) (gives_nil ⟨fields, l, rfl, .refl hl, hf⟩)
  | element tag attributes line children closing =>
    rw [Tree.takeUp, Tree.parts, Value.contains_of_linedFields? tag hf]
    cases htable : table.get? tag with
    | none =>
      refine gives_error (Assembly.step_opening_error hb rfl ?_)
      simp only [Body.openChild, openInObject, htable]
    | some f =>
      dsimp only
      split
      · next htwice =>
        refine gives_error (Assembly.step_opening_error hb rfl ?_)
        simp only [Body.openChild, openInObject, htable, htwice, if_true]
      · next honce =>
        have hopens : Opens schema tag line (f.role == .list) children l
            (openField schema tag f attributes line l) _ := opens_field hl (Tree.takesUp children tag)
        have hopen : (Body.object table fields).openChild schema around tag attributes line l =
            ⟨.object table fields, (openField schema tag f attributes line l).1, f.role == .list,
              (openField schema tag f attributes line l).2⟩ := by
          simp only [Body.openChild, openInObject, htable, honce]
          rfl
        refine Gives.map (hopens.gives hb rfl rfl hopen ?_) fun _ _ h => h
        intro body v lv l₂ hgrows hv
        obtain ⟨fs, l₃, haccept, hgrows₃, hfs⟩ := accept_object around body hgrows.sound hv
          (Value.linedFields?_mono hgrows.line? fields hf)
        exact ⟨_, l₃, haccept, fs, l₃, rfl, hgrows.trans hgrows₃, hfs⟩

theorem Tree.takesUp (ns : List Tree) (around : String) : TakesUp schema around ns := by
  intro start item table fields lfields l a below hl hf
  match ns with
  | [] => exact gives_nil ⟨fields, l, rfl, .refl hl, hf⟩
  | n :: ns =>
    refine (n.gives_takeUp around start item table fields lfields l a below hl hf).append ?_
    rintro lfs _ ⟨fs, l₁, rfl, hgrows, hfs⟩
    refine Gives.mono (Tree.takesUp ns around start item table fs lfs l₁ a below hgrows.sound hfs) ?_
    rintro lfs' _ ⟨fs', l₂, rfl, hgrows₂, hfs'⟩
    exact ⟨fs', l₂, rfl, hgrows.trans hgrows₂, hfs'⟩

end

/-! ### The paragraph -/

theorem agrees_proseCommand (hl : l.Sound) (prose : Option Prose) :
    Agrees l (proseCommand schema prose l) (proseValue schema (prose.getD {}))
      fun line? commands lined => commands.mapM (Command.lined? line?) = some lined := by
  unfold proseCommand proseValue
  cases prose with
  | none => exact ⟨[], l, rfl, .refl hl, rfl⟩
  | some p =>
    dsimp only [Option.getD_some]
    split
    · exact ⟨[], l, rfl, .refl hl, rfl⟩
    · cases schema.root.prose? with
      | none => rfl
      | some field =>
        exact ⟨_, _, rfl, hl.grows_note _, Command.mapM_lined?_singleton (by simp)⟩

theorem gives_refuseChildren (children : List Tree) (start : Nat) (item : Bool) (a : Assembly)
    (frames : List Frame) :
    Gives schema (Tree.partsOf children)
      { a with frames := ⟨tag, start, item, .image⟩ :: frames, ledger := l } (refuseChildren tag children)
      fun _ a' => a' = { a with frames := ⟨tag, start, item, .image⟩ :: frames, ledger := l } := by
  have hb : ∀ b ∈ ([] : List Frame), b.body.isLineBreak = true := List.forall_mem_nil _
  induction children with
  | nil => exact gives_nil rfl
  | cons n ns ih =>
    cases n with
    | text s line =>
      rw [refuseChildren]
      cases hs : refuseText tag s line with
      | error e =>
        have hw : Body.image.write tag s line = .error e := by rw [Body.write, hs]; rfl
        exact gives_error (Assembly.step_text_error hb rfl hw)
      | ok u =>
        have hw : Body.image.write tag s line = .ok .image := by rw [Body.write, hs]; rfl
        exact gives_cons (Assembly.step_text hb rfl hw) ih
    | element child attributes line children closing =>
      exact gives_error (Assembly.step_opening_error hb rfl rfl)

def Drafted (a : Assembly) (breaks : List Frame) (around : String) (start : Nat) (item : Bool)
    (below : List Frame) (d : Draft) (a' : Assembly) : Prop :=
  ∃ prose commands l, a' = { a with
      frames := breaks ++ ⟨around, start, item, .paragraph prose commands⟩ :: below, ledger := l } ∧
    prose.getD {} = d.prose ∧ l.Sound ∧ commands.mapM (Command.lined? l.line?) = some d.commands

section Drafted
variable {a₀ a : Assembly} {breaks below : List Frame} {around : String} {start closing : Nat} {d : Draft}

theorem gives_image (hb : ∀ b ∈ breaks, b.body.isLineBreak = true)
    (h : Drafted a₀ breaks around start item below d a) :
    Gives schema (Tree.element imageTag attributes line children closing).parts a
      ((Tree.element imageTag attributes line children closing).draft schema d)
      (Drafted a₀ breaks around start item below) := by
  obtain ⟨prose, commands, l, rfl, hprose, hl, hc⟩ := h
  have hflush : Agrees l (proseCommand schema prose l) (proseValue schema d.prose) _ :=
    hprose ▸ agrees_proseCommand hl prose
  have hbreak : imageTag ≠ breakTag := by decide
  rw [Tree.draft, if_neg hbreak, if_pos rfl]
  rcases hflush.cases with
    ⟨e, l₁, hcommand, hvalue⟩ | ⟨before, lbefore, l₁, hcommand, hvalue, hgrows, hbefore⟩
  · rw [hvalue]
    refine gives_error (Assembly.step_opening_error hb rfl ?_)
    simp only [Body.openChild, openInParagraph, hbreak, hcommand, if_true, if_false]
  · rw [hvalue]
    obtain ⟨hgrows₂, hfields⟩ : l₁.Grows (imageFields line l₁ [] attributes).2 ∧
        Value.linedFields? (imageFields line l₁ [] attributes).2.line?
          (imageFields line l₁ [] attributes).1 = some (imageValues line [] attributes) :=
      grows_imageFields hgrows.sound rfl
    have hnote := hgrows₂.sound.grows_note line
    have hopen : (Body.paragraph prose commands).openChild schema around imageTag attributes line l =
        ⟨.paragraph none (commands ++ before ++
            [⟨imageTag, .object (imageFields line l₁ [] attributes).2.next
              (imageFields line l₁ [] attributes).1⟩]), .ok .image, false,
          (imageFields line l₁ [] attributes).2.note line⟩ := by
      simp only [Body.openChild, openInParagraph, hbreak, hcommand, if_true, if_false]
    have hobject : (Value.object (imageFields line l₁ [] attributes).2.next
        (imageFields line l₁ [] attributes).1).lined?
          ((imageFields line l₁ [] attributes).2.note line).line? =
        some (.object line (imageValues line [] attributes)) := Value.lined?_object_eq_some.2
      ⟨line, _, by simp, Value.linedFields?_mono hnote.line? _ hfields, rfl⟩
    refine gives_cons (Assembly.step_opening hb rfl hopen) ?_
    refine Gives.map (R := fun _ => Drafted a₀ breaks around start item below _)
      ((gives_refuseChildren children line false a₀ _).append_ok ?_) fun _ _ h => h
    rintro _ _ rfl
    refine gives_cons (Assembly.step_closing rfl) (gives_nil ⟨none, _, _, rfl, rfl, hnote.sound, ?_⟩)
    have hold := Command.mapM_lined?_mono (hgrows.trans (hgrows₂.trans hnote)).line? hc
    exact Command.mapM_lined?_append
      (Command.mapM_lined?_append hold (Command.mapM_lined?_mono (hgrows₂.trans hnote).line? hbefore))
      (Command.mapM_lined?_singleton hobject)

theorem gives_command (hb : ∀ b ∈ breaks, b.body.isLineBreak = true) (hbreak : tag ≠ breakTag)
    (himage : tag ≠ imageTag) (h : Drafted a₀ breaks around start item below d a) :
    Gives schema (Tree.element tag attributes line children closing).parts a
      ((Tree.element tag attributes line children closing).draft schema d)
      (Drafted a₀ breaks around start item below) := by
  obtain ⟨prose, commands, l, rfl, hprose, hl, hc⟩ := h
  have hflush : Agrees l (proseCommand schema prose l) (proseValue schema d.prose) _ :=
    hprose ▸ agrees_proseCommand hl prose
  rw [Tree.draft, if_neg hbreak, if_neg himage]
  cases hf : schema.command? tag with
  | none =>
    refine gives_error (Assembly.step_opening_error hb rfl ?_)
    simp only [Body.openChild, openInParagraph, hbreak, himage, hf, if_false]
  | some f =>
    dsimp only
    rcases hflush.cases with
      ⟨e, l₁, hcommand, hvalue⟩ | ⟨before, lbefore, l₁, hcommand, hvalue, hgrows, hbefore⟩
    · rw [hvalue]
      refine gives_error (Assembly.step_opening_error hb rfl ?_)
      simp only [Body.openChild, openInParagraph, hbreak, himage, hf, hcommand, if_false]
    · rw [hvalue]
      have hopens : Opens schema tag line false children l₁
          (openCommand schema tag f attributes line l₁) _ :=
        opens_command hgrows.sound (Tree.takesUp children tag)
      have hopen : (Body.paragraph prose commands).openChild schema around tag attributes line l =
          ⟨.paragraph none (commands ++ before), (openCommand schema tag f attributes line l₁).1, false,
            (openCommand schema tag f attributes line l₁).2⟩ := by
        simp only [Body.openChild, openInParagraph, hbreak, himage, hf, hcommand, if_false]
      refine Gives.map (hopens.gives hb rfl rfl hopen ?_) fun _ _ h => h
      intro body v lv l₂ hgrows₂ hv
      refine ⟨_, l₂, rfl, none, _, l₂, rfl, rfl, hgrows₂.sound, ?_⟩
      have hold := Command.mapM_lined?_mono (hgrows.trans hgrows₂).line? hc
      exact Command.mapM_lined?_append
        (Command.mapM_lined?_append hold (Command.mapM_lined?_mono hgrows₂.line? hbefore))
        (Command.mapM_lined?_singleton hv)

end Drafted

mutual

theorem Tree.gives_draft (n : Tree) (d : Draft) (a₀ a : Assembly) (breaks : List Frame)
    (around : String) (start : Nat) (item : Bool) (below : List Frame)
    (hb : ∀ b ∈ breaks, b.body.isLineBreak = true)
    (h : Drafted a₀ breaks around start item below d a) :
    Gives schema n.parts a (n.draft schema d) (Drafted a₀ breaks around start item below) := by
  cases n with
  | text s line =>
    obtain ⟨prose, commands, l, rfl, hprose, hl, hc⟩ := h
    exact gives_cons (Assembly.step_text hb rfl rfl)
      (gives_nil ⟨_, commands, l, rfl, by rw [hprose]; rfl, hl, hc⟩)
  | element tag attributes line children closing =>
    by_cases hbreak : tag = breakTag
    · subst hbreak
      obtain ⟨prose, commands, l, rfl, hprose, hl, hc⟩ := h
      rw [Tree.draft, if_pos rfl]
      have hopen : (Body.paragraph prose commands).openChild schema around breakTag attributes line l =
          ⟨.paragraph (some (prose.getD {}).lineBreak) commands, .ok .lineBreak, false, l⟩ := rfl
      refine gives_cons (Assembly.step_opening hb rfl hopen) ?_
      refine (Tree.gives_draftAll children { d with prose := d.prose.lineBreak } a₀ _
        (⟨breakTag, line, false, .lineBreak⟩ :: breaks) around start item below
        (forall_cons_lineBreak hb rfl) ⟨some _, commands, l, rfl, by rw [hprose]; rfl, hl, hc⟩).append_ok ?_
      rintro d' _ ⟨prose', commands', l', rfl, hd⟩
      exact gives_cons (Assembly.step_closing rfl) (gives_nil ⟨prose', commands', l', rfl, hd⟩)
    · by_cases himage : tag = imageTag
      · exact himage ▸ gives_image hb h
      · exact gives_command hb hbreak himage h

theorem Tree.gives_draftAll (ns : List Tree) (d : Draft) (a₀ a : Assembly) (breaks : List Frame)
    (around : String) (start : Nat) (item : Bool) (below : List Frame)
    (hb : ∀ b ∈ breaks, b.body.isLineBreak = true)
    (h : Drafted a₀ breaks around start item below d a) :
    Gives schema (Tree.partsOf ns) a (Tree.draftAll schema d ns)
      (Drafted a₀ breaks around start item below) := by
  match ns with
  | [] => exact gives_nil h
  | n :: ns =>
    refine (n.gives_draft d a₀ a breaks around start item below hb h).append fun d' a' h' => ?_
    exact Tree.gives_draftAll ns d' a₀ a' breaks around start item below hb h'

end

def Concluded (lined : List LinedCommand) (a : Assembly) : Prop :=
  a.frames = [] ∧ a.closed = true ∧ a.ledger.Sound ∧
    a.commands.mapM (Command.lined? a.ledger.line?) = some lined

theorem gives_paragraph (schema : Schema) (attributes : List (String × String)) (line closing : Nat)
    (children : List Tree) (l : Ledger) :
    Gives schema (Tree.element paragraphTag attributes line children closing).parts
      { ledger := l.clear } (Tree.evaluate schema children) Concluded := by
  rw [Tree.parts, Tree.evaluate]
  have hopen : Assembly.step schema (.opening paragraphTag attributes line) { ledger := l.clear } =
      (.ok (), { frames := [⟨paragraphTag, line, false, .paragraph none []⟩], ledger := l.clear }) := rfl
  have hdraft : Gives schema (Tree.partsOf children) _ (Tree.draftAll schema {} children) _ :=
    Tree.gives_draftAll children {} {} _ [] paragraphTag line false [] (List.forall_mem_nil _)
      ⟨none, [], l.clear, rfl, rfl, Ledger.sound_clear l, rfl⟩
  refine gives_cons hopen (hdraft.append ?_)
  rintro d _ ⟨prose, commands, l', rfl, hprose, hl, hc⟩
  have hflush : Agrees l' (proseCommand schema prose l') (proseValue schema d.prose) _ :=
    hprose ▸ agrees_proseCommand hl prose
  rcases hflush.cases with
    ⟨e, l₁, hcommand, hvalue⟩ | ⟨last, llast, l₁, hcommand, hvalue, hgrows, hlast⟩
  · rw [hvalue]
    refine gives_error ?_
    simp only [Assembly.step, Assembly.closeElement, List.nil_append, Body.close, hcommand]
  · rw [hvalue]
    have hclose : Assembly.step schema (.closing paragraphTag closing)
        { frames := [] ++ [⟨paragraphTag, line, false, .paragraph prose commands⟩], ledger := l' } =
        (.ok (), { closed := true, commands := [] ++ (commands ++ last), ledger := l₁ }) := by
      simp only [Assembly.step, Assembly.closeElement, List.nil_append, Body.close, hcommand]
    have hall := Command.mapM_lined?_append (Command.mapM_lined?_mono hgrows.line? hc) hlast
    exact gives_cons hclose (gives_nil ⟨rfl, rfl, hgrows.sound, hall⟩)

/-- Fed with the tags and texts of a paragraph, the assembly ends with the commands that its element
tree means, the same line noted for every value, or with the same failure. -/
theorem conclude_eq_evaluate (schema : Schema) (attributes : List (String × String))
    (line closing last : Nat) (children : List Tree) (l : Ledger) :
    (Assembly.conclude schema (Tree.element paragraphTag attributes line children closing).parts
        last l.clear).map (fun (commands, l') => commands.mapM (Command.lined? l'.line?)) =
      (Tree.evaluate schema children).map some := by
  have h := gives_paragraph schema attributes line closing children l
  unfold Assembly.conclude
  cases hvalue : Tree.evaluate schema children with
  | error e =>
    rw [hvalue] at h
    split
    · next e' a' hrun => rw [Gives, hrun] at h; cases h; rfl
    · next a' hrun => rw [Gives, hrun] at h; cases h
  | ok lined =>
    rw [hvalue] at h
    obtain ⟨a', hrun, -, hclosed, -, hc⟩ := h
    simp only [hrun, Assembly.finish, hclosed, if_true, Except.map, hc]

end TaggedProse
