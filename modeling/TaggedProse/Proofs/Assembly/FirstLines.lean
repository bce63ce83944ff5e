import TaggedProse.Proofs.Assembly.Conformance
import TaggedProse.Proofs.Assembly.Lasting
import TaggedProse.Proofs.Assembly.Prose

/-! The commands for stretches of prose have the lines of their first visible characters: no text that is under way in
a paragraph ever needs a line to fall back on. -/
namespace TaggedProse
variable {schema : Schema} {table : Table} {f : Field} {tag around : String} {line : Nat} {s : List Char}
  {attributes : List (String × String)} {l : Ledger} {b body : Body} {p : Prose}

/-- The command for a finished stretch of prose, which there is only if its line is known. -/
def proseCommand? (schema : Schema) (prose : Option Prose) (l : Ledger) :
    Option (Except Failure (List Command) × Ledger) :=
  match prose with
  | none => some (.ok [], l)
  | some p =>
    if p.isBlank then some (.ok [], l)
    else
      p.firstLine.map fun line =>
        match schema.root.prose? with
        | none => (.error ⟨.undescribedText paragraphTag, line⟩, l)
        | some field => (.ok [⟨field, .text l.next p.text⟩], l.note line)

theorem Prose.Begun.proseCommand?_eq (h : p.Begun) (schema : Schema) (l : Ledger) :
    proseCommand? schema (some p) l = some (proseCommand schema (some p) l) := by
  unfold proseCommand? proseCommand
  dsimp only
  split
  · rfl
  · next hvisible =>
    obtain ⟨n, hn⟩ := Option.ne_none_iff_exists'.1 fun hnone => hvisible (h.2 hnone)
    rw [hn]
    cases schema.root.prose? <;> rfl

/-! ### Text under way -/

def Body.prose? : Body → Option Prose
  | .paragraph prose _ => prose
  | .scalar prose | .content _ _ _ prose => some prose
  | .object _ _ | .image | .lineBreak => none

def Unwritten (b : Body) : Prop := ∀ p ∈ b.prose?, p = {}

theorem unwritten_of_none (h : b.prose? = none) : Unwritten b := by
  intro p hp
  rw [h] at hp
  cases hp

theorem unwritten_of_empty (h : b.prose? = some {}) : Unwritten b := by
  intro p hp
  rw [h] at hp
  cases hp
  rfl

theorem unwritten_openObject {r : Ledger} (h : openObject table tag attributes line l = (.ok body, r)) :
    Unwritten body := by
  unfold openObject at h
  split at h
  · split at h <;> cases h
    exact unwritten_of_none rfl
  · split at h
    · split at h <;> cases h
      exact unwritten_of_empty rfl
    · cases h

theorem unwritten_openNested {command : Bool} {r : Ledger}
    (h : openNested schema tag f command attributes line l = (.ok body, r)) : Unwritten body := by
  unfold openNested at h
  split at h
  · cases h
  · exact unwritten_openObject h

theorem unwritten_openScalar (h : openScalar tag attributes line = .ok body) : Unwritten body := by
  unfold openScalar at h
  split at h <;> cases h
  exact unwritten_of_empty rfl

theorem unwritten_openCommand {r : Ledger} (h : openCommand schema tag f attributes line l = (.ok body, r)) :
    Unwritten body := by
  unfold openCommand at h
  split at h
  · cases h
  · cases h
  · exact unwritten_openScalar (Prod.mk.inj h).1
  · exact unwritten_openScalar (Prod.mk.inj h).1
  · exact unwritten_openNested h

theorem unwritten_openField {r : Ledger} (h : openField schema tag f attributes line l = (.ok body, r)) :
    Unwritten body := by
  unfold openField at h
  split at h
  · cases h
  · cases h
  · exact unwritten_openScalar (Prod.mk.inj h).1
  · exact unwritten_openNested h
  · exact unwritten_openNested h

theorem Body.unwritten_openChild (h : (b.openChild schema around tag attributes line l).child = .ok body) :
    Unwritten body := by
  cases b with
  | paragraph prose commands =>
    rw [openChild] at h
    unfold openInParagraph at h
    split at h
    · cases h; exact unwritten_of_none rfl
    · split at h
      · split at h <;> cases h
        exact unwritten_of_none rfl
      · split at h
        · cases h
        · split at h
          · cases h
          · exact unwritten_openCommand (Prod.ext h rfl)
  | object table fields =>
    rw [openChild] at h
    unfold openInObject at h
    dsimp only at h
    split at h
    · cases h
    · split at h
      · cases h
      · exact unwritten_openField (Prod.ext h rfl)
  | scalar prose =>
    rw [openChild] at h
    split at h <;> cases h
    exact unwritten_of_none rfl
  | content table field fields prose =>
    rw [openChild] at h
    split at h
    · cases h; exact unwritten_of_none rfl
    · split at h <;> cases h
  | image => cases h
  | lineBreak => cases h

def Part.edit? : Part → Option Prose.Edit
  | .opening tag _ _ => if tag = breakTag then some .lineBreak else none
  | .text s line => some (.write s line)
  | .closing _ _ => none

/-- The body has the text of another, at most with the edit of the part at its end. -/
def Body.Extends (part : Part) (body b : Body) : Prop :=
  ∀ p ∈ body.prose?, p ∈ b.prose? ∨ ∃ e ∈ part.edit?, p = (b.prose?.getD {}).edit e

theorem Body.extends_parent (b : Body) (around tag : String) (attributes : List (String × String)) (line : Nat)
    (l : Ledger) :
    Extends (.opening tag attributes line) (b.openChild schema around tag attributes line l).parent b := by
  have hbreak : tag = breakTag → ∀ {p q : Prose}, some p.lineBreak = some q →
      ∃ e ∈ (Part.opening tag attributes line).edit?, q = p.edit e :=
    fun htag _ _ hq => ⟨.lineBreak, if_pos htag, (Option.some.inj hq).symm⟩
  intro p hp
  cases b with
  | paragraph prose commands =>
    rw [openChild] at hp
    unfold openInParagraph at hp
    split at hp
    · next htag => exact .inr (hbreak htag hp)
    · split at hp
      · split at hp <;> cases hp
      · split at hp
        · exact .inl hp
        · split at hp <;> cases hp
  | object table fields =>
    rw [openChild] at hp
    unfold openInObject at hp
    dsimp only at hp
    split at hp
    · cases hp
    · split at hp <;> cases hp
  | scalar prose =>
    rw [openChild] at hp
    split at hp
    · next htag => exact .inr (hbreak htag hp)
    · exact .inl hp
  | content table field fields prose =>
    rw [openChild] at hp
    split at hp
    · next htag => exact .inr (hbreak htag hp)
    · split at hp
      · exact .inl hp
      · exact .inl hp
  | image => cases hp
  | lineBreak => cases hp

theorem Body.extends_write (h : b.write tag s line = .ok body) : Extends (.text s line) body b := by
  have hwritten : ∀ {p q : Prose}, some (p.write s line) = some q →
      ∃ e ∈ (Part.text s line).edit?, q = p.edit e :=
    fun hq => ⟨.write s line, rfl, (Option.some.inj hq).symm⟩
  have hrefused : ∀ b : Body, (refuseText tag s line).map (fun _ => b) = .ok body →
      Extends (.text s line) body b := by
    intro b h
    cases hrefuse : refuseText tag s line with
    | error e => rw [hrefuse] at h; cases h
    | ok u => rw [hrefuse] at h; cases h; exact fun p hp => .inl hp
  cases b with
  | paragraph prose commands => cases h; exact fun p hp => .inr (hwritten hp)
  | scalar prose => cases h; exact fun p hp => .inr (hwritten hp)
  | content table field fields prose => cases h; exact fun p hp => .inr (hwritten hp)
  | object table fields => exact hrefused _ h
  | image => exact hrefused _ h
  | lineBreak => exact hrefused _ h

theorem Body.prose?_of_accept {child : Frame} {v : Value} {l' : Ledger}
    (h : b.accept around child v l = (.ok body, l')) : body.prose? = b.prose? := by
  cases b with
  | paragraph prose commands => cases h; rfl
  | object table fields =>
    rw [accept] at h
    split at h <;> cases h
    · rfl
    · rfl
  | _ => cases h

/-- The text that an element has collected is made by edits that some of the parts make. -/
def Body.EditedBy (parts : List Part) (b : Body) : Prop :=
  ∀ p ∈ b.prose?, ∃ edits, edits ⊆ parts.filterMap Part.edit? ∧ p = Prose.ofEdits edits

theorem Unwritten.editedBy (h : Unwritten b) (parts : List Part) : b.EditedBy parts :=
  fun p hp => ⟨[], List.nil_subset _, h p hp⟩

theorem Body.EditedBy.extends {parts : List Part} {part : Part} (hpart : part ∈ parts) (hb : b.EditedBy parts)
    (h : Extends part body b) : body.EditedBy parts := by
  intro p hp
  rcases h p hp with hold | ⟨e, he, rfl⟩
  · exact hb p hold
  · obtain ⟨edits, hsub, hedits⟩ :
        ∃ edits, edits ⊆ parts.filterMap Part.edit? ∧ b.prose?.getD {} = Prose.ofEdits edits := by
      cases hprose : b.prose? with
      | none => exact ⟨[], List.nil_subset _, rfl⟩
      | some p => exact hb p hprose
    refine ⟨edits ++ [e], List.append_subset.2 ⟨hsub, ?_⟩, ?_⟩
    · exact List.cons_subset.2 ⟨List.mem_filterMap.2 ⟨part, hpart, he⟩, List.nil_subset _⟩
    · rw [hedits, Prose.ofEdits, Prose.ofEdits, List.foldl_concat]

theorem lasts_editedBy (schema : Schema) (parts : List Part) :
    Frame.Lasts schema (· ∈ parts) fun f => f.body.EditedBy parts where
  paragraph := fun _ => (unwritten_of_none rfl).editedBy parts
  parent := fun f tag attributes line l hpart hf => hf.extends hpart (f.body.extends_parent f.tag tag attributes line l)
  child := fun _ _ _ _ _ _ _ hbody => (Body.unwritten_openChild hbody).editedBy parts
  write := fun _ _ _ _ hpart hf hbody => hf.extends hpart (Body.extends_write hbody)
  accept := fun _ _ _ _ _ _ hf haccept p hp => hf p (Body.prose?_of_accept haccept ▸ hp)

/-- Whatever is written, prose that is not blank has a first line, which is that of the first visible character and
stays so. Every text under way in an assembly is such prose, made of what has been fed, also after failures. So no
command of a paragraph needs a line to fall back on. -/
theorem beginsOn_ofEdits_and_editedBy_persist (schema : Schema) :
    (∀ edits,
      ((Prose.ofEdits edits).isBlank = false ↔ (Prose.ofEdits edits).firstLine.isSome = true) ∧
      (∀ n, (Prose.ofEdits edits).firstLine = some n ↔ Prose.BeginsOn edits n) ∧
      (∀ n later, (Prose.ofEdits edits).firstLine = some n → (Prose.ofEdits (edits ++ later)).firstLine = some n) ∧
      ∀ l, proseCommand? schema (some (Prose.ofEdits edits)) l =
        some (proseCommand schema (some (Prose.ofEdits edits)) l)) ∧
    ∀ parts ledger, ∀ f ∈ (Assembly.persist schema parts { ledger }).frames, f.body.EditedBy parts := by
  refine ⟨fun edits => ?_, fun parts ledger => ?_⟩
  · have hbegun : (Prose.ofEdits edits).isBlank = true ↔ (Prose.ofEdits edits).firstLine = none :=
      Prose.begun_ofEdits edits
    refine ⟨?_, fun n => Prose.firstLine_ofEdits_eq_some_iff, fun n later h => Prose.firstLine_ofEdits_append h later,
      (Prose.begun_ofEdits edits).proseCommand?_eq schema⟩
    rw [Option.isSome_iff_ne_none, Ne, ← hbegun, Bool.not_eq_true]
  · exact Assembly.lasts_persist (lasts_editedBy schema parts) (fun _ hpart => hpart) (List.forall_mem_nil _)

/-- White space, a break and two line ends before the first visible character. -/
def lateEdits : List Prose.Edit := [.write " \n".toList 3, .lineBreak, .write "\n\n a\nb".toList 5]

/-- The same in a paragraph, and a tag that is refused. -/
def lateParts : List Part :=
  [.opening "p" [] 3, .text " \n".toList 3, .opening "br" [] 4, .closing "br" 4, .text "\n\n a\nb".toList 5,
    .opening "b" [] 8]

theorem beginsOn_lateEdits :
    (Prose.ofEdits lateEdits).firstLine = some 7 ∧
    (Prose.ofEdits (lateEdits ++ [.lineBreak, .write ['c'] 0])).firstLine = some 7 ∧
    ⟨"p", 3, false, .paragraph (some (Prose.ofEdits lateEdits)) []⟩ ∈
      (Assembly.persist cardSchema lateParts {}).frames ∧
    (Body.paragraph (some (Prose.ofEdits lateEdits)) []).EditedBy lateParts := by
  obtain ⟨hprose, hframes⟩ := beginsOn_ofEdits_and_editedBy_persist cardSchema
  have hfirst : (Prose.ofEdits lateEdits).firstLine = some 7 := by decide
  have hframe : ⟨"p", 3, false, .paragraph (some (Prose.ofEdits lateEdits)) []⟩ ∈
      (Assembly.persist cardSchema lateParts {}).frames := by
    rw [show (Assembly.persist cardSchema lateParts {}).frames =
      [⟨"p", 3, false, .paragraph (some (Prose.ofEdits lateEdits)) []⟩] from rfl]
    exact List.mem_singleton_self _
  exact ⟨hfirst, (hprose lateEdits).2.2.1 7 _ hfirst, hframe, hframes lateParts {} _ hframe⟩

end TaggedProse
