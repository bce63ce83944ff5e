import TaggedProse.Proofs.Element.Completeness
import TaggedProse.Proofs.Element.Shuffling
import TaggedProse.Proofs.Text.Visible

/-! Elements in another order. The attributes of an element and the children of an object may change places, as long
as children of the same name stay in order, at any depth: what the element means changes in its lines only. -/
namespace TaggedProse
variable {schema : Schema} {table : Table} {ns ns' ms ms' : List Tree} {tag around : String}
  {attributes attributes' : List (String × String)} {line line' : Nat}
  {fields fields' : Record LinedValue} {v v' : LinedValue}

/-! ### Rearranged elements -/

/-- The table of the object that an element with the field `f` holds, if its fields are elements in it. -/
def Field.inside? (schema : Schema) (f : Field) : Option Table :=
  if f.role = .object ∨ f.role = .list then (f.nested?.bind schema.table?).filter (·.content?.isNone) else none

/-- The same for the element `tag` in an object with the fields of `table`, or anywhere else. -/
def Schema.inside? (schema : Schema) (tag : String) : Option Table → Option Table
  | some table => (table.get? tag).bind (·.inside? schema)
  | none => if tag = breakTag ∨ tag = imageTag then none else (schema.command? tag).bind (·.inside? schema)

namespace Tree

/-- The second children are the first ones with attributes in another order and, in objects, with children in
another order; lines do not matter. The children stand in an object with the fields of a table, or elsewhere. -/
inductive Rearranged (schema : Schema) : Option Table → List Tree → List Tree → Prop
  | nil (place : Option Table) : Rearranged schema place [] []
  | text {place : Option Table} {ns ns' : List Tree} (s : List Char) (line line' : Nat)
      (rest : Rearranged schema place ns ns') :
      Rearranged schema place (.text s line :: ns) (.text s line' :: ns')
  | element {place : Option Table} {ns ns' ms ms' : List Tree} {tag : String}
      {attributes attributes' : List (String × String)} (order : attributes.Perm attributes')
      (distinct : (attributes.map Prod.fst).Nodup) (line line' closing closing' : Nat)
      (children : Rearranged schema (schema.inside? tag place) ms ms') (rest : Rearranged schema place ns ns') :
      Rearranged schema place (.element tag attributes line ms closing :: ns)
        (.element tag attributes' line' ms' closing' :: ns')
  | shuffle {table : Table} {ns ns' : List Tree} (order : ns.Perm ns')
      (kept : ∀ tag, ns.filter (hasTag tag) = ns'.filter (hasTag tag)) : Rearranged schema (some table) ns ns'
  | trans {place : Option Table} {ns ms ns' : List Tree} (first : Rearranged schema place ns ms)
      (second : Rearranged schema place ms ns') : Rearranged schema place ns ns'

end Tree

/-! ### Values without their lines -/

open LinedValue (bareFields)

def Draft.bare (d : Draft) : List Command × Passage := (d.commands.map LinedCommand.bare, d.prose.passage)

theorem sameUpTo_refuseText (tag : String) (s : List Char) (line line' : Nat) :
    SameUpTo id (refuseText tag s line) (refuseText tag s line') := by
  unfold refuseText
  cases hline : visibleLine? line s with
  | none =>
    rw [visibleLine?_eq_none.2 (visibleLine?_eq_none.1 hline)]
    exact SameUpTo.refl _
  | some n =>
    cases hline' : visibleLine? line' s with
    | none =>
      rw [visibleLine?_eq_none.2 (visibleLine?_eq_none.1 hline')] at hline
      cases hline
    | some n' => exact sameUpTo_error _ _

theorem sameUpTo_proseValue (schema : Schema) {p p' : Prose} (h : p.passage = p'.passage) :
    SameUpTo (List.map LinedCommand.bare) (proseValue schema p) (proseValue schema p') := by
  have hblank : p.isBlank = p'.isBlank := congrArg Passage.isBlank h
  have htext : p.text = p'.text := congrArg Passage.text h
  unfold proseValue
  rw [hblank]
  split
  · exact SameUpTo.refl _
  · cases schema.root.prose? with
    | none => exact sameUpTo_error _ _
    | some field => exact sameUpTo_ok (by simp [LinedCommand.bare, LinedValue.bare, htext])

/-! ### Children read alike -/

namespace Tree

/-- Outside of objects: the children are the same as text, for an image and in a paragraph. -/
structure ReadAlike (schema : Schema) (ns ns' : List Tree) : Prop where
  gather (refuse : String → Fault) {p p' : Prose} (h : p.passage = p'.passage) :
    SameUpTo Prose.passage (gatherAll refuse p ns) (gatherAll refuse p' ns')
  refuse (tag : String) : SameUpTo id (refuseChildren tag ns) (refuseChildren tag ns')
  draft {d d' : Draft} (h : d.bare = d'.bare) :
    SameUpTo Draft.bare (draftAll schema d ns) (draftAll schema d' ns')

def TakenAlike (schema : Schema) (table : Table) (ns ns' : List Tree) : Prop :=
  ∀ (around : String) {fields fields' : Record LinedValue}, bareFields fields = bareFields fields' →
    SameUpTo bareFields (takeUpAll schema around table fields ns) (takeUpAll schema around table fields' ns')

def Alike (schema : Schema) (place : Option Table) (ns ns' : List Tree) : Prop :=
  match place with
  | none => ReadAlike schema ns ns'
  | some table => TakenAlike schema table ns ns'

end Tree

open TaggedProse.Tree (Alike ReadAlike TakenAlike)

/-! ### Values of elements -/

theorem sameUpTo_scalarValue (order : attributes.Perm attributes') (h : ReadAlike schema ms ms') (tag : String)
    (line line' : Nat) : SameUpTo LinedValue.bare (scalarValue tag attributes line ms)
      (scalarValue tag attributes' line' ms') := by
  unfold scalarValue
  cases attributes with
  | nil =>
    obtain rfl := order.nil_eq
    exact (h.gather _ rfl).map fun p p' hp => congrArg (fun t => Value.text 0 t) (congrArg Passage.text hp)
  | cons e attributes =>
    cases attributes' with
    | nil => exact absurd order.eq_nil (List.cons_ne_nil _ _)
    | cons e' attributes' => exact sameUpTo_error _ _

section
variable (order : attributes.Perm attributes') (distinct : (attributes.map Prod.fst).Nodup)

include order distinct

theorem sameUpTo_objectValue (h : Alike schema (if table.content?.isNone then some table else none) ms ms')
    (tag : String) (line line' : Nat) :
    SameUpTo LinedValue.bare
      (objectValue table tag attributes line ms fun fs => Tree.takeUpAll schema tag table fs ms)
      (objectValue table tag attributes' line' ms' fun fs => Tree.takeUpAll schema tag table fs ms') := by
  have hown := sameUpTo_attributeValues order distinct table line line'
  unfold objectValue
  cases hcontent : table.content? with
  | none =>
    rw [hcontent] at h
    exact hown.bind fun own own' hfields =>
      (h tag hfields).map fun fs fs' hfs => congrArg (Value.object 0) hfs
  | some field =>
    rw [hcontent] at h
    cases table.elements with
    | cons name names => exact sameUpTo_error _ _
    | nil =>
      refine hown.bind fun own own' hfields => (h.gather table.refuse rfl).map fun p p' hp => ?_
      have htext : p.text = p'.text := congrArg Passage.text hp
      have hv : (LinedValue.text (p.firstLine.getD line) p.text).bare =
          (LinedValue.text (p'.firstLine.getD line') p'.text).bare := by
        rw [LinedValue.bare, LinedValue.bare, htext]
      rw [LinedValue.bare, LinedValue.bare, bareFields_insert hv hfields field]

theorem sameUpTo_nestedValue {f : Field} (hrole : f.role = .object ∨ f.role = .list)
    (h : Alike schema (f.inside? schema) ms ms') (tag : String) (command : Bool) (line line' : Nat) :
    SameUpTo LinedValue.bare
      (nestedValue schema tag f command attributes line ms fun t fs => Tree.takeUpAll schema tag t fs ms)
      (nestedValue schema tag f command attributes' line' ms' fun t fs => Tree.takeUpAll schema tag t fs ms') := by
  unfold nestedValue
  cases htable : f.table schema tag command with
  | error fault => exact sameUpTo_error _ _
  | ok table =>
    have hfound : f.nested?.bind schema.table? = some table := by
      unfold Field.table at htable
      split at htable
      · split at htable <;> cases htable
      · next name hname =>
        split at htable
        · next t ht =>
          cases htable
          simp [hname, ht]
        · cases htable
    refine sameUpTo_objectValue order distinct ?_ tag line line'
    rwa [Field.inside?, if_pos hrole, hfound] at h

theorem sameUpTo_childValue {f : Field} (h : Alike schema (f.inside? schema) ms ms') (tag : String)
    (line line' : Nat) : SameUpTo LinedValue.bare (Tree.childValue schema tag f attributes line ms)
      (Tree.childValue schema tag f attributes' line' ms') := by
  unfold Tree.childValue fieldValue
  cases hrole : f.role with
  | scalar =>
    rw [Field.inside?, if_neg (by simp [hrole])] at h
    exact sameUpTo_scalarValue order h tag line line'
  | object => exact sameUpTo_nestedValue order distinct (.inl hrole) h tag false line line'
  | list => exact sameUpTo_nestedValue order distinct (.inr hrole) h tag false line line'
  | _ => exact sameUpTo_error _ _

theorem sameUpTo_commandValue {f : Field} (h : Alike schema (f.inside? schema) ms ms') (tag : String)
    (line line' : Nat) : SameUpTo LinedValue.bare (commandValue schema tag f attributes line ms)
      (commandValue schema tag f attributes' line' ms') := by
  unfold commandValue
  cases hrole : f.role with
  | content | scalar =>
    rw [Field.inside?, if_neg (by simp [hrole])] at h
    exact sameUpTo_scalarValue order h tag line line'
  | object => exact sameUpTo_nestedValue order distinct (.inl hrole) h tag true line line'
  | _ => exact sameUpTo_error _ _

end

/-! ### Children in an object -/

namespace Tree

theorem sameUpTo_takeUp_text (hf : bareFields fields = bareFields fields') (s : List Char) (line line' : Nat) :
    SameUpTo bareFields (takeUp schema around table fields (.text s line))
      (takeUp schema around table fields' (.text s line')) := by
  rw [takeUp, takeUp]
  exact (sameUpTo_refuseText around s line line').map fun _ _ _ => hf

theorem sameUpTo_takeUp_element {closing closing' : Nat} (hf : bareFields fields = bareFields fields')
    (hv : ∀ f, table.get? tag = some f → SameUpTo LinedValue.bare (childValue schema tag f attributes line ms)
      (childValue schema tag f attributes' line' ms')) :
    SameUpTo bareFields (takeUp schema around table fields (.element tag attributes line ms closing))
      (takeUp schema around table fields' (.element tag attributes' line' ms' closing')) := by
  rw [takeUp_eq, takeUp_eq, isRefused, isRefused, action, action]
  cases hfound : table.get? tag with
  | none => exact sameUpTo_error _ _
  | some f =>
    have hrefuses : f.refuses tag fields = f.refuses tag fields' := by
      rw [Field.refuses, Field.refuses, contains_of_bareFields hf]
    simp only [Option.any_some, hrefuses]
    split
    · exact sameUpTo_error _ _
    · rcases (hv f hfound).cases with ⟨e, e', he, he'⟩ | ⟨v, v', hv, hv', hbare⟩
      · rw [he, he']
        exact sameUpTo_error _ _
      · rw [hv, hv']
        exact sameUpTo_ok (Field.bareFields_place hbare hf f tag line line')

theorem TakenAlike.cons {n n' : Tree} (h : TakenAlike schema table ns ns')
    (hn : ∀ (around : String) {fields fields' : Record LinedValue}, bareFields fields = bareFields fields' →
      SameUpTo bareFields (takeUp schema around table fields n) (takeUp schema around table fields' n')) :
    TakenAlike schema table (n :: ns) (n' :: ns') := by
  intro around fields fields' hf
  rw [takeUpAll_cons, takeUpAll_cons]
  exact (hn around hf).bind fun _ _ hfs => h around hfs

theorem takenAlike_nil (schema : Schema) (table : Table) : TakenAlike schema table [] [] :=
  fun _ _ _ hf => sameUpTo_ok hf

theorem TakenAlike.refl (schema : Schema) (table : Table) (ns : List Tree) : TakenAlike schema table ns ns := by
  induction ns with
  | nil => exact takenAlike_nil schema table
  | cons n ns ih =>
    refine ih.cons fun around fields fields' hf => ?_
    cases n with
    | text s line => exact sameUpTo_takeUp_text hf s line line
    | element tag attributes line ms closing => exact sameUpTo_takeUp_element hf fun f _ => SameUpTo.refl _

theorem TakenAlike.trans {ls : List Tree} (h : TakenAlike schema table ns ls) (h' : TakenAlike schema table ls ns') :
    TakenAlike schema table ns ns' :=
  fun around _ _ hf => (h around rfl).trans (h' around hf)

theorem takenAlike_shuffle (order : ns.Perm ns')
    (kept : ∀ tag, ns.filter (hasTag tag) = ns'.filter (hasTag tag)) : TakenAlike schema table ns ns' :=
  fun around fields _ hf =>
    (sameUpTo_takeUpAll_shuffle order kept fields).of_id.trans (TakenAlike.refl schema table ns' around hf)

/-! ### Children elsewhere -/

theorem readAlike_nil (schema : Schema) : ReadAlike schema [] [] where
  gather _ _ _ h := sameUpTo_ok h
  refuse _ := SameUpTo.refl _
  draft h := sameUpTo_ok h

theorem ReadAlike.trans {ls : List Tree} (h : ReadAlike schema ns ls) (h' : ReadAlike schema ls ns') :
    ReadAlike schema ns ns' where
  gather refuse _ _ hp := (h.gather refuse rfl).trans (h'.gather refuse hp)
  refuse tag := (h.refuse tag).trans (h'.refuse tag)
  draft hd := (h.draft rfl).trans (h'.draft hd)

theorem ReadAlike.text (h : ReadAlike schema ns ns') (s : List Char) (line line' : Nat) :
    ReadAlike schema (.text s line :: ns) (.text s line' :: ns') where
  gather refuse p p' hp := by
    rw [gatherAll, gatherAll, Tree.gather, Tree.gather]
    exact h.gather refuse (congrArg (Passage.write · s) hp)
  refuse tag := by
    rw [refuseChildren, refuseChildren]
    exact (sameUpTo_refuseText tag s line line').bind fun _ _ _ => h.refuse tag
  draft {d d'} hd := by
    obtain ⟨hcommands, hpassage⟩ := Prod.mk.inj hd
    rw [draftAll, draftAll, Tree.draft, Tree.draft]
    exact h.draft (Prod.ext hcommands (congrArg (Passage.write · s) hpassage))

theorem sameUpTo_gather_element (schema : Schema) {refuse : String → Fault} {p p' : Prose} {closing closing' : Nat}
    (hp : p.passage = p'.passage) (h : tag = breakTag → ReadAlike schema ms ms') :
    SameUpTo Prose.passage (gather refuse p (.element tag attributes line ms closing))
      (gather refuse p' (.element tag attributes' line' ms' closing')) := by
  rw [gather, gather]
  split
  · next hbreak => exact (h hbreak).gather refuse (congrArg Passage.lineBreak hp)
  · exact sameUpTo_error _ _

/-- The commands so far, the prose after them as a command, and one command more. -/
theorem sameUpTo_flush (schema : Schema) {d d' : Draft} {v v' : Except Failure LinedValue} (hd : d.bare = d'.bare)
    (hv : SameUpTo LinedValue.bare v v') (tag : String) :
    SameUpTo Draft.bare
      ((proseValue schema d.prose).bind fun before =>
        v.map fun v => (⟨d.commands ++ before ++ [⟨tag, v⟩], {}⟩ : Draft))
      ((proseValue schema d'.prose).bind fun before =>
        v'.map fun v => (⟨d'.commands ++ before ++ [⟨tag, v⟩], {}⟩ : Draft)) := by
  obtain ⟨hcommands, hpassage⟩ := Prod.mk.inj hd
  refine (sameUpTo_proseValue schema hpassage).bind fun before before' hbefore => hv.map fun w w' hw => ?_
  simp [Draft.bare, LinedCommand.bare, hcommands, hbefore, hw]

theorem sameUpTo_draft_element {d d' : Draft} {closing closing' : Nat} (order : attributes.Perm attributes')
    (distinct : (attributes.map Prod.fst).Nodup) (hd : d.bare = d'.bare)
    (h : Alike schema (schema.inside? tag none) ms ms') :
    SameUpTo Draft.bare (draft schema d (.element tag attributes line ms closing))
      (draft schema d' (.element tag attributes' line' ms' closing')) := by
  rw [draft, draft]
  rw [Schema.inside?] at h
  by_cases hbreak : tag = breakTag
  · rw [if_pos hbreak, if_pos hbreak]
    rw [if_pos (.inl hbreak)] at h
    obtain ⟨hcommands, hpassage⟩ := Prod.mk.inj hd
    exact h.draft (Prod.ext hcommands (congrArg Passage.lineBreak hpassage))
  · rw [if_neg hbreak, if_neg hbreak]
    by_cases himage : tag = imageTag
    · rw [if_pos himage, if_pos himage]
      rw [if_pos (.inr himage)] at h
      have hvalues : bareFields (imageValues line [] attributes) = bareFields (imageValues line' [] attributes') := by
        rw [imageValues_perm order distinct]
        exact bareFields_imageValues line line' attributes' rfl
      have hv : SameUpTo LinedValue.bare
          ((refuseChildren imageTag ms).map fun _ => LinedValue.object line (imageValues line [] attributes))
          ((refuseChildren imageTag ms').map fun _ => LinedValue.object line' (imageValues line' [] attributes')) :=
        (h.refuse imageTag).map fun _ _ _ => congrArg (Value.object 0) hvalues
      have hflush := sameUpTo_flush schema hd hv imageTag
      cases hms : refuseChildren imageTag ms <;> cases hms' : refuseChildren imageTag ms' <;>
        rw [hms, hms'] at hflush <;> exact hflush
    · rw [if_neg himage, if_neg himage]
      rw [if_neg (by simp [hbreak, himage])] at h
      cases hf : schema.command? tag with
      | none => exact sameUpTo_error _ _
      | some f =>
        rw [hf] at h
        exact sameUpTo_flush schema hd (sameUpTo_commandValue order distinct h tag line line') tag

theorem ReadAlike.element (h : ReadAlike schema ns ns') {closing closing' : Nat}
    (order : attributes.Perm attributes') (distinct : (attributes.map Prod.fst).Nodup)
    (hms : Alike schema (schema.inside? tag none) ms ms') :
    ReadAlike schema (.element tag attributes line ms closing :: ns)
      (.element tag attributes' line' ms' closing' :: ns') where
  gather refuse p p' hp := by
    rw [gatherAll, gatherAll]
    refine (sameUpTo_gather_element schema hp fun hbreak => ?_).bind fun _ _ hq => h.gather refuse hq
    rwa [Schema.inside?, if_pos (.inl hbreak)] at hms
  refuse tag := by
    rw [refuseChildren, refuseChildren]
    exact sameUpTo_error _ _
  draft hd := by
    rw [draftAll, draftAll]
    exact (sameUpTo_draft_element order distinct hd hms).bind fun _ _ hd' => h.draft hd'

/-! ### Rearranged children are alike -/

theorem Rearranged.alike {place : Option Table} (h : Rearranged schema place ns ns') : Alike schema place ns ns' := by
  induction h with
  | nil place =>
    cases place with
    | none => exact readAlike_nil schema
    | some table => exact takenAlike_nil schema table
  | @text place _ _ s line line' _ ih =>
    cases place with
    | none => exact ih.text s line line'
    | some table => exact ih.cons fun _ _ _ hf => sameUpTo_takeUp_text hf s line line'
  | @element place _ _ _ _ tag _ _ order distinct line line' _ _ _ _ ihms ih =>
    cases place with
    | none => exact ih.element order distinct ihms
    | some table =>
      refine ih.cons fun _ _ _ hf => sameUpTo_takeUp_element hf fun f hfound => ?_
      rw [Schema.inside?, hfound] at ihms
      exact sameUpTo_childValue order distinct ihms tag line line'
  | shuffle order kept => exact takenAlike_shuffle order kept
  | @trans place _ _ _ _ _ ih ih' =>
    cases place with
    | none => exact ih.trans ih'
    | some table => exact TakenAlike.trans ih ih'

theorem Rearranged.sameUpTo_evaluate (h : Rearranged schema none ns ns') :
    SameUpTo (List.map LinedCommand.bare) (evaluate schema ns) (evaluate schema ns') := by
  refine (h.alike.draft rfl).bind fun d d' hd => ?_
  obtain ⟨hcommands, hpassage⟩ := Prod.mk.inj hd
  refine (sameUpTo_proseValue schema hpassage).map fun last last' hlast => ?_
  rw [List.map_append, List.map_append, hcommands, hlast]

end Tree

/-! ### Paragraphs -/

inductive Assembly.SameOutcome :
    Except Failure (List Command × Ledger) → Except Failure (List Command × Ledger) → Prop
  | ok {commands commands' : List Command} (l l' : Ledger)
      (alike : List.Forall₂ (fun c c' => c.alike c' = true) commands commands') :
      SameOutcome (.ok (commands, l)) (.ok (commands', l'))
  | error (e e' : Failure) : SameOutcome (.error e) (.error e')

theorem sameUpTo_conclude (schema : Schema) (attributes : List (String × String)) (line closing last : Nat)
    (children : List Tree) (l : Ledger) :
    SameUpTo id
      ((Assembly.conclude schema (Tree.element paragraphTag attributes line children closing).parts last
        l.clear).map fun r => r.1.map Command.bare)
      ((Tree.evaluate schema children).map (List.map LinedCommand.bare)) := by
  have h := gives_paragraph schema attributes line closing children l
  unfold Assembly.conclude
  cases hvalue : Tree.evaluate schema children with
  | error e =>
    rw [hvalue] at h
    split
    · exact sameUpTo_error _ _
    · next a hrun => rw [Gives, hrun] at h; cases h
  | ok lined =>
    rw [hvalue] at h
    obtain ⟨a, hrun, -, hclosed, -, hc⟩ := h
    simp only [hrun, Assembly.finish, hclosed, if_true]
    exact sameUpTo_ok (Command.map_bare_of_mapM_lined? hc).symm

/-- The order of attributes, and of children of an object that have different names, makes no difference to whether
a paragraph is accepted, nor to its commands. -/
theorem conclude_rearranged (h : Tree.Rearranged schema none ns ns') (attributes attributes' : List (String × String))
    (line line' closing closing' last last' : Nat) (l l' : Ledger) :
    Assembly.SameOutcome
      (Assembly.conclude schema (Tree.element paragraphTag attributes line ns closing).parts last l.clear)
      (Assembly.conclude schema (Tree.element paragraphTag attributes' line' ns' closing').parts last'
        l'.clear) := by
  have hvalue : SameUpTo id ((Tree.evaluate schema ns).map (List.map LinedCommand.bare))
      ((Tree.evaluate schema ns').map (List.map LinedCommand.bare)) := h.sameUpTo_evaluate.map fun _ _ heq => heq
  have hall := ((sameUpTo_conclude schema attributes line closing last ns l).trans hvalue).trans
    (sameUpTo_conclude schema attributes' line' closing' last' ns' l').symm
  generalize Assembly.conclude schema (Tree.element paragraphTag attributes line ns closing).parts last
      l.clear = r,
    Assembly.conclude schema (Tree.element paragraphTag attributes' line' ns' closing').parts last'
      l'.clear = r' at hall
  cases r with
  | error e =>
    cases r' with
    | error e' => exact .error e e'
    | ok r' => cases hall
  | ok r =>
    cases r' with
    | error e' => cases hall
    | ok r' =>
      refine .ok r.2 r'.2 ?_
      have hcommands : List.Forall₂ (· = ·) (r.1.map Command.bare) (r'.1.map Command.bare) :=
        List.forall₂_eq_eq_eq ▸ Option.some.inj hall
      rw [List.forall₂_map_left_iff, List.forall₂_map_right_iff] at hcommands
      exact hcommands.imp fun _ _ => Command.alike_of_bare_eq

/-- Neighbours in an object may change places when they have different names. -/
theorem Tree.Rearranged.swap {m n : Tree} (h : Unlike m n) (ns : List Tree) :
    Rearranged schema (some table) (m :: n :: ns) (n :: m :: ns) := by
  refine .shuffle (.swap n m ns) fun tag => ?_
  cases hm : hasTag tag m with
  | false => simp [List.filter_cons, hm]
  | true => simp [hm, h tag hm]

def itemsAroundTitle : List Tree :=
  [.element "image" [("src", "a"), ("alt", "b")] 0 [] 0,
    .element "card" [("id", "x")] 1
      [.element "item" [] 2 [.element "title" [] 2 [.text ['T'] 2] 2, .element "item" [] 3 [] 3] 4,
        .element "title" [] 5 [.text ['U'] 5] 5, .element "item" [("id", "y")] 6 [] 6] 7]

def itemsBeforeTitle : List Tree :=
  [.element "image" [("alt", "b"), ("src", "a")] 0 [] 0,
    .element "card" [("id", "x")] 1
      [.element "item" [] 1 [.element "item" [] 3 [] 3, .element "title" [] 2 [.text ['T'] 2] 2] 4,
        .element "item" [("id", "y")] 6 [] 6, .element "title" [] 5 [.text ['U'] 5] 5] 7]

theorem rearranged_itemsBeforeTitle : Tree.Rearranged cardSchema none itemsAroundTitle itemsBeforeTitle := by
  have hunlike {as bs : List (String × String)} {i j k l : Nat} {ms ns : List Tree} :
      Tree.Unlike (.element "title" as i ms j) (.element "item" bs k ns l) := by
    intro tag htag
    obtain rfl : "title" = tag := beq_iff_eq.1 htag
    rfl
  refine .element (.swap _ _ []) (by decide) 0 0 0 0 (.nil none)
    (.element (.refl _) (by decide) 1 1 7 7 ?_ (.nil none))
  change Tree.Rearranged cardSchema (some cardTable) _ _
  refine .element .nil (by decide) 2 1 4 4 ?_ (.swap hunlike [])
  change Tree.Rearranged cardSchema (some cardTable) _ _
  exact .swap hunlike []

theorem conclude_itemsBeforeTitle :
    Tree.Rearranged cardSchema none itemsAroundTitle itemsBeforeTitle ∧
      (Assembly.conclude cardSchema (Tree.element paragraphTag [] 0 itemsAroundTitle 7).parts 7
        ({} : Ledger).clear).isOk = true ∧
      Assembly.SameOutcome
        (Assembly.conclude cardSchema (Tree.element paragraphTag [] 0 itemsAroundTitle 7).parts 7
          ({} : Ledger).clear)
        (Assembly.conclude cardSchema (Tree.element paragraphTag [] 0 itemsBeforeTitle 7).parts 7
          ({} : Ledger).clear) :=
  ⟨rearranged_itemsBeforeTitle, rfl, conclude_rearranged rearranged_itemsBeforeTitle [] [] 0 0 7 7 7 7 {} {}⟩

end TaggedProse
