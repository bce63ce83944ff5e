import TaggedProse.Proofs.Assembly.Accounts
import TaggedProse.Proofs.Document.Independence
import TaggedProse.Proofs.Document.Tags

/-! Every value of a document is reported once, after the values inside it, and nothing else is noted. -/
namespace TaggedProse
variable {schema : Schema} {rules : List Rule} {l : Ledger} {commands : List Command}

/-! ### Texts of elements -/

/-- The names of a tag's attributes are distinct, and none of them has been seen before. -/
theorem Xml.distinct_readAttributes {length : Nat} {seen : List (List Char)} {s : List Char}
    {attributes : Attributes} (h : readAttributes length seen s = .ok attributes) :
    (attributes.map Prod.fst).Nodup ∧ ∀ key ∈ seen, String.ofList key ∉ attributes.map Prod.fst := by
  fun_induction readAttributes length seen s generalizing attributes with
  | case1 => cases h; exact ⟨List.nodup_nil, fun _ _ => List.not_mem_nil⟩
  | case6 seen s c t hs key u ht hnew q v hu hq d rest hrest value hdecode =>
    rename_i ih
    cases hothers : readAttributes length (key :: seen) rest with
    | error e => rw [hothers] at h; cases h
    | ok others =>
      rw [hothers] at h
      cases h
      obtain ⟨hnodup, hunseen⟩ := ih hothers
      refine ⟨List.nodup_cons.2 ⟨hunseen key List.mem_cons_self, hnodup⟩, fun k hk => ?_⟩
      have hne : String.ofList k ≠ String.ofList key := fun heq =>
        hnew (by simpa [String.ofList_inj.1 heq] using hk)
      rw [List.map_cons, List.mem_cons, not_or]
      exact ⟨hne, hunseen k (List.mem_cons_of_mem _ hk)⟩
  | _ => cases h

theorem distinct_parts {event : Xml.Event} {line : Nat} {parts : List Part}
    (h : event.parts line = .ok parts) : ∀ part ∈ parts, part.Distinct := by
  cases event with
  | opening content | empty content =>
    dsimp only [Xml.Event.parts] at h
    split at h
    · cases h
    · next attributes hattributes =>
      cases h
      simpa [Part.Distinct] using (Xml.distinct_readAttributes hattributes).1
  | text source =>
    dsimp only [Xml.Event.parts] at h
    split at h
    · cases h
    · cases h
      simp [Part.Distinct]
  | closing name | literal s | ignored =>
    cases h
    simp [Part.Distinct]

/-- Events that are taken are the run of some parts. -/
theorem Assembly.exists_parts_of_feedAll {events : List (Nat × Xml.Event)} {a : Assembly}
    (h : (feedAll schema events a).result = .ok ()) :
    ∃ parts, (∀ part ∈ parts, part.Distinct) ∧
      run schema parts a = (.ok (), (feedAll schema events a).assembly) := by
  induction events generalizing a with
  | nil => exact ⟨[], by simp, rfl⟩
  | cons event events ih =>
    obtain ⟨line, event⟩ := event
    obtain ⟨parts, a', hparts, hrun, hresult, hassembly⟩ := exists_of_feedAll_cons h
    obtain ⟨others, hdistinct, hothers⟩ := ih hresult
    refine ⟨parts ++ others, fun part hp => ?_, ?_⟩
    · exact (List.mem_append.1 hp).elim (distinct_parts hparts part) (hdistinct part)
    · rw [run_append, hrun, hassembly]
      exact hothers

/-- Of a text of elements exactly the values of its commands are noted. -/
theorem balances_assemble (hs : schema.Sound) (hn : schema.Named) {s : List Char}
    (h : (assemble schema l s).result = .ok commands) :
    l.Balances (assemble schema l s).ledger [] (commandNodes commands) := by
  have hledger : (assemble schema l s).ledger =
    (fedWith schema l s (Xml.read s).events).assembly.ledger := rfl
  rw [result_assemble] at h
  rw [hledger]
  split at h
  · cases h
  · cases h
  · next hfed hfault =>
    obtain ⟨parts, hdistinct, hrun⟩ := Assembly.exists_parts_of_feedAll hfed
    obtain ⟨hbalances, htidy⟩ := Assembly.balances_run hs hn hdistinct (Assembly.tidy_new schema l) hrun
    have hframes : (fedWith schema l s (Xml.read s).events).assembly.frames = [] :=
      htidy.settled (Assembly.closed_of_finish h)
    have hheld : (fedWith schema l s (Xml.read s).events).assembly.held = commandNodes commands := by
      rw [Assembly.eq_commands_of_finish h, Assembly.held, hframes, List.flatMap_nil, List.append_nil]
    rw [← hheld]
    exact hbalances

/-- No identity is given back. -/
theorem le_next_assemble (schema : Schema) (l : Ledger) (s : List Char) :
    l.next ≤ (assemble schema l.clear s).ledger.next := by
  rw [← Ledger.renumber_new l, assemble_renumber, Ledger.next_renumber]
  exact Nat.le_add_left _ _

/-- A new ledger knows exactly what has been noted since. -/
theorem Ledger.Balances.pending_clear {l' : Ledger} {held : List Value} (h : l.clear.Balances l' [] held) :
    (l'.pending.map Prod.fst).Perm (List.range' l.next (l'.next - l.next)) := by
  have hpending := h.pending
  rw [show l.clear.pending = [] from rfl, List.map_nil, List.append_nil] at hpending
  rw [hpending]
  exact List.reverse_perm _

/-- Every value that is held has a line. -/
theorem Ledger.Balances.exists_lookup {l' : Ledger} {held : List Value} (h : l.clear.Balances l' [] held)
    (offset : Nat) : ∀ v ∈ held, ∃ n, (l'.notes offset).lookup v.id = some n := by
  intro v hv
  have hrange := h.ids_new.mem_iff.1 (List.mem_map.2 ⟨v, hv, rfl⟩)
  obtain ⟨entry, hentry, hid⟩ := List.mem_map.1 (h.pending_clear.mem_iff.2 hrange)
  have hnoted : (v.id, entry.2 + offset) ∈ l'.notes offset :=
    List.mem_map.2 ⟨entry, List.mem_reverse.2 hentry, by rw [← hid]⟩
  cases hlookup : (l'.notes offset).lookup v.id with
  | some n => exact ⟨n, rfl⟩
  | none => simpa using List.lookup_eq_none_iff.1 hlookup _ hnoted

/-! ### Documents -/

def Walked (commands : List Command) (vs : List Value) : Prop :=
  ∃ walks, List.Forall₂ (fun c walk => c.value.Walk walk) commands walks ∧ vs = walks.flatten

theorem walked_commandNodes (commands : List Command) : Walked commands (commandNodes commands) := by
  induction commands with
  | nil => exact ⟨[], .nil, rfl⟩
  | cons c commands ih =>
    obtain ⟨walks, hwalks, heq⟩ := ih
    refine ⟨c.value.nodes :: walks, .cons (Value.walk_nodes c.value) hwalks, ?_⟩
    rw [List.flatten_cons, ← heq]
    rfl

/-- Exactly the values of the commands are reported. Their identities are those given out from `first` to
`next`. -/
structure Accounted (first next : Nat) (commands : List Command) (reports : List Report) : Prop where
  le : first ≤ next
  values : reports.map Report.value = commandNodes commands
  ids : ((commandNodes commands).map Value.id).Perm (List.range' first (next - first))
  ordered : ∀ v ∈ commandNodes commands, v.Ordered

theorem Accounted.append {first middle next : Nat} {others : List Command} {reports more : List Report}
    (h : Accounted first middle commands reports) (h' : Accounted middle next others more) :
    Accounted first next (commands ++ others) (reports ++ more) := by
  refine ⟨Nat.le_trans h.le h'.le, ?_, ?_, fun v hv => ?_⟩
  · rw [List.map_append, h.values, h'.values, commandNodes_append]
  · rw [commandNodes_append, List.map_append, ← Ledger.range'_append h.le h'.le]
    exact h.ids.append h'.ids
  · rw [commandNodes_append] at hv
    exact (List.mem_append.1 hv).elim (h.ordered v) (h'.ordered v)

theorem accounted_parseParagraph (hs : schema.Sound) (hn : schema.Named) (p : Paragraph) (l : Ledger)
    (h : (parseParagraph rules schema p l.clear).1.result = .ok commands) :
    Accounted l.next (parseParagraph rules schema p l.clear).2.next commands
      (parseParagraph rules schema p l.clear).1.reports := by
  unfold parseParagraph at h ⊢
  dsimp only at h ⊢
  cases hresult : (assemble schema l.clear (render (tokenize rules p.source))).result with
  | error e => rw [hresult] at h; cases h
  | ok found =>
    rw [hresult] at h
    cases h
    have hbalances := balances_assemble hs hn hresult
    exact ⟨hbalances.le, map_value_reportsOf (hbalances.exists_lookup p.startLine), hbalances.ids_new,
      hbalances.ordered (by simp)⟩

/-- The identities of a paragraph are later than those given out before it, whatever becomes of it. -/
theorem le_next_parseParagraph (rules : List Rule) (schema : Schema) (p : Paragraph) (l : Ledger) :
    l.next ≤ (parseParagraph rules schema p l.clear).2.next := by
  rw [snd_parseParagraph]
  exact le_next_assemble schema l _

theorem accounted_parseUntilFailure (hs : schema.Sound) (hn : schema.Named) (ps : List Paragraph) (l : Ledger)
    (h : (parseUntilFailure rules schema ps l.clear).1.result = .ok commands) :
    Accounted l.next (parseUntilFailure rules schema ps l.clear).2.next commands
      (parseUntilFailure rules schema ps l.clear).1.reports := by
  induction ps generalizing l commands with
  | nil =>
    cases h
    exact ⟨Nat.le_refl _, rfl, by simp [parseUntilFailure, commandNodes, Ledger.clear], by simp [commandNodes]⟩
  | cons p ps ih =>
    rw [parseUntilFailure] at h ⊢
    dsimp only at h ⊢
    cases hresult : (parseParagraph rules schema p l.clear).1.result with
    | error e => rw [hresult] at h; cases h
    | ok first =>
      rw [hresult, ← clear_parseParagraph] at h
      rw [← clear_parseParagraph]
      dsimp only at h ⊢
      cases hothers : (parseUntilFailure rules schema ps
          (parseParagraph rules schema p l.clear).2.clear).1.result with
      | error e => rw [hothers] at h; cases h
      | ok others =>
        rw [hothers] at h
        cases h
        exact (accounted_parseParagraph hs hn p l hresult).append (ih _ hothers)

/-- Whatever the document, exactly the values of its commands are reported, command by command and each
value once, after the values inside it. And whatever the text of elements, exactly the values of its
commands are noted. -/
theorem forall_accounted {d : Description} (h : d.compile = .ok schema) (rules : List Rule)
    (document s : List Char) (l : Ledger) :
    (∀ commands, (parseDocument rules schema document l).1.result = .ok commands →
      Walked commands ((parseDocument rules schema document l).1.reports.map Report.value) ∧
      (∀ report ∈ (parseDocument rules schema document l).1.reports, report.value.Ordered) ∧
      ((parseDocument rules schema document l).1.reports.map fun report => report.value.id).Nodup) ∧
    ∀ commands, (assemble schema l.clear s).result = .ok commands →
      ((assemble schema l.clear s).ledger.pending.map Prod.fst).Nodup ∧
      ∃ held, Walked commands held ∧ (∀ v ∈ held, v.Ordered) ∧
        (held.map Value.id).Perm ((assemble schema l.clear s).ledger.pending.map Prod.fst) := by
  have hs := Description.sound_of_compile h
  have hn := Description.named_of_compile h
  refine ⟨fun commands hresult => ?_, fun commands hresult => ?_⟩
  · have hall := accounted_parseUntilFailure hs hn (paragraphs document) l hresult
    refine ⟨?_, fun report hreport => ?_, ?_⟩
    · rw [parseDocument, hall.values]
      exact walked_commandNodes commands
    · refine hall.ordered _ ?_
      rw [← hall.values]
      exact List.mem_map.2 ⟨report, hreport, rfl⟩
    · have hids : (parseDocument rules schema document l).1.reports.map (fun report => report.value.id) =
          (commandNodes commands).map Value.id := by
        rw [← hall.values, List.map_map]
        rfl
      rw [hids]
      exact hall.ids.nodup_iff.2 List.nodup_range'
  · have hbalances := balances_assemble hs hn hresult
    refine ⟨hbalances.pending_clear.nodup_iff.2 List.nodup_range', commandNodes commands,
      walked_commandNodes commands, hbalances.ordered (by simp), ?_⟩
    exact hbalances.ids_new.trans hbalances.pending_clear.symm

def cardElement : List Char :=
  "<p>Hi<image url=\"u\"/><card id=\"a\"><item/><item id=\"b\"/></card></p>".toList

theorem accounted_cardDocument : cardDescription.compile = .ok cardSchema ∧
    (∃ commands, (parseDocument documentRules cardSchema cardDocument {}).1.result = .ok commands ∧
      Walked commands ((parseDocument documentRules cardSchema cardDocument {}).1.reports.map Report.value) ∧
      ((parseDocument documentRules cardSchema cardDocument {}).1.reports.map fun report =>
        report.value.id).Nodup) ∧
    ∃ commands, (assemble cardSchema ({} : Ledger).clear cardElement).result = .ok commands ∧
      ∃ held, Walked commands held ∧ (∀ v ∈ held, v.Ordered) ∧
        (held.map Value.id).Perm
          ((assemble cardSchema ({} : Ledger).clear cardElement).ledger.pending.map Prod.fst) := by
  have hboth := forall_accounted compile_cardDescription documentRules cardDocument cardElement {}
  have hdocument : (parseDocument documentRules cardSchema cardDocument {}).1.result.isOk = true := by
    decide +kernel
  have helement : (assemble cardSchema ({} : Ledger).clear cardElement).result.isOk = true := by
    decide +kernel
  refine ⟨compile_cardDescription, ?_, ?_⟩
  · cases hresult : (parseDocument documentRules cardSchema cardDocument {}).1.result with
    | error e => rw [hresult] at hdocument; cases hdocument
    | ok commands =>
      obtain ⟨hwalked, -, hnodup⟩ := hboth.1 commands hresult
      exact ⟨commands, rfl, hwalked, hnodup⟩
  · cases hresult : (assemble cardSchema ({} : Ledger).clear cardElement).result with
    | error e => rw [hresult] at helement; cases helement
    | ok commands => exact ⟨commands, rfl, (hboth.2 commands hresult).2⟩

end TaggedProse
