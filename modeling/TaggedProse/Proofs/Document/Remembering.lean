import TaggedProse.Proofs.Document.FailFast

/-! What a registry remembers. Every report is of an identity that none was given before, so that a line that
is remembered stays as it was reported, whatever documents follow. -/
namespace TaggedProse
variable {schema : Schema} {rules : List Rule} {reports more : List Report} {first middle next : Nat}
  {r r' r'' : Registry} {ds es : List DocumentResult}

/-! ### Identities that are reported -/

structure Issued (first next : Nat) (reports : List Report) : Prop where
  le : first ≤ next
  between : ∀ report ∈ reports, first ≤ report.value.id ∧ report.value.id < next
  apart : reports.Pairwise fun a b => a.value.id ≠ b.value.id

theorem issued_nil (h : first ≤ next) : Issued first next [] := ⟨h, List.forall_mem_nil _, .nil⟩

theorem Issued.append (h : Issued first middle reports) (h' : Issued middle next more) :
    Issued first next (reports ++ more) := by
  refine ⟨Nat.le_trans h.le h'.le, fun report hreport => ?_,
    List.pairwise_append.2 ⟨h.apart, h'.apart, fun a ha b hb => ?_⟩⟩
  · rcases List.mem_append.1 hreport with hreport | hreport
    · have := h.between report hreport
      have := h'.le
      omega
    · have := h'.between report hreport
      have := h.le
      omega
  · have := h.between a ha
    have := h'.between b hb
    omega

theorem issued_parseParagraph (rules : List Rule) (hs : schema.Sound) (hn : schema.Named) (p : Paragraph)
    (l : Ledger) :
    Issued l.next (parseParagraph rules schema p l.clear).2.next
      (parseParagraph rules schema p l.clear).1.reports := by
  have hle := le_next_parseParagraph rules schema p l
  cases hresult : (parseParagraph rules schema p l.clear).1.result with
  | error e =>
    rw [silent_parseParagraph rules schema p l.clear e hresult]
    exact issued_nil hle
  | ok commands =>
    have hall := accounted_parseParagraph hs hn p l hresult
    refine ⟨hle, ids_parseParagraph hs hn p l, ?_⟩
    have hnodup := hall.ids.nodup_iff.2 List.nodup_range'
    rw [← hall.values, List.map_map] at hnodup
    exact List.pairwise_map.1 hnodup

theorem issued_parseUntilFailure (hs : schema.Sound) (hn : schema.Named) (ps : List Paragraph) (l : Ledger) :
    Issued l.next (parseUntilFailure rules schema ps l.clear).2.next
      (parseUntilFailure rules schema ps l.clear).1.reports := by
  induction ps generalizing l with
  | nil => exact issued_nil (Nat.le_refl _)
  | cons p ps ih =>
    have hfirst := issued_parseParagraph rules hs hn p l
    have hothers := ih (parseParagraph rules schema p l.clear).2
    rw [clear_parseParagraph] at hothers
    rw [parseUntilFailure]
    dsimp only
    cases (parseParagraph rules schema p l.clear).1.result with
    | error e => exact hfirst
    | ok commands => exact hfirst.append hothers

/-! ### What is written into a registry -/

def Report.entry (report : Report) : Nat × Nat := (report.value.id, report.line)

namespace Registry

def Sound (r : Registry) : Prop := ∀ e ∈ r.lines, e.1 < r.ledger.next

/-- A new identity takes no line away. -/
theorem lines_insert {report : Report} (h : ∀ e ∈ r.lines, e.1 ≠ report.value.id) :
    (r.insert report).lines = report.entry :: r.lines := by
  have hothers : r.lines.filter (·.1 != report.value.id) = r.lines :=
    List.filter_eq_self.2 fun e he => bne_iff_ne.2 (h e he)
  rw [insert, hothers]
  rfl

theorem lines_foldl_insert (h : ∀ report ∈ reports, ∀ e ∈ r.lines, e.1 ≠ report.value.id)
    (apart : reports.Pairwise fun a b => a.value.id ≠ b.value.id) :
    (reports.foldl insert r).lines = (reports.map Report.entry).reverse ++ r.lines := by
  induction reports generalizing r with
  | nil => rfl
  | cons report reports ih =>
    obtain ⟨hreport, hreports⟩ := List.forall_mem_cons.1 h
    obtain ⟨hnew, hrest⟩ := List.pairwise_cons.1 apart
    have hlines := lines_insert hreport
    rw [List.foldl_cons, ih (fun other hother => ?_) hrest, hlines]
    · simp
    · rw [hlines]
      exact List.forall_mem_cons.2 ⟨hnew other hother, hreports other hother⟩

/-- Between two states of a registry exactly the reports of these documents have been written into it. -/
structure Records (r : Registry) (ds : List DocumentResult) (r' : Registry) : Prop where
  lines : r'.lines = ((ds.flatMap DocumentResult.reports).map Report.entry).reverse ++ r.lines
  issued : Issued r.ledger.next r'.ledger.next (ds.flatMap DocumentResult.reports)

theorem Records.refl (r : Registry) : r.Records [] r := ⟨rfl, issued_nil (Nat.le_refl _)⟩

theorem Records.trans (h : r.Records ds r') (h' : r'.Records es r'') : r.Records (ds ++ es) r'' := by
  refine ⟨?_, ?_⟩
  · rw [h'.lines, h.lines, List.flatMap_append, List.map_append, List.reverse_append, List.append_assoc]
  · rw [List.flatMap_append]
    exact h.issued.append h'.issued

theorem Records.sound (h : r.Records ds r') (hr : r.Sound) : r'.Sound := by
  intro e he
  rw [h.lines, List.mem_append, List.mem_reverse] at he
  rcases he with he | he
  · obtain ⟨report, hreport, rfl⟩ := List.mem_map.1 he
    exact (h.issued.between report hreport).2
  · exact Nat.lt_of_lt_of_le (hr e he) h.issued.le

theorem records_parse (rules : List Rule) (hs : schema.Sound) (hn : schema.Named) (hr : r.Sound)
    (document : List Char) :
    r.Records [(r.parse rules schema document).1] (r.parse rules schema document).2 := by
  have hissued : Issued r.ledger.next (parseDocument rules schema document r.ledger).2.next
      (parseDocument rules schema document r.ledger).1.reports :=
    issued_parseUntilFailure hs hn (paragraphs document) r.ledger
  refine ⟨?_, by rw [List.flatMap_singleton]; exact hissued⟩
  rw [List.flatMap_singleton]
  refine lines_foldl_insert (fun report hreport e he => ?_) hissued.apart
  exact Nat.ne_of_lt (Nat.lt_of_lt_of_le (hr e he) (hissued.between report hreport).1)

end Registry

/-! ### Documents one after the other -/

structure Request where
  rules : List Rule
  schema : Schema
  document : List Char

def Request.Compiled (q : Request) : Prop := ∃ d : Description, d.compile = .ok q.schema

namespace Registry

/-- Parses documents into one registry, each of them whatever became of those before it. -/
def parseEach (r : Registry) : List Request → List DocumentResult × Registry
  | [] => ([], r)
  | q :: qs =>
    let (first, r) := r.parse q.rules q.schema q.document
    let (others, r) := r.parseEach qs
    (first :: others, r)

theorem parseEach_append (r : Registry) (qs qs' : List Request) :
    r.parseEach (qs ++ qs') =
      ((r.parseEach qs).1 ++ ((r.parseEach qs).2.parseEach qs').1, ((r.parseEach qs).2.parseEach qs').2) := by
  induction qs generalizing r with
  | nil => rfl
  | cons q qs ih =>
    rw [List.cons_append, parseEach, parseEach]
    dsimp only
    rw [ih]
    rfl

theorem records_parseEach {qs : List Request} (h : ∀ q ∈ qs, q.Compiled) (hr : r.Sound) :
    r.Records (r.parseEach qs).1 (r.parseEach qs).2 := by
  induction qs generalizing r with
  | nil => exact .refl r
  | cons q qs ih =>
    obtain ⟨⟨d, hd⟩, hqs⟩ := List.forall_mem_cons.1 h
    have hfirst := records_parse q.rules (Description.sound_of_compile hd) (Description.named_of_compile hd) hr
      q.document
    exact hfirst.trans (ih hqs (hfirst.sound hr))

/-- The values of a document's commands are reported, all of them. -/
theorem values_parseEach {qs : List Request} (h : ∀ q ∈ qs, q.Compiled) (r : Registry) :
    ∀ d ∈ (r.parseEach qs).1, ∀ commands, d.result = .ok commands →
      d.reports.map Report.value = commandNodes commands := by
  induction qs generalizing r with
  | nil => exact List.forall_mem_nil _
  | cons q qs ih =>
    obtain ⟨⟨d, hd⟩, hqs⟩ := List.forall_mem_cons.1 h
    refine List.forall_mem_cons.2 ⟨fun commands hresult => ?_, ih hqs _⟩
    have hparsed : (parseUntilFailure q.rules q.schema (paragraphs q.document) r.ledger.clear).1.result =
        .ok commands := hresult
    have hall := accounted_parseUntilFailure (Description.sound_of_compile hd)
      (Description.named_of_compile hd) (paragraphs q.document) r.ledger hparsed
    exact hall.values

/-- What a registry remembers of the documents that have been parsed into it. -/
structure Remembers (r : Registry) (ds : List DocumentResult) : Prop where
  /-- Every value of a document that was parsed has the line that was reported of it. -/
  values : ∀ d ∈ ds, ∀ commands, d.result = .ok commands → ∀ v ∈ commandNodes commands,
    ∃ report ∈ d.reports, report.value = v ∧ r.lineOf? v = some report.line
  /-- So has every other value that was reported. -/
  reports : ∀ d ∈ ds, ∀ report ∈ d.reports, r.lineOf? report.value = some report.line
  /-- No two reports are of one value, be the values alike or not. -/
  apart : (ds.flatMap DocumentResult.reports).Pairwise fun a b => a.value.id ≠ b.value.id
  size : r.size = (ds.flatMap DocumentResult.reports).length

theorem Records.lineOf? {l : Ledger} (h : Records { ledger := l } ds r) {report : Report}
    (hreport : report ∈ ds.flatMap DocumentResult.reports) : r.lineOf? report.value = some report.line := by
  have hlines := h.lines
  rw [List.append_nil] at hlines
  have hkeys : (r.lines.map Prod.fst).Nodup := by
    rw [hlines, List.map_reverse, List.map_map, List.nodup_reverse]
    exact List.pairwise_map.2 h.issued.apart
  rw [Registry.lineOf?, Ledger.lookup_eq_some_iff_mem hkeys, hlines, List.mem_reverse]
  exact List.mem_map.2 ⟨report, hreport, rfl⟩

theorem Records.remembers {l : Ledger} (h : Records { ledger := l } ds r)
    (hvalues : ∀ d ∈ ds, ∀ commands, d.result = .ok commands →
      d.reports.map Report.value = commandNodes commands) : r.Remembers ds := by
  have hreports : ∀ d ∈ ds, ∀ report ∈ d.reports, r.lineOf? report.value = some report.line :=
    fun d hd report hreport => h.lineOf? (List.mem_flatMap.2 ⟨d, hd, hreport⟩)
  refine ⟨fun d hd commands hresult v hv => ?_, hreports, h.issued.apart, ?_⟩
  · rw [← hvalues d hd commands hresult] at hv
    obtain ⟨report, hreport, rfl⟩ := List.mem_map.1 hv
    exact ⟨report, hreport, rfl, hreports d hd report hreport⟩
  · rw [size, h.lines, List.append_nil, List.length_reverse, List.length_map]

/-- A line that is remembered is never changed by further documents. -/
theorem Records.keeps (h : r.Records ds r') (hr : r.Sound) {v : Value} {n : Nat}
    (hv : r.lineOf? v = some n) : r'.lineOf? v = some n := by
  have hold : v.id < r.ledger.next := by
    obtain ⟨front, back, hlines, -⟩ := List.lookup_eq_some_iff.1 hv
    exact hr (v.id, n) (by simp [hlines])
  have hnone : ((ds.flatMap DocumentResult.reports).map Report.entry).reverse.lookup v.id = none := by
    refine List.lookup_eq_none_iff.2 fun e he => ?_
    obtain ⟨report, hreport, rfl⟩ := List.mem_map.1 (List.mem_reverse.1 he)
    exact bne_iff_ne.2 (Nat.ne_of_lt (Nat.lt_of_lt_of_le hold (h.issued.between report hreport).1))
  rw [Registry.lineOf?, h.lines, List.lookup_append, hnone]
  exact hv

/-- Into a new registry documents are parsed one after the other. However many there are and whatever becomes
of them, it remembers every value that has been reported on the line that was reported, also after further
documents, and nothing else. -/
theorem remembers_parseEach {before after : List Request} (h : ∀ q ∈ before ++ after, q.Compiled)
    (l : Ledger) :
    ∃ others, (parseEach { ledger := l } (before ++ after)).1 =
        (parseEach { ledger := l } before).1 ++ others ∧
      (parseEach { ledger := l } (before ++ after)).2.Remembers
        ((parseEach { ledger := l } before).1 ++ others) ∧
      ∀ v n, (parseEach { ledger := l } before).2.lineOf? v = some n →
        (parseEach { ledger := l } (before ++ after)).2.lineOf? v = some n := by
  have hnew : Sound { ledger := l } := List.forall_mem_nil _
  obtain ⟨hbefore, hafter⟩ := List.forall_mem_append.1 h
  have hfirst := records_parseEach hbefore hnew
  have hlater := records_parseEach hafter (hfirst.sound hnew)
  have hall := records_parseEach h hnew
  have hvalues := values_parseEach h { ledger := l }
  rw [parseEach_append] at hall hvalues ⊢
  exact ⟨_, rfl, hall.remembers hvalues, fun v n hv => hlater.keeps (hfirst.sound hnew) hv⟩

def textDescription : Description := ⟨"prose", ⟨[("prose", ⟨[⟨"text", .string, none⟩]⟩)], by decide⟩⟩

def textTable : Table := ⟨"prose", [("text", ⟨.attribute, .string⟩)]⟩

def textSchema : Schema := ⟨textTable, [("prose", textTable)]⟩

theorem compile_textDescription : textDescription.compile = .ok textSchema := by
  with_unfolding_all rfl

/-- The first document fails in its second paragraph. All texts are alike. -/
def alikeRequests : List Request :=
  [⟨documentRules, cardSchema, leavingDocument⟩, ⟨documentRules, cardSchema, "Hi\n\nHi".toList⟩]

def laterRequests : List Request := [⟨[.lineBreak], textSchema, "\nHi".toList⟩]

theorem remembers_alikeRequests : (∀ q ∈ alikeRequests ++ laterRequests, q.Compiled) ∧
    (∃ others, (parseEach {} (alikeRequests ++ laterRequests)).1 =
        (parseEach {} alikeRequests).1 ++ others ∧
      (parseEach {} (alikeRequests ++ laterRequests)).2.Remembers
        ((parseEach {} alikeRequests).1 ++ others)) ∧
    (parseEach {} alikeRequests).2.lines = [(3, 2), (2, 0), (0, 0)] ∧
    (parseEach {} (alikeRequests ++ laterRequests)).2.lines = [(4, 1), (3, 2), (2, 0), (0, 0)] := by
  have hcompiled : ∀ q ∈ alikeRequests ++ laterRequests, q.Compiled := by
    simp only [alikeRequests, laterRequests, List.cons_append, List.nil_append, List.forall_mem_cons]
    exact ⟨⟨_, compile_cardDescription⟩, ⟨_, compile_cardDescription⟩, ⟨_, compile_textDescription⟩,
      List.forall_mem_nil _⟩
  obtain ⟨others, hresults, hremembers, -⟩ := remembers_parseEach hcompiled {}
  refine ⟨hcompiled, ⟨others, hresults, hremembers⟩, ?_, ?_⟩
  · decide +kernel
  · decide +kernel

end Registry

end TaggedProse
