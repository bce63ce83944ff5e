import TaggedProse.Proofs.Document.Outcome
import TaggedProse.Proofs.Paragraph.Spans
import TaggedProse.Proofs.Text.Decoding

/-! Prose without tags can be read. Only a reference that escaping keeps, and that denotes no character,
is a mistake of syntax in it. -/
namespace TaggedProse
variable {schema : Schema} {ts : List Token} {items rest : List Item} {it : Item} {g g' : Progress}
  {e : Failure} {source : List Char} {span : Span}

def Token.isMarkup : Token → Bool
  | .markup _ => true
  | _ => false

def Paragraph.Tagless (p : Paragraph) : Prop := ∀ t ∈ tokenize documentRules p.source, t.isMarkup = false

def Paragraph.Denotes (p : Paragraph) : Prop :=
  ∀ s, .text s ∈ tokenize documentRules p.source → ∀ name, Refers s name → TaggedProse.Denotes name

/-! ### Items of prose without tags -/

def Item.Readable : Item → Prop
  | .text s _ => ∃ d, Xml.decode (escape .content s) = .ok d
  | .tag content _ => ∃ inner, Xml.tagEvent content = .empty inner

def IsProse (ts : List Token) (span : Span) : Prop :=
  (∃ inner, span.event = .empty inner) ∨
    ∃ s, span = textSpan (escape .content s) ∧ ∀ name, Refers s name → ∃ t, .text t ∈ ts ∧ Refers t name

theorem IsProse.mono {us : List Token} (h : IsProse ts span) (hts : ts ⊆ us) : IsProse us span := by
  rcases h with hempty | ⟨s, heq, hrefers⟩
  · exact .inl hempty
  · refine .inr ⟨s, heq, fun name hname => ?_⟩
    obtain ⟨t, ht, htname⟩ := hrefers name hname
    exact ⟨t, hts ht, htname⟩

theorem isProse_of_mem_spansOf (h : ∀ t ∈ ts, t.isMarkup = false) (hspan : span ∈ spansOf ts) :
    IsProse ts span := by
  have hnewline : ∀ s name, Refers ('\n' :: s) name → Refers s name := fun s name =>
    (refers_literal (by simp)).1
  fun_induction spansOf ts with
  | case1 => cases hspan
  | case2 s ts ih =>
    rcases List.mem_cons.1 hspan with rfl | hspan
    · exact .inl ⟨_, rfl⟩
    · rcases List.mem_cons.1 hspan with rfl | hspan
      · exact .inr ⟨'\n' :: s, rfl, fun name hname => ⟨s, by simp, hnewline s name hname⟩⟩
      · exact (ih (fun t ht => h t (by simp [ht])) hspan).mono (by simp)
  | case3 ts _ ih =>
    rcases List.mem_cons.1 hspan with rfl | hspan
    · exact .inl ⟨_, rfl⟩
    · rcases List.mem_cons.1 hspan with rfl | hspan
      · refine .inr ⟨['\n'], rfl, fun name hname => ?_⟩
        obtain ⟨front, rest, heq, -⟩ := hnewline [] name hname
        simp at heq
      · exact (ih (fun t ht => h t (by simp [ht])) hspan).mono (by simp)
  | case4 t ts _ _ ih =>
    obtain ⟨ht, hts⟩ := List.forall_mem_cons.1 h
    rcases List.mem_cons.1 hspan with rfl | hspan
    · cases t with
      | text s => exact .inr ⟨s, rfl, fun name hname => ⟨s, List.mem_cons_self, hname⟩⟩
      | markup source => cases ht
      | image url alt title => exact .inl ⟨_, rfl⟩
      | lineBreak => exact .inl ⟨_, rfl⟩
    · exact (ih hts hspan).mono (List.subset_cons_self _ _)

theorem readable_of_mem_writtenItems (h : ∀ t ∈ tokenize documentRules source, t.isMarkup = false)
    (hd : ∀ s, .text s ∈ tokenize documentRules source → ∀ name, Refers s name → Denotes name)
    (hit : it ∈ writtenItems source) : it.Readable := by
  have hspans : (writtenItems source).map Item.span = spansOf (tokenize documentRules source) :=
    (spanned_joinItems (keeps_pieces source) 0).1
  have hspan : it.span ∈ spansOf (tokenize documentRules source) := hspans ▸ List.mem_map_of_mem hit
  rcases isProse_of_mem_spansOf h hspan with ⟨inner, hevent⟩ | ⟨s, heq, hrefers⟩
  · cases it with
    | text s line => cases hevent
    | tag content line => exact ⟨inner, hevent⟩
  · cases it with
    | text s' line =>
      have hescape : escape .content s' = escape .content s := congrArg Span.written heq
      rw [Item.Readable, hescape, exists_decode_escape]
      intro name hname
      obtain ⟨t, ht, hname⟩ := hrefers name hname
      exact hd t ht name hname
    | tag content line =>
      have hevent : Xml.tagEvent content = .text (escape .content s) := congrArg Span.event heq
      rcases tagEvent_cases content with ⟨name, h⟩ | ⟨inner, h⟩ | h
      · rw [h] at hevent; cases hevent
      · exact ⟨inner, h⟩
      · rw [h] at hevent; cases hevent

/-! ### Taking them -/

theorem opened_of_take (h : it.take schema g = .ok g') : it.opened g.opened = .ok g'.opened := by
  unfold Item.take at h
  split at h
  · cases h
  · next opened hopened =>
    split at h
    · cases h
    · split at h
      · cases h
      · cases h
        exact hopened

/-- An item whose tags match and whose text can be decoded fails as the assembly does, if it fails. -/
theorem isSyntax_of_take (hopened : ∃ opened, it.opened g.opened = .ok opened)
    (hparts : ReadsAll it.parts) (h : it.take schema g = .error e) : e.item.isSyntax = false := by
  obtain ⟨opened, hopened⟩ := hopened
  unfold Item.take at h
  rw [hopened] at h
  dsimp only at h
  split at h
  · next e' heq =>
    cases h
    exact hparts _ heq
  · next parts heq =>
    have hrun := Assembly.readsAll_run schema parts g.assembly
    split at h
    · next e' a heq =>
      cases h
      exact hrun e (by rw [heq])
    · cases h

theorem Item.Readable.opened (h : it.Readable) (opened : List (List Char)) : it.opened opened = .ok opened := by
  cases it with
  | text s line => rfl
  | tag content line =>
    obtain ⟨inner, hevent⟩ := h
    rw [Item.opened, hevent]
    rfl

theorem Item.Readable.readsAll (h : it.Readable) : ReadsAll it.parts := by
  cases it with
  | text s line =>
    obtain ⟨d, hd⟩ := h
    rw [Item.parts, hd]
    exact readsAll_ok _
  | tag content line =>
    obtain ⟨inner, hevent⟩ := h
    rw [Item.parts, hevent, Xml.Event.parts]
    split
    · exact readsAll_error rfl
    · exact readsAll_ok _

/-- Readable items leave open what is open, up to the first that the assembly refuses. -/
theorem takeAll_readable_append (hitems : ∀ it ∈ items, it.Readable)
    (h : takeAll schema (items ++ rest) g = .error (it, e)) :
    e.item.isSyntax = false ∨ ∃ g', g'.opened = g.opened ∧ takeAll schema rest g' = .error (it, e) := by
  induction items generalizing g with
  | nil => exact .inr ⟨g, rfl, h⟩
  | cons first items ih =>
    obtain ⟨hfirst, hitems⟩ := List.forall_mem_cons.1 hitems
    rw [List.cons_append, takeAll] at h
    split at h
    · next e' htake =>
      cases h
      exact .inl (isSyntax_of_take ⟨_, hfirst.opened _⟩ hfirst.readsAll htake)
    · next g₁ htake =>
      have hopened := opened_of_take htake
      rw [hfirst.opened] at hopened
      rcases ih hitems h with hsyntax | ⟨g', hg', hrest⟩
      · exact .inl hsyntax
      · exact .inr ⟨g', hg'.trans (Except.ok.inj hopened).symm, hrest⟩

theorem isSyntax_of_takeAll (hitems : ∀ it ∈ writtenItems source, it.Readable) {l : Ledger}
    (h : takeAll schema (sourceItems source) (start l) = .error (it, e)) : e.item.isSyntax = false := by
  obtain ⟨g, htake⟩ := take_opening_paragraph schema l
  have hopened : (Item.tag paragraphTag.toList 0).opened [] = .ok [paragraphTag.toList] := by rfl
  have hg : g.opened = [paragraphTag.toList] :=
    (Except.ok.inj ((opened_of_take htake).symm.trans hopened))
  rw [sourceItems, takeAll, htake] at h
  rcases takeAll_readable_append hitems h with hsyntax | ⟨g', hg', hclosing⟩
  · exact hsyntax
  · rw [takeAll] at hclosing
    split at hclosing
    · next e' htake =>
      cases hclosing
      refine isSyntax_of_take ⟨[], ?_⟩ ?_ htake
      · rw [hg', hg]
        rfl
      · rw [parts_closing_paragraph]
        exact readsAll_ok _
    · cases hclosing

theorem readsAll_parseParagraph {p : Paragraph} (ht : p.Tagless) (hd : p.Denotes) (schema : Schema)
    (l : Ledger) : ReadsAll (parseParagraph documentRules schema p l).1.result := by
  have hitems : ∀ it ∈ writtenItems p.source, it.Readable := fun _ => readable_of_mem_writtenItems ht hd
  have hreached := reached_parseParagraph schema p l
  generalize (parseParagraph documentRules schema p l).1 = r at hreached ⊢
  cases hreached with
  | taken => exact readsAll_ok _
  | failed hfail =>
    have hsyntax := isSyntax_of_takeAll hitems hfail
    exact readsAll_error hsyntax
  | unfinished _ hfinish =>
    obtain ⟨tag, rfl⟩ := Assembly.exists_of_finish_error hfinish
    exact readsAll_error rfl

/-- Escaped text can be decoded if all references in it denote characters, and only then. So prose without
tags, in which every reference denotes a character, has no mistake of syntax. -/
theorem decodes_and_readsAll (place : Place) (s : List Char) (schema : Schema) (p : Paragraph)
    (l : Ledger) :
    ((∃ d, Xml.decode (escape place s) = .ok d) ↔ ∀ name, Refers s name → Denotes name) ∧
      (p.Tagless → p.Denotes → ReadsAll (parseParagraph documentRules schema p l).1.result) :=
  ⟨exists_decode_escape place s, fun ht hd => readsAll_parseParagraph ht hd schema l⟩

def comparingParagraph : Paragraph := ⟨0, "1 < 2 &amp; 2 > 1 & &copy; &#x41; \\&#66;".toList⟩

theorem readsAll_comparingParagraph :
    comparingParagraph.Tagless ∧ comparingParagraph.Denotes ∧
      ReadsAll (parseParagraph documentRules cardSchema comparingParagraph {}).1.result := by
  have htagless : comparingParagraph.Tagless := by
    unfold Paragraph.Tagless
    decide +kernel
  have hdenotes : comparingParagraph.Denotes := by
    have htokens : tokenize documentRules comparingParagraph.source =
        [.text "1 < 2 &amp; 2 > 1 & &copy; &#x41; &#66;".toList] := by decide +kernel
    have hdecode : Xml.decode (escape .content "1 < 2 &amp; 2 > 1 & &copy; &#x41; &#66;".toList) =
        .ok "1 < 2 & 2 > 1 & &copy; A B".toList := by decide +kernel
    intro s hs
    rw [htokens, List.mem_singleton] at hs
    cases hs
    exact (exists_decode_escape .content _).1 ⟨_, hdecode⟩
  have hreads := decodes_and_readsAll .content comparingParagraph.source cardSchema comparingParagraph {}
  exact ⟨htagless, hdenotes, hreads.2 htagless hdenotes⟩

/-- Prose whose reference is written with a capital letter, which escaping keeps and no reader decodes. -/
def capitalParagraph : Paragraph := ⟨0, "&#X41;".toList⟩

theorem not_readsAll_capitalParagraph :
    Xml.decode (escape .content capitalParagraph.source) = .error (.badNumber .badDigit) ∧
      Xml.decode (escape .attribute capitalParagraph.source) = .error (.badNumber .badDigit) ∧
      (∀ t ∈ tokenize documentRules capitalParagraph.source, t.isMarkup = false) ∧
      ¬ReadsAll (parseParagraph documentRules cardSchema capitalParagraph {}).1.result := by
  decide +kernel

end TaggedProse
