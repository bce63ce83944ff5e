import TaggedProse.Proofs.Assembly.LineEnds
import TaggedProse.Proofs.Inline.LineEnds
import TaggedProse.Proofs.Paragraph.Gaps
import TaggedProse.Proofs.Paragraph.Outcome
import TaggedProse.Proofs.Paragraph.Replacing

/-! Line ends of two characters in paragraphs. A document with carriage returns in front of its newlines is cut into the
same paragraphs, and their items are taken in the same way. -/
namespace TaggedProse
variable {schema : Schema} {s t l l' : List Char} {line n : Nat} {ls ls' : List (List Char)} {ts us : List Token}
  {items items' : List Item} {it it' : Item} {g g' : Progress}

/-! ### Items -/

inductive Item.Matches : Item → Item → Prop
  | text {s t : List Char} (line : Nat) (returned : Returned s t) : Matches (.text s line) (.text t line)
  | tag (content : List Char) (line : Nat) : Matches (.tag content line) (.tag content line)

theorem Item.Matches.refl (it : Item) : it.Matches it := by
  cases it with
  | text s line => exact .text line (.refl s)
  | tag content line => exact .tag content line

theorem joinItems_cons_matches (hit : it.Matches it')
    (h : List.Forall₂ Item.Matches (joinItems items) (joinItems items')) :
    List.Forall₂ Item.Matches (joinItems (it :: items)) (joinItems (it' :: items')) := by
  cases hit with
  | tag content line => exact .cons (.tag content line) h
  | text line returned =>
    rw [joinItems, joinItems]
    generalize joinItems items = joined, joinItems items' = joined' at h
    cases h with
    | nil => exact .cons (.text line returned) .nil
    | cons hfirst hrest =>
      cases hfirst with
      | text _ hfirst => exact .cons (.text line (returned.append hfirst)) hrest
      | tag content _ => exact .cons (.text line returned) (.cons (.tag content _) hrest)

theorem joinItems_append_matches (front : List Item)
    (h : List.Forall₂ Item.Matches (joinItems items) (joinItems items')) :
    List.Forall₂ Item.Matches (joinItems (front ++ items)) (joinItems (front ++ items')) := by
  induction front with
  | nil => exact h
  | cons it front ih => exact joinItems_cons_matches (.refl it) ih

theorem joinItems_itemsOf_matches (h : TokensReturned ts us) (n : Nat)
    (hitems : List.Forall₂ Item.Matches (joinItems items) (joinItems items')) :
    List.Forall₂ Item.Matches (joinItems (itemsOf n ts ++ items)) (joinItems (itemsOf n us ++ items')) := by
  induction h generalizing n with
  | nil => exact hitems
  | cons token _ ih =>
    rw [itemsOf, itemsOf, List.append_assoc, List.append_assoc]
    exact joinItems_append_matches _ (ih _)
  | @newline ts us _ ih =>
    have hjoined : joinItems (itemsOf n (.text ['\r'] :: .text ['\n'] :: us) ++ items') =
        joinItems (.text ['\r', '\n'] n :: (itemsOf (n + 1) us ++ items')) := joinItems_text_text _ _ n n _
    rw [hjoined]
    exact joinItems_cons_matches (.text n Returned.nil.newline) (ih (n + 1))

theorem sourceItems_matches (h : Returned s t) (hcr : '\r' ∉ s)
    (htags : ∀ token ∈ tokenize documentRules s, token.staysOnLine = true) :
    List.Forall₂ Item.Matches (sourceItems s) (sourceItems t) := by
  rw [sourceItems_eq, sourceItems_eq, h.newlines_eq]
  refine .cons (.refl _) (joinItems_itemsOf_matches (tokensReturned h hcr (newline_notMem_of_staysOnLine htags)) 0 ?_)
  exact List.forall₂_same.2 fun it _ => .refl it

/-! ### Taking items -/

structure Progress.Matches (g g' : Progress) : Prop where
  opened : g'.opened = g.opened
  assembly : g.assembly.Matches g'.assembly

theorem parts_text_eq (s : List Char) (line : Nat) : (Item.text s line).parts =
    ((Xml.decode (escape .content s)).mapError fun e => ⟨.badReference e, line⟩).map (textParts line) := by
  rw [Item.parts]
  cases hd : Xml.decode (escape .content s) with
  | error e => rfl
  | ok d => exact congrArg Except.ok (map_part_glyphs s line 0 hd)

namespace Item.Matches

theorem parallel_parts (h : it.Matches it') (schema : Schema) :
    Parallel (fun parts parts' => ∀ a a' : Assembly, a.Matches a' →
      Assembly.StepMatches (Assembly.run schema parts a) (Assembly.run schema parts' a')) it.parts it'.parts := by
  cases h with
  | tag content line =>
    cases (Item.tag content line).parts with
    | error e => exact .error e
    | ok parts => exact .ok fun a a' ha => ha.run schema parts
  | @text s t line returned =>
    rw [parts_text_eq, parts_text_eq]
    have hdecode := returned.parallel_decode
    generalize Xml.decode (escape .content s) = d, Xml.decode (escape .content t) = d' at hdecode
    cases hdecode with
    | error e => exact .error _
    | ok related => exact .ok fun a a' ha => ha.run_textParts related schema line

theorem opened_eq (h : it.Matches it') (opened : List (List Char)) : it'.opened opened = it.opened opened := by
  cases h <;> rfl

theorem take (h : it.Matches it') (schema : Schema) (hg : g.Matches g') :
    Parallel Progress.Matches (it.take schema g) (it'.take schema g') := by
  have hparts := h.parallel_parts schema
  rw [Item.take, Item.take, hg.opened, h.opened_eq]
  cases it.opened g.opened with
  | error e => exact .error e
  | ok opened =>
    dsimp only
    generalize it.parts = parts, it'.parts = parts' at hparts
    cases hparts with
    | error e => exact .error e
    | @ok parts parts' related =>
      obtain ⟨hresult, hassembly⟩ := related _ _ hg.assembly
      dsimp only
      generalize Assembly.run schema parts g.assembly = r, Assembly.run schema parts' g'.assembly = r'
        at hresult hassembly
      obtain ⟨result, a⟩ := r
      obtain ⟨result', a'⟩ := r'
      obtain rfl : result' = result := hresult
      cases result' with
      | error e => exact .error e
      | ok u => exact .ok ⟨rfl, hassembly⟩

end Item.Matches

theorem takeAll_matches (h : List.Forall₂ Item.Matches items items') (hg : g.Matches g') :
    Parallel Progress.Matches ((takeAll schema items g).mapError Prod.snd)
      ((takeAll schema items' g').mapError Prod.snd) := by
  induction h generalizing g g' with
  | nil => exact .ok hg
  | @cons it it' items items' hit _ ih =>
    have htake := hit.take schema hg
    rw [takeAll, takeAll]
    generalize it.take schema g = r, it'.take schema g' = r' at htake
    cases htake with
    | error e => exact .error e
    | ok related => exact ih related

/-! ### Lines -/

structure LineReturned (l l' : List Char) : Prop where
  plain : '\r' ∉ l
  ends : l' = l ∨ l' = l ++ ['\r']

theorem splitLines_returned (h : Returned s t) (hcr : '\r' ∉ s) :
    List.Forall₂ LineReturned (splitLines s) (splitLines t) := by
  induction h with
  | nil => exact .cons ⟨hcr, .inl rfl⟩ .nil
  | @cons c s t _ ih =>
    have hrest := ih fun hmem => hcr (List.mem_cons_of_mem c hmem)
    have hc : '\r' ≠ c := fun heq => hcr (heq ▸ List.mem_cons_self)
    by_cases hnewline : c = '\n'
    · subst hnewline
      rw [splitLines_newline_cons, splitLines_newline_cons]
      exact .cons ⟨List.not_mem_nil, .inl rfl⟩ hrest
    · rw [splitLines_cons_of_ne hnewline, splitLines_cons_of_ne hnewline]
      generalize splitLines s = ls, splitLines t = ls' at hrest
      cases hrest with
      | nil => exact .cons ⟨by simpa using hc, .inl rfl⟩ .nil
      | cons hfirst hrest =>
        refine .cons ⟨List.not_mem_cons_of_ne_of_not_mem hc hfirst.plain, ?_⟩ hrest
        exact hfirst.ends.imp (congrArg (c :: ·)) (congrArg (c :: ·))
  | @newline s t _ ih =>
    rw [splitLines_newline_cons, splitLines_cons_of_ne (by decide), splitLines_newline_cons]
    exact .cons ⟨List.not_mem_nil, .inr rfl⟩ (ih fun hmem => hcr (List.mem_cons_of_mem _ hmem))

theorem leading?_of_allBlank (h : allBlank l = true) : OpenElement.leading? l = none := by
  have htrim : trimLeft l = [] := by simpa [trimLeft] using trimLeft_blanks h []
  rw [OpenElement.leading?, htrim]
  rfl

/-- A line and what it has before its carriage return are the same to the cutting into paragraphs. -/
theorem interchangeable_lineContent (l : List Char) : Interchangeable (lineContent l) l where
  blank := allBlank_lineContent l
  leading := by
    cases hblank : allBlank l with
    | true => rw [leading?_of_allBlank hblank, leading?_of_allBlank ((allBlank_lineContent l).trans hblank)]
    | false =>
      refine Option.ext fun e => ?_
      rw [leading?_eq_some, leading?_eq_some, leadsWith_lineContent hblank]
  balance name := by
    rw [balance_eq_surplus, balance_eq_surplus, ← surplus_map_alone, map_alone_tagsIn_lineContent, surplus_map_alone]

theorem LineReturned.interchangeable (h : LineReturned l l') : Interchangeable l l' := by
  obtain ⟨-, rfl | rfl⟩ := h
  · exact ⟨rfl, rfl, fun _ => rfl⟩
  · have hcut := interchangeable_lineContent (l ++ ['\r'])
    rwa [lineContent_append_cr] at hcut

/-! ### Blocks -/

/-- Lines that are interchangeable one by one are cut into blocks at the same places. -/
theorem splitBlock_forall₂ {R : List Char → List Char → Prop} (hR : ∀ l l', R l l' → Interchangeable l l')
    (h : List.Forall₂ R ls ls') (open? : Option OpenElement) :
    List.Forall₂ R (splitBlock open? ls).1 (splitBlock open? ls').1 ∧
      List.Forall₂ R (splitBlock open? ls).2 (splitBlock open? ls').2 := by
  induction h generalizing open? with
  | nil => exact ⟨.nil, .nil⟩
  | @cons l l' ls ls' hl hls ih =>
    rw [splitBlock, splitBlock, ← (hR l l' hl).blank, ← (hR l l' hl).bind_after?]
    by_cases hends : (open?.isNone && allBlank l) = true
    · rw [if_pos hends, if_pos hends]
      exact ⟨.nil, .cons hl hls⟩
    · rw [if_neg hends, if_neg hends]
      exact ⟨.cons hl (ih _).1, (ih _).2⟩

theorem splitBlock_returned (h : List.Forall₂ LineReturned ls ls') (open? : Option OpenElement) :
    List.Forall₂ LineReturned (splitBlock open? ls).1 (splitBlock open? ls').1 ∧
      List.Forall₂ LineReturned (splitBlock open? ls).2 (splitBlock open? ls').2 :=
  splitBlock_forall₂ (fun _ _ => LineReturned.interchangeable) h open?

/-- Only the last line of a paragraph loses its carriage return. -/
theorem exists_joinWith_returned (h : List.Forall₂ LineReturned (l :: ls) (l' :: ls')) :
    '\r' ∉ joinWith '\n' (l :: ls) ∧ ∃ s cr, joinWith '\n' (l' :: ls') = s ++ cr ∧ (cr = [] ∨ cr = ['\r']) ∧
      Returned (joinWith '\n' (l :: ls)) s := by
  induction ls generalizing l l' ls' with
  | nil =>
    cases h with
    | cons hl hls =>
      cases hls
      refine ⟨hl.plain, l, ?_⟩
      rcases hl.ends with rfl | rfl
      · exact ⟨[], (List.append_nil _).symm, .inl rfl, .refl _⟩
      · exact ⟨['\r'], rfl, .inr rfl, .refl _⟩
  | cons m ls ih =>
    cases h with
    | @cons _ _ _ ls' hl hls =>
      cases ls' with
      | nil => cases hls
      | cons m' ls' =>
        obtain ⟨hplain, s, cr, hjoin, hcr, hreturned⟩ := ih hls
        refine ⟨?_, l' ++ '\n' :: s, cr, ?_, hcr, ?_⟩
        · simpa [joinWith] using ⟨hl.plain, hplain⟩
        · rw [joinWith, hjoin, List.append_assoc, List.cons_append]
        · rcases hl.ends with rfl | rfl
          · exact hreturned.cons '\n' |>.append_left l'
          · rw [List.append_assoc]
            exact hreturned.newline.append_left l

/-! ### Paragraphs -/

structure Paragraph.Matches (p p' : Paragraph) : Prop where
  startLine : p'.startLine = p.startLine
  source : Returned p.source p'.source
  plain : '\r' ∉ p.source

theorem paragraph_matches (h : List.Forall₂ LineReturned (l :: ls) (l' :: ls')) (n : Nat) :
    Paragraph.Matches ⟨n, lineContent (joinWith '\n' (l :: ls))⟩ ⟨n, lineContent (joinWith '\n' (l' :: ls'))⟩ := by
  obtain ⟨hplain, s, cr, hjoin, hcr, hreturned⟩ := exists_joinWith_returned h
  have hown : lineContent (joinWith '\n' (l :: ls)) = joinWith '\n' (l :: ls) :=
    lineContent_eq_self_iff.2 fun hlast => hplain (List.mem_of_getLast? hlast)
  have hother : lineContent (joinWith '\n' (l' :: ls')) = s := by
    rw [hjoin]
    rcases hcr with rfl | rfl
    · rw [List.append_nil]
      exact lineContent_eq_self_iff.2 (hreturned.getLast?_ne hplain)
    · exact lineContent_append_cr s
  rw [hown, hother]
  exact ⟨rfl, hreturned, hplain⟩

theorem paragraphsFrom_returned (h : List.Forall₂ LineReturned ls ls') (n : Nat) :
    List.Forall₂ Paragraph.Matches (paragraphsFrom n ls) (paragraphsFrom n ls') := by
  induction hlength : ls.length using Nat.strong_induction_on generalizing n ls ls' with
  | _ k ih =>
    subst hlength
    cases h with
    | nil =>
      rw [paragraphsFrom]
      exact .nil
    | @cons l l' ls ls' hl hls =>
      have hcut := hl.interchangeable
      rw [paragraphsFrom, paragraphsFrom, ← hcut.blank]
      by_cases hblank : allBlank l = true
      · rw [if_pos hblank, if_pos hblank]
        exact ih _ (Nat.lt_succ_self _) hls (n + 1) rfl
      · obtain ⟨hmore, hrest⟩ := splitBlock_returned hls ((OpenElement.leading? l).bind (·.after? l))
        have hshorter : (splitBlock ((OpenElement.leading? l).bind (·.after? l)) ls).2.length < (l :: ls).length := by
          have hsplit := congrArg List.length (append_splitBlock ((OpenElement.leading? l).bind (·.after? l)) ls)
          rw [List.length_append] at hsplit
          rw [List.length_cons]
          omega
        rw [if_neg hblank, if_neg hblank, ← hcut.leading, ← hcut.bind_after?]
        dsimp only
        rw [← hmore.length_eq]
        exact .cons (paragraph_matches (.cons hl hmore) n) (ih _ hshorter hrest _ rfl)

theorem paragraphs_returned (h : Returned s t) (hcr : '\r' ∉ s) :
    List.Forall₂ Paragraph.Matches (paragraphs s) (paragraphs t) :=
  paragraphsFrom_returned (splitLines_returned h hcr) 0

end TaggedProse
