import TaggedProse.Schema.Table
import TaggedProse.Proofs.Inline.Plain
import TaggedProse.Proofs.Inline.TagsIn

/-! Field names as tags. A declared name is recognised in all its spellings or in none of them: the recogniser
knows ASCII letters only at the beginning of a name, and word characters after that. -/
namespace TaggedProse
variable {c : Char} {s name rest : List Char} {closing selfClosing : Bool}

def isTagName : List Char → Bool
  | [] => false
  | c :: s => TagSpan.isNameStart c && s.all TagSpan.isNameChar

def bareEnd (selfClosing : Bool) : List Char := if selfClosing then ['/', '>'] else ['>']

def bareTag (closing selfClosing : Bool) (name : List Char) : List Char :=
  '<' :: ((if closing then ['/'] else []) ++ (name ++ bareEnd selfClosing))

def isFieldChar (c : Char) : Bool := c == '-' || c == '.' || Unicode.continuesIdentifier c

/-! ### Characters of names -/

theorem continuesIdentifier_eq_false_of_isBlank (h : isBlank c = true) : Unicode.continuesIdentifier c = false := by
  have hother : Unicode.identifierOnly.contains c = false :=
    forall_isBlank (fun c => Unicode.identifierOnly.contains c = false) (by decide +kernel) h
  simp [Unicode.continuesIdentifier, isWord_eq_false_of_isBlank h, hother]

theorem isBlank_eq_false_of_isFieldChar (h : isFieldChar c = true) : isBlank c = false := by
  cases hblank : isBlank c with
  | false => rfl
  | true =>
    simp only [isFieldChar, continuesIdentifier_eq_false_of_isBlank hblank, Bool.or_false, Bool.or_eq_true,
      beq_iff_eq] at h
    rcases h with rfl | rfl <;> cases hblank

/-- No character of a field name has a meaning in markup. -/
theorem isFieldChar_ne (h : isFieldChar c = true) :
    c ≠ '<' ∧ c ≠ '>' ∧ c ≠ '/' ∧ c ≠ '!' ∧ c ≠ '\\' ∧ c ≠ '&' ∧ c ≠ '\n' := by
  refine ⟨?_, ?_, ?_, ?_, ?_, ?_, ?_⟩ <;> rintro rfl <;> revert h <;> decide +kernel

theorem isFieldChar_of_startsIdentifier (h : Unicode.startsIdentifier c = true) : isFieldChar c = true := by
  by_cases hascii : c.toNat < 0x80
  · have hall : ∀ n < 0x80, Unicode.startsIdentifier (Char.ofNat n) = true → isFieldChar (Char.ofNat n) = true := by
      decide +kernel
    rw [← Char.ofNat_toNat c] at h ⊢
    exact hall _ hascii h
  · simp only [Unicode.startsIdentifier, hascii, if_false, Bool.and_eq_true] at h
    simp only [isFieldChar, h.1, Bool.or_true]

theorem isFieldChar_of_mem {name : String} (h : isFieldName name = true) (hc : c ∈ name.toList) :
    isFieldChar c = true := by
  rw [isFieldName] at h
  cases hname : name.toList with
  | nil => rw [hname] at hc; cases hc
  | cons d s =>
    rw [hname] at h hc
    simp only [Bool.and_eq_true, Bool.or_eq_true, beq_iff_eq] at h
    rcases List.mem_cons.1 hc with rfl | hc
    · rcases h.1 with rfl | hstart
      · decide +kernel
      · exact isFieldChar_of_startsIdentifier hstart
    · exact List.all_eq_true.1 h.2 c hc

/-! ### The recogniser on a tag without attributes -/

namespace TagSpan

theorem finish_name (hs : s.all isNameChar = true) (selfClosing : Bool) (rest : List Char) :
    finish .name (s ++ (bareEnd selfClosing ++ rest)) = some (selfClosing, s ++ bareEnd selfClosing, rest) := by
  have hgt : isNameChar '>' = false := rfl
  have hslash : State.name.step '/' = some .slash := rfl
  induction s with
  | nil =>
    cases selfClosing with
    | false => rfl
    | true => simp [bareEnd, finish, hslash, State.ends]
  | cons c s ih =>
    simp only [List.all_cons, Bool.and_eq_true] at hs
    have hc : c ≠ '>' := by
      rintro rfl
      rw [hgt] at hs
      exact Bool.false_ne_true hs.1
    have hstep : State.name.step c = some .name := by rw [State.step, if_pos hs.1]
    rw [List.cons_append, finish, if_neg fun h => hc h.1, hstep]
    dsimp only
    rw [ih hs.2]
    rfl

/-- In a field name that the recogniser does not know as the name of a tag it gives up. -/
theorem finish_name_eq_none (hs : ∀ c ∈ s, isFieldChar c = true) (hbad : s.all isNameChar = false)
    (rest : List Char) : finish .name (s ++ rest) = none := by
  induction s with
  | nil => cases hbad
  | cons c s ih =>
    obtain ⟨hc, hs⟩ := List.forall_mem_cons.1 hs
    obtain ⟨-, hgt, hslash, -⟩ := isFieldChar_ne hc
    rw [List.cons_append, finish, if_neg fun h => hgt h.1, State.step]
    cases hname : isNameChar c with
    | false =>
      rw [if_neg Bool.false_ne_true, State.part, isBlank_eq_false_of_isFieldChar hc, if_neg Bool.false_ne_true,
        if_neg hslash]
    | true =>
      rw [List.all_cons, hname, Bool.true_and] at hbad
      rw [if_pos rfl]
      dsimp only
      rw [ih hs hbad]

theorem takeWhile_isNameChar_bareEnd (hs : s.all isNameChar = true) (selfClosing : Bool) (rest : List Char) :
    (s ++ (bareEnd selfClosing ++ rest)).takeWhile isNameChar = s := by
  have hend : (bareEnd selfClosing ++ rest).takeWhile isNameChar = [] := by
    cases selfClosing
    · exact List.takeWhile_cons_of_neg (by decide)
    · exact List.takeWhile_cons_of_neg (by decide)
  rw [List.takeWhile_append_of_pos fun c hc => List.all_eq_true.1 hs c hc, hend, List.append_nil]

theorem bareTag_eq (closing selfClosing : Bool) (name rest : List Char) : bareTag closing selfClosing name ++ rest =
    if closing then '<' :: '/' :: (name ++ (bareEnd selfClosing ++ rest))
    else '<' :: (name ++ (bareEnd selfClosing ++ rest)) := by
  cases closing <;> simp [bareTag]

theorem scan?_bareTag (h : isTagName name = true) (closing selfClosing : Bool) (rest : List Char) :
    scan? (bareTag closing selfClosing name ++ rest) =
      some ⟨closing, name, selfClosing, bareTag closing selfClosing name, rest⟩ := by
  cases name with
  | nil => cases h
  | cons c s =>
    simp only [isTagName, Bool.and_eq_true] at h
    have hnamed : ∀ opener, named closing opener (c :: (s ++ (bareEnd selfClosing ++ rest))) =
        some ⟨closing, c :: s, selfClosing, opener ++ (c :: (s ++ bareEnd selfClosing)), rest⟩ := by
      intro opener
      rw [named, if_pos h.1, finish_name h.2]
      dsimp only
      rw [takeWhile_isNameChar_bareEnd h.2]
    have hsource := bareTag_eq closing selfClosing (c :: s) []
    rw [bareTag_eq]
    cases closing with
    | true =>
      simp only [List.append_nil, if_true, List.cons_append] at hsource ⊢
      rw [hsource]
      exact hnamed _
    | false =>
      simp only [List.append_nil, if_false, List.cons_append, Bool.false_eq_true] at hsource ⊢
      rw [hsource]
      exact scan?_of_named (hnamed _)

theorem named_eq_none (hfield : ∀ c ∈ name, isFieldChar c = true) (h : isTagName name = false) (hne : name ≠ [])
    (opener rest : List Char) : named closing opener (name ++ rest) = none := by
  obtain ⟨c, s, rfl⟩ := List.exists_cons_of_ne_nil hne
  rw [isTagName, Bool.and_eq_false_iff] at h
  rw [List.cons_append, named]
  rcases h with hstart | hbad
  · rw [if_neg (Bool.eq_false_iff.1 hstart)]
  · rw [finish_name_eq_none (List.forall_mem_cons.1 hfield).2 hbad]
    exact ite_self none

theorem scan?_cons_of_ne (hc : c ≠ '<') (s : List Char) : scan? (c :: s) = none := by
  simp [scan?, hc]

theorem scan?_bareTag_eq_none (hfield : ∀ c ∈ name, isFieldChar c = true) (h : isTagName name = false)
    (hne : name ≠ []) (closing selfClosing : Bool) (rest : List Char) :
    scan? (bareTag closing selfClosing name ++ rest) = none := by
  rw [bareTag_eq]
  cases closing with
  | true => exact named_eq_none hfield h hne _ _
  | false =>
    rw [if_neg Bool.false_ne_true]
    obtain ⟨c, s, rfl⟩ := List.exists_cons_of_ne_nil hne
    obtain ⟨-, -, hslash, -⟩ := isFieldChar_ne (List.forall_mem_cons.1 hfield).1
    rw [List.cons_append, scan?]
    · exact named_eq_none hfield h hne _ _
    · simpa using fun h => absurd h hslash

end TagSpan

/-! ### The text of such a tag -/

theorem tagsIn_of_plain (h : Plain s) : tagsIn s = [] := by
  induction s with
  | nil => rw [tagsIn]
  | cons c s ih =>
    obtain ⟨hc, hs⟩ := List.forall_mem_cons.1 h
    have hlt : c ≠ '<' := by
      rintro rfl
      cases hc
    rw [tagsIn_cons c (TagSpan.scan?_cons_of_ne hlt s), ih hs]

/-- Where no tag is recognised at its beginning, a text without other markup is prose. -/
theorem tokenize_cons_lt (hscan : TagSpan.scan? ('<' :: s) = none) (hs : Plain s) (hn : newlines s = 0) :
    tokenize documentRules ('<' :: s) = [.text ('<' :: s)] := by
  have hnone : (rulesBeforeText documentRules).findSome? (·.scan ('<' :: s)) = none := by
    rw [rulesBeforeText_documentRules]
    simp [Rule.scan, scanTag, hscan, scanEscape, scanImage, scanLineBreak, afterSpacedNewline?]
  have hchars := joinText_singletons '<' s []
  rw [List.append_nil] at hchars
  rw [tokenize, joinText_pieces isLiteral_of_mem_documentRules, tokensByPosition, hnone]
  dsimp only
  rw [tokensByPosition_lastLine hn hs, hchars]
  rfl

/-- After its first character a tag without attributes holds nothing that markup may begin with. -/
theorem exists_bareTag_eq (hfield : ∀ c ∈ name, isFieldChar c = true) (closing selfClosing : Bool) :
    ∃ s, bareTag closing selfClosing name = '<' :: s ∧ Plain s ∧ newlines s = 0 := by
  have hmem : ∀ c ∈ (if closing then ['/'] else []) ++ (name ++ bareEnd selfClosing),
      c = '/' ∨ c = '>' ∨ isFieldChar c = true := by
    intro c hc
    rcases List.mem_append.1 hc with hc | hc
    · cases closing <;> simp_all
    · rcases List.mem_append.1 hc with hc | hc
      · exact .inr (.inr (hfield c hc))
      · cases selfClosing <;> simp [bareEnd] at hc <;> tauto
  refine ⟨_, rfl, fun c hc => ?_, List.count_eq_zero.2 fun hc => ?_⟩
  · rcases hmem c hc with rfl | rfl | hc
    · decide
    · decide
    · obtain ⟨hlt, -, -, himage, hescape, hamp, -⟩ := isFieldChar_ne hc
      simp [isMarkupChar, hlt, himage, hescape, hamp]
  · rcases hmem _ hc with h | h | h
    · cases h
    · cases h
    · exact (isFieldChar_ne h).2.2.2.2.2.2 rfl

/-- A declared name is recognised as a tag, with exactly this name, in every spelling. If the recogniser does
not know the name, every spelling is prose. -/
theorem bareTag_fieldName (name : String) (h : isFieldName name = true) (closing selfClosing : Bool) :
    let written := bareTag closing selfClosing name.toList
    (isTagName name.toList = true →
      Rule.tag.scan written = some ⟨.markup written, written, []⟩ ∧
        tagsIn written = [⟨closing, name.toList, selfClosing, written, []⟩]) ∧
    (isTagName name.toList = false →
      Rule.tag.scan written = none ∧ tagsIn written = [] ∧ tokenize documentRules written = [.text written]) := by
  intro written
  have hfield : ∀ c ∈ name.toList, isFieldChar c = true := fun c => isFieldChar_of_mem h
  constructor
  · intro hname
    have hscan := TagSpan.scan?_bareTag hname closing selfClosing []
    rw [List.append_nil] at hscan
    refine ⟨?_, ?_⟩
    · rw [Rule.scan, scanTag, hscan]
      rfl
    · rw [tagsIn_of_scan? hscan, tagsIn]
  · intro hname
    have hne : name.toList ≠ [] := by
      intro hnil
      rw [isFieldName, hnil] at h
      cases h
    have hscan := TagSpan.scan?_bareTag_eq_none hfield hname hne closing selfClosing []
    rw [List.append_nil] at hscan
    obtain ⟨s, hwritten, hplain, hnewlines⟩ := exists_bareTag_eq hfield closing selfClosing
    refine ⟨?_, ?_⟩
    · rw [Rule.scan, scanTag, hscan]
      rfl
    · simp only [written]
      rw [hwritten] at hscan ⊢
      exact ⟨by rw [tagsIn_cons _ hscan, tagsIn_of_plain hplain], tokenize_cons_lt hscan hplain hnewlines⟩

theorem bareTag_accentedName :
    isFieldName "card-2" = true ∧ isTagName "card-2".toList = true ∧
      Rule.tag.scan "</card-2>".toList = some ⟨.markup "</card-2>".toList, "</card-2>".toList, []⟩ ∧
      isFieldName "é" = true ∧ isTagName "é".toList = false ∧
      tokenize documentRules "<é/>".toList = [.text "<é/>".toList] := by
  have hplain : isFieldName "card-2" = true ∧ isTagName "card-2".toList = true := by decide +kernel
  have haccented : isFieldName "é" = true ∧ isTagName "é".toList = false := by decide +kernel
  exact ⟨hplain.1, hplain.2, ((bareTag_fieldName "card-2" hplain.1 true false).1 hplain.2).1, haccented.1,
    haccented.2, ((bareTag_fieldName "é" haccented.1 false true).2 haccented.2).2.2⟩

/-- A name may begin with a letter that is none of ASCII, and hold a middle dot; no tag of either name is
recognised. -/
theorem scanTag_accentedName :
    isFieldName "é" = true ∧ isFieldName "a·" = true ∧
      ∀ written ∈ ["<é>", "<é/>", "</é>", "<a·>", "<a·/>", "</a·>"],
        Rule.tag.scan written.toList = none ∧ tagsIn written.toList = [] := by
  refine ⟨by decide +kernel, by decide +kernel, ?_⟩
  decide +kernel

end TaggedProse
