import Mathlib.Data.List.TakeWhile
import TaggedProse.Paragraph.Basic
import TaggedProse.Proofs.Inline.TagsIn

/-! The kinds of tags. The recogniser and the reader of elements agree on what a tag is for, but for a slash
behind a value without quotes, which the recogniser takes for a part of the value; and they agree on its name,
but for white space that only the recogniser knows. -/
namespace TaggedProse
variable {s content r : List Char} {t : TagSpan} {c : Char}

namespace TagSpan
variable {q q' : State} {opener read rest : List Char} {closing selfClosing : Bool}

/-! ### What was read, backwards -/

/-- Read backwards: after blanks, if any, stands an equals sign. -/
def awaitsValue : List Char → Bool
  | [] => false
  | c :: s => c == '=' || (isBlank c && awaitsValue s)

/-- Read backwards: after a value without quotes stands an equals sign, maybe with blanks between. -/
def inValue : List Char → Bool
  | [] => false
  | c :: s => isBareChar c && (awaitsValue s || inValue s)

def endsBare (content : List Char) : Bool := inValue content.reverse

/-- Outside quotes the machine's state can be told from what was read, here backwards. -/
structure State.Fits (q : State) (r : List Char) : Prop where
  value : q.quote? = none → (q = .value ↔ awaitsValue r = true)
  bare : q.quote? = none → (q = .bare ↔ inValue r = true)
  slash : q.quote? = none → (q = .slash ↔ r.head? = some '/' ∧ inValue r = false)

def State.isPlain : State → Bool
  | .name | .gap | .key | .afterKey | .afterValue | .slash => true
  | .value | .doubleQuoted | .singleQuoted | .bare => false

theorem State.quote?_of_isPlain (h : q.isPlain = true) : q.quote? = none := by
  cases q <;> first | rfl | cases h

theorem isNameChar_ne (h : isNameChar c = true) : c ≠ '=' ∧ c ≠ '/' := by
  constructor <;> rintro rfl <;> cases h

theorem isKeyChar_ne (h : isKeyChar c = true) : c ≠ '=' ∧ c ≠ '/' := by
  constructor <;> rintro rfl <;> cases h

theorem isBareChar_ne (h : isBareChar c = true) : c ≠ '=' ∧ isBlank c = false := by
  refine ⟨?_, ?_⟩
  · rintro rfl
    revert h
    decide
  · simp only [isBareChar, Bool.not_eq_true', Bool.or_eq_false_iff] at h
    tauto

theorem isBlank_ne (h : isBlank c = true) : c ≠ '=' ∧ c ≠ '/' ∧ isBareChar c = false := by
  refine ⟨?_, ?_, ?_⟩
  · rintro rfl
    cases h
  · rintro rfl
    cases h
  · simp [isBareChar, h]

/-- Outside values the equals sign leads to a value, the slash to the end of the tag, and nothing into a value
without quotes. -/
theorem State.step_of_isPlain (hq : q.isPlain = true) (h : q.step c = some q') :
    q'.quote? = none ∧ q' ≠ .bare ∧ (q' = .value ↔ c = '=') ∧ (q' = .slash ↔ c = '/') := by
  have hname := @isNameChar_ne c
  have hkey := @isKeyChar_ne c
  have hblank := @isBlank_ne c
  cases q <;> cases hq
  all_goals
    simp only [step, part] at h
    repeat' split at h
  all_goals cases h <;> simp_all [quote?]

theorem State.fits_of_isPlain (hq : q.isPlain = true) (h : q.Fits r) (hstep : q.step c = some q') :
    q'.Fits (c :: r) := by
  obtain ⟨hquote, hbare, hvalue, hslash⟩ := step_of_isPlain hq hstep
  have hnone := quote?_of_isPlain hq
  have hawaits : awaitsValue r = false := by
    rw [← Bool.not_eq_true, ← h.value hnone]
    rintro rfl
    cases hq
  have hin : inValue r = false := by
    rw [← Bool.not_eq_true, ← h.bare hnone]
    rintro rfl
    cases hq
  refine ⟨fun _ => ?_, fun _ => ?_, fun _ => ?_⟩
  · simp [hvalue, awaitsValue, hawaits]
  · simp [hbare, inValue, hawaits, hin]
  · simp [hslash, inValue, hawaits, hin]

/-- In quotes the state tells nothing of what was read. -/
theorem State.fits_of_quoted (h : q.quote? ≠ none) (r : List Char) : q.Fits r :=
  ⟨fun hnone => absurd hnone h, fun hnone => absurd hnone h, fun hnone => absurd hnone h⟩

/-- A closing quote ends the value, and nothing read so far matters any more. -/
theorem State.fits_afterQuote (hc : c = '"' ∨ c = '\'') : State.afterValue.Fits (c :: r) := by
  rcases hc with rfl | rfl
  · exact ⟨fun _ => by simp [awaitsValue, isBlank], fun _ => by simp [inValue, isBareChar], fun _ => by simp⟩
  · exact ⟨fun _ => by simp [awaitsValue, isBlank], fun _ => by simp [inValue, isBareChar], fun _ => by simp⟩

theorem State.Fits.step (h : q.Fits r) (hstep : q.step c = some q') : q'.Fits (c :: r) := by
  have hblank := @isBlank_ne c
  have hbare := @isBareChar_ne c
  by_cases hq : q.isPlain = true
  · exact fits_of_isPlain hq h hstep
  · cases q with
    | value =>
      have hawaits : awaitsValue r = true := (h.value rfl).1 rfl
      simp only [step] at hstep
      repeat' split at hstep
      all_goals cases hstep
      · exact fits_of_quoted (by simp [quote?]) _
      · exact fits_of_quoted (by simp [quote?]) _
      all_goals constructor <;> simp_all [awaitsValue, inValue]
    | bare =>
      have hin : inValue r = true := (h.bare rfl).1 rfl
      have hawaits : awaitsValue r = false := by
        rw [← Bool.not_eq_true, ← h.value rfl]
        exact State.noConfusion
      simp only [step] at hstep
      repeat' split at hstep
      all_goals cases hstep
      all_goals constructor <;> simp_all [awaitsValue, inValue]
    | doubleQuoted =>
      simp only [step] at hstep
      split at hstep
      · next hc =>
        cases hstep
        exact fits_afterQuote (.inl hc)
      · cases hstep
        exact fits_of_quoted (by simp [quote?]) _
    | singleQuoted =>
      simp only [step] at hstep
      split at hstep
      · next hc =>
        cases hstep
        exact fits_afterQuote (.inr hc)
      · cases hstep
        exact fits_of_quoted (by simp [quote?]) _
    | _ => exact absurd rfl hq

/-- What the first character of a tag's rest is: its end, or the first character of its content. -/
theorem cases_of_finish (h : finish q (c :: s) = some (selfClosing, content ++ ['>'], rest)) :
    (content = [] ∧ q.ends = true ∧ selfClosing = (q == .slash)) ∨
      ∃ q' content', content = c :: content' ∧ q.step c = some q' ∧
        finish q' s = some (selfClosing, content' ++ ['>'], rest) := by
  rw [finish] at h
  split at h
  · next hc =>
    simp only [Option.some.injEq, Prod.mk.injEq] at h
    obtain ⟨hself, hread, -⟩ := h
    have hnil : [] ++ ['>'] = content ++ ['>'] := hread
    exact .inl ⟨(List.append_cancel_right hnil).symm, hc.2, hself.symm⟩
  · split at h
    · cases h
    · next q' hstep =>
      split at h
      · cases h
      · next selfClosing' read' rest' hfinish =>
        obtain ⟨content', rfl, -⟩ := splitTag_of_finish hfinish
        simp only [Option.some.injEq, Prod.mk.injEq] at h
        obtain ⟨rfl, hread, rfl⟩ := h
        have hcontent : c :: content' = content := List.append_cancel_right ((List.cons_append).trans hread)
        exact .inr ⟨q', content', hcontent.symm, hstep, hfinish⟩

/-- A tag is self-closing to the recogniser when its content ends in a slash that is not part of a value without
quotes. -/
theorem selfClosing_iff_of_finish (hq : q.Fits r) (h : finish q s = some (selfClosing, content ++ ['>'], rest)) :
    selfClosing = true ↔
      (content.reverse ++ r).head? = some '/' ∧ inValue (content.reverse ++ r) = false := by
  induction s generalizing q r content with
  | nil => cases h
  | cons c s ih =>
    rcases cases_of_finish h with ⟨rfl, hends, rfl⟩ | ⟨q', content', rfl, hstep, hfinish⟩
    · rw [beq_iff_eq]
      exact hq.slash (State.quote?_of_ends hends)
    · have hrest := ih (hq.step hstep) hfinish
      rwa [List.reverse_cons, List.append_assoc, List.singleton_append]

/-! ### The name of a tag -/

theorem isNameChar_of_isNameStart (h : isNameStart c = true) : isNameChar c = true := by
  have hascii : c.toNat < 0x80 := by
    have halpha : c.isAlpha = (c.isUpper || c.isLower) := rfl
    have hupper : c.isUpper = decide (c.val ≥ 'A'.val ∧ c.val ≤ 'Z'.val) := rfl
    have hlower : c.isLower = (decide (c.val ≥ 'a'.val) && decide (c.val ≤ 'z'.val)) := rfl
    simp only [isNameStart, halpha, hupper, hlower, Bool.or_eq_true, Bool.and_eq_true, decide_eq_true_eq,
      beq_iff_eq] at h
    rcases h with (⟨-, h⟩ | ⟨-, h⟩) | rfl
    · exact Nat.lt_of_le_of_lt (UInt32.le_iff_toNat_le.1 h) (by decide)
    · exact Nat.lt_of_le_of_lt (UInt32.le_iff_toNat_le.1 h) (by decide)
    · decide
  have hword : Unicode.isWord c = true := by
    rw [isNameStart, Bool.or_eq_true] at h
    rw [Unicode.isWord, if_pos hascii, Char.isAlphanum, Bool.or_eq_true, Bool.or_eq_true]
    exact h.imp_left .inl
  simp [isNameChar, hword]

theorem isSpace_eq_false_of_isNameChar (h : isNameChar c = true) : Xml.isSpace c = false := by
  rw [← Bool.not_eq_true]
  intro hspace
  simp only [Xml.isSpace, Bool.or_eq_true, beq_iff_eq] at hspace
  rcases hspace with ((rfl | rfl) | rfl) | rfl <;> cases h

/-- After its name a tag ends, with or without a slash, or a blank stands there. -/
theorem dropWhile_isNameChar_of_finish (h : finish .name s = some (selfClosing, content ++ ['>'], rest)) :
    content.dropWhile isNameChar = [] ∨ content.dropWhile isNameChar = ['/'] ∨
      ∃ d after, content.dropWhile isNameChar = d :: after ∧ isBlank d = true := by
  induction s generalizing content with
  | nil => cases h
  | cons c s ih =>
    rcases cases_of_finish h with ⟨rfl, -⟩ | ⟨q', content, rfl, hstep, hfinish⟩
    · exact .inl rfl
    · rw [State.step] at hstep
      cases hname : isNameChar c with
      | true =>
        rw [hname] at hstep
        cases hstep
        rw [List.dropWhile_cons_of_pos hname]
        exact ih hfinish
      | false =>
        rw [hname, if_neg Bool.false_ne_true, State.part] at hstep
        rw [List.dropWhile_cons_of_neg (by rw [hname]; exact Bool.false_ne_true)]
        cases hblank : isBlank c with
        | true => exact .inr (.inr ⟨c, content, rfl, hblank⟩)
        | false =>
          rw [hblank, if_neg Bool.false_ne_true] at hstep
          split at hstep
          · next hslash =>
            cases hstep
            -- after the slash nothing but the end is possible
            cases s with
            | nil => cases hfinish
            | cons d s =>
              rcases cases_of_finish hfinish with ⟨rfl, -⟩ | ⟨q', content, -, hstep, -⟩
              · exact .inr (.inl (by rw [hslash]))
              · cases hstep
          · cases hstep

end TagSpan

namespace Xml

def Event.elementName? : Event → Option (List Char)
  | .opening content | .empty content => some (tagName content)
  | _ => none

def Event.isClosing : Event → Bool
  | .closing _ => true
  | _ => false

def Event.isEmpty : Event → Bool
  | .empty _ => true
  | _ => false

end Xml

namespace TagSpan
variable {rest : List Char} {selfClosing : Bool}

/-- How the recogniser's view of a tag and the reader's view of its content go together. -/
structure ReadAs (t : TagSpan) (content : List Char) : Prop where
  closing : t.closing = (Xml.tagEvent content).isClosing
  /-- A slash that ends a value without quotes makes the element empty to the reader only. -/
  selfClosing : t.closing = false → t.selfClosing = ((Xml.tagEvent content).isEmpty && !endsBare content)
  /-- The reader's name goes on over white space that is none of element markup. -/
  name : t.closing = false → ((Xml.tagEvent content).elementName? = some t.name ↔
    ∀ d, (content.dropWhile isNameChar).head? = some d → isBlank d = true → Xml.isSpace d = true)

theorem tagName_of_isNameChar {name : List Char} (hname : ∀ c ∈ name, isNameChar c = true) :
    Xml.tagName name = name :=
  List.takeWhile_eq_self_iff.2 fun c hc => by rw [isSpace_eq_false_of_isNameChar (hname c hc)]; rfl

theorem tagName_append_cons {name : List Char} {d : Char} (hname : ∀ c ∈ name, isNameChar c = true)
    (after : List Char) : Xml.tagName (name ++ d :: after) = name ↔ Xml.isSpace d = true := by
  rw [Xml.tagName, List.takeWhile_append_of_pos fun c hc => by rw [isSpace_eq_false_of_isNameChar (hname c hc)]; rfl]
  cases hd : Xml.isSpace d with
  | true => simp [hd]
  | false => simp [hd]

theorem tagEvent_cons (hc : c ≠ '/') (content : List Char) : Xml.tagEvent (c :: content) =
    if (c :: content).getLast? = some '/' then .empty (c :: content).dropLast else .opening (c :: content) := by
  unfold Xml.tagEvent
  split
  · next heq => exact absurd (List.cons.inj heq).1 hc
  · rfl

theorem isNameStart_ne_slash (h : isNameStart c = true) : c ≠ '/' := by
  rintro rfl
  revert h
  decide

/-- Where the machine begins: after the first character of a name. -/
theorem State.fits_name (h : isNameStart c = true) : State.name.Fits [c] := by
  have hslash := isNameStart_ne_slash h
  have hequals : c ≠ '=' := by
    rintro rfl
    revert h
    decide
  exact ⟨fun _ => by simp [awaitsValue, hequals], fun _ => by simp [inValue, awaitsValue],
    fun _ => by simp [hslash]⟩

theorem selfClosing_eq_of_finish (hc : isNameStart c = true)
    (h : finish .name s = some (selfClosing, content ++ ['>'], rest)) :
    selfClosing = ((Xml.tagEvent (c :: content)).isEmpty && !endsBare (c :: content)) := by
  have hself := selfClosing_iff_of_finish (State.fits_name hc) h
  rw [← List.reverse_cons, List.head?_reverse] at hself
  rw [Bool.eq_iff_iff, hself, tagEvent_cons (isNameStart_ne_slash hc), endsBare]
  split
  · next hlast => simp [hlast, Xml.Event.isEmpty]
  · next hlast => simp [hlast, Xml.Event.isEmpty]

theorem elementName?_cons (hc : c ≠ '/') (content : List Char) :
    (Xml.tagEvent (c :: content)).elementName? = some (Xml.tagName
      (if (c :: content).getLast? = some '/' then (c :: content).dropLast else c :: content)) := by
  rw [tagEvent_cons hc]
  split <;> rfl

theorem elementName?_of_finish (hc : isNameStart c = true)
    (h : finish .name s = some (selfClosing, content ++ ['>'], rest)) :
    (Xml.tagEvent (c :: content)).elementName? = some (c :: content.takeWhile isNameChar) ↔
      ∀ d, ((c :: content).dropWhile isNameChar).head? = some d → isBlank d = true → Xml.isSpace d = true := by
  have hsplit : c :: content = (c :: content.takeWhile isNameChar) ++ content.dropWhile isNameChar := by
    rw [List.cons_append, List.takeWhile_append_dropWhile]
  have hname : ∀ d ∈ c :: content.takeWhile isNameChar, isNameChar d = true :=
    List.forall_mem_cons.2 ⟨isNameChar_of_isNameStart hc, fun d hd => List.all_eq_true.1 List.all_takeWhile d hd⟩
  rw [elementName?_cons (isNameStart_ne_slash hc), Option.some.injEq,
    List.dropWhile_cons_of_pos (isNameChar_of_isNameStart hc)]
  generalize c :: content.takeWhile isNameChar = name at hsplit hname ⊢
  rcases dropWhile_isNameChar_of_finish h with hafter | hafter | ⟨d, after, hafter, hblank⟩
  · have hlast : name.getLast? ≠ some '/' := by
      intro hlast
      have hslash := hname _ (List.mem_of_getLast? hlast)
      cases hslash
    rw [hsplit, hafter, List.append_nil, if_neg hlast, tagName_of_isNameChar hname]
    simp
  · rw [hsplit, hafter, if_pos List.getLast?_concat, List.dropLast_concat, tagName_of_isNameChar hname]
    have hslash : isBlank '/' = false := rfl
    simp [hslash]
  · have hinner : ∃ after', (if (c :: content).getLast? = some '/' then (c :: content).dropLast else c :: content) =
        name ++ d :: after' := by
      rw [hsplit, hafter]
      split
      · next hlast =>
        cases after with
        | nil =>
          rw [List.getLast?_concat] at hlast
          cases hlast
          cases hblank
        | cons e after => exact ⟨(e :: after).dropLast, by rw [List.dropLast_append_of_ne_nil (by simp)]; rfl⟩
      · exact ⟨after, rfl⟩
    obtain ⟨after', hinner⟩ := hinner
    rw [hinner, hafter, tagName_append_cons hname]
    simp [hblank]

theorem takeWhile_isNameChar_concat (content : List Char) :
    (content ++ ['>']).takeWhile isNameChar = content.takeWhile isNameChar := by
  have hgt : isNameChar '>' = false := by decide
  induction content with
  | nil => simp [hgt]
  | cons c content ih => rw [List.cons_append, List.takeWhile_cons, List.takeWhile_cons, ih]

theorem closing_of_named {closing : Bool} {opener : List Char} (h : named closing opener s = some t) :
    t.closing = closing := by
  cases s with
  | nil => cases h
  | cons c s =>
    rw [named] at h
    split at h
    · split at h
      · cases h
      · cases h
        rfl
    · cases h

theorem readAs_of_opening (h : named false ['<'] s = some t) :
    ∃ content, t.source = '<' :: content ++ ['>'] ∧ t.ReadAs content := by
  cases s with
  | nil => cases h
  | cons c s =>
    rw [named] at h
    split at h
    · next hc =>
      split at h
      · cases h
      · next selfClosing read rest hfinish =>
        cases h
        obtain ⟨content, rfl, -⟩ := splitTag_of_finish hfinish
        have hname : s.takeWhile isNameChar = content.takeWhile isNameChar := by
          rw [← append_of_finish hfinish, takeWhile_isNameChar_append (by simp)]
          exact takeWhile_isNameChar_concat content
        refine ⟨c :: content, rfl, ?_, fun _ => selfClosing_eq_of_finish hc hfinish, fun _ => ?_⟩
        · rw [tagEvent_cons (isNameStart_ne_slash hc)]
          split <;> rfl
        · dsimp only
          rw [hname]
          exact elementName?_of_finish hc hfinish
    · cases h

theorem readAs_of_scan? (h : scan? s = some t) :
    ∃ content, t.source = '<' :: content ++ ['>'] ∧ t.ReadAs content := by
  unfold scan? at h
  split at h
  · next s =>
    obtain ⟨c, content, -, hsource, -⟩ := isTag_of_named h
    have hclosing : t.closing = true := closing_of_named h
    refine ⟨'/' :: c :: content, hsource, hclosing, fun hopen => ?_, fun hopen => ?_⟩
    · rw [hclosing] at hopen
      cases hopen
    · rw [hclosing] at hopen
      cases hopen
  · exact readAs_of_opening h
  · cases h

end TagSpan

theorem exists_scan?_of_mem_tagsIn (h : t ∈ tagsIn s) : ∃ u, u <:+ s ∧ TagSpan.scan? u = some t := by
  fun_induction tagsIn s with
  | case1 => cases h
  | case2 c s t' hscan ih =>
    rcases List.mem_cons.1 h with rfl | h
    · exact ⟨c :: s, List.suffix_refl _, hscan⟩
    · obtain ⟨u, hu, hscan'⟩ := ih h
      have hrest : t'.rest <:+ c :: s := ⟨t'.source, TagSpan.append_of_scan? hscan⟩
      exact ⟨u, hu.trans hrest, hscan'⟩
  | case3 c s hscan ih =>
    obtain ⟨u, hu, hscan'⟩ := ih h
    exact ⟨u, hu.trans (List.suffix_cons c s), hscan'⟩

/-- The recogniser and the reader agree on every tag of a text: on closing tags always; on empty elements unless
a value without quotes ends in the slash; on names unless white space follows that is none of element markup. An
element that is empty to both opens no block and counts for nothing in one. -/
theorem readAs_of_mem_tagsIn (h : t ∈ tagsIn s) :
    ∃ content, t.source = '<' :: content ++ ['>'] ∧ Xml.interpret content = .ok (Xml.tagEvent content) ∧
      t.ReadAs content ∧
      ((Xml.tagEvent content).isEmpty = true → TagSpan.endsBare content = false →
        (∀ name, t.weight name = 0) ∧
          ∀ line, TagSpan.scan? (trimLeft line) = some t → OpenElement.leading? line = none) := by
  obtain ⟨u, -, hscan⟩ := exists_scan?_of_mem_tagsIn h
  obtain ⟨content, hsource, htag⟩ := TagSpan.isTag_of_scan? hscan
  obtain ⟨content', hsource', hread⟩ := TagSpan.readAs_of_scan? hscan
  obtain rfl : content' = content := by
    rw [hsource'] at hsource
    exact (List.cons.inj (List.append_cancel_right hsource)).2
  refine ⟨content', hsource', htag.event, hread, fun hempty hbare => ?_⟩
  have hself : t.selfClosing = true := by
    have hclosing : t.closing = false := by
      rw [hread.closing]
      cases hevent : Xml.tagEvent content' with
      | empty _ => rfl
      | _ => rw [hevent] at hempty; cases hempty
    rw [hread.selfClosing hclosing, hempty, hbare]
    rfl
  refine ⟨fun name => ?_, fun line hline => ?_⟩
  · rw [TagSpan.weight, hself, Bool.or_true, if_pos rfl]
  · rw [OpenElement.leading?, hline]
    simp [TagSpan.opens, hself]

def quotedTag : TagSpan := ⟨false, "card".toList, true, "<card id = \"=c/\"/>".toList, " b".toList⟩

theorem readAs_quotedTag :
    quotedTag ∈ tagsIn "a <card id = \"=c/\"/> b".toList ∧
      quotedTag.ReadAs "card id = \"=c/\"/".toList ∧ (∀ name, quotedTag.weight name = 0) ∧
      OpenElement.leading? "\t<card id = \"=c/\"/> b".toList = none := by
  have hmem : quotedTag ∈ tagsIn "a <card id = \"=c/\"/> b".toList := by decide +kernel
  obtain ⟨content, hsource, -, hread, hempty⟩ := readAs_of_mem_tagsIn hmem
  have hcontent : content ++ ['>'] = "card id = \"=c/\"/".toList ++ ['>'] := (List.cons.inj hsource).2.symm
  obtain rfl := List.append_cancel_right hcontent
  obtain ⟨hweight, hleading⟩ := hempty (by decide +kernel) (by decide +kernel)
  exact ⟨hmem, hread, hweight, hleading _ (by decide +kernel)⟩

/-- The slash belongs to the value for the recogniser and ends the tag for the reader. The block that the tag
opens takes in the paragraph after it. -/
theorem selfClosing_bareValue :
    (TagSpan.scan? "<a b=c/>".toList).map TagSpan.selfClosing = some false ∧
      Xml.interpret "a b=c/".toList = .ok (.empty "a b=c".toList) ∧
      paragraphs "<a b=c/>\n\nend".toList = [⟨0, "<a b=c/>\n\nend".toList⟩] := by
  refine ⟨by decide +kernel, by rfl, ?_⟩
  decide +kernel

/-- A no-break space ends the name for the recogniser and belongs to it for the reader. -/
example :
    (TagSpan.scan? "<a\u00A0b=\"c\">".toList).map TagSpan.name = some ['a'] ∧
      (Xml.tagEvent "a\u00A0b=\"c\"".toList).elementName? = some "a\u00A0b=\"c\"".toList := by
  decide +kernel

end TaggedProse
