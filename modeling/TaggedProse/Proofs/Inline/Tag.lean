import TaggedProse.Inline.Tag
import TaggedProse.Xml.Event

/-! A tag in prose is one piece of markup: the reader of elements ends it at the same `>` as the
recogniser, because both know which quote is open. -/
namespace TaggedProse

namespace TagSpan
variable {q q' : State} {c : Char} {s read rest : List Char} {selfClosing : Bool}

def State.quote? : State → Option Char
  | .doubleQuoted => some '"'
  | .singleQuoted => some '\''
  | _ => none

theorem State.quote?_of_ends (h : q.ends = true) : q.quote? = none := by
  cases q <;> simp [State.ends, State.quote?] at h ⊢

theorem State.step_doubleQuote (q : State) : q.step '"' =
    match q with
    | .value => some .doubleQuoted
    | .doubleQuoted => some .afterValue
    | .singleQuoted => some .singleQuoted
    | _ => none := by
  cases q <;> rfl

theorem State.step_singleQuote (q : State) : q.step '\'' =
    match q with
    | .value => some .singleQuoted
    | .singleQuoted => some .afterValue
    | .doubleQuoted => some .doubleQuoted
    | _ => none := by
  cases q <;> rfl

/-- Other characters leave open what is open. -/
theorem State.quote?_of_step (h : q.step c = some q') (hd : c ≠ '"') (hs : c ≠ '\'') :
    q'.quote? = q.quote? := by
  cases q <;> simp only [step, part, hd, hs, if_false] at h <;> (repeat' split at h) <;> cases h <;> rfl

theorem State.quoteAfter_of_step (h : q.step c = some q') :
    Xml.quoteAfter q.quote? c = q'.quote? := by
  by_cases hd : c = '"'
  · subst hd
    rw [step_doubleQuote] at h
    cases q <;> cases h <;> rfl
  · by_cases hs : c = '\''
    · subst hs
      rw [step_singleQuote] at h
      cases q <;> cases h <;> rfl
    · rw [quote?_of_step h hd hs]
      cases q <;> simp [Xml.quoteAfter, quote?, hd, hs]

/-- Where a value begins, a `>` is out of place. -/
theorem State.quote?_of_step_gt (h : q.step '>' = some q') (hq : q.ends = false) :
    q.quote? ≠ none := by
  cases q with
  | value => cases h
  | doubleQuoted | singleQuoted => simp [State.quote?]
  | _ => cases hq

theorem splitTag_of_finish (h : finish q s = some (selfClosing, read, rest)) :
    ∃ content, read = content ++ ['>'] ∧
      ∀ after, Xml.splitTag q.quote? (content ++ '>' :: after) = some (content, after) := by
  induction s generalizing q read with
  | nil => cases h
  | cons c s ih =>
    rw [finish] at h
    split at h
    · next hc =>
      cases h
      exact ⟨[], rfl, fun after => by simp [Xml.splitTag, State.quote?_of_ends hc.2]⟩
    · next hc =>
      split at h
      · cases h
      · next q' hstep =>
        split at h
        · cases h
        · next selfClosing' read' rest' hfinish =>
          cases h
          obtain ⟨content, rfl, hsplit⟩ := ih hfinish
          refine ⟨c :: content, rfl, fun after => ?_⟩
          have hopen : ¬(c = '>' ∧ q.quote? = none) := by
            rintro ⟨rfl, hquote⟩
            refine State.quote?_of_step_gt hstep ?_ hquote
            simpa using hc
          rw [List.cons_append, Xml.splitTag, if_neg hopen, State.quoteAfter_of_step hstep, hsplit]
          rfl

end TagSpan

namespace Xml
variable {c : Char} {s content : List Char}

def tagEvent : List Char → Event
  | '/' :: name => .closing (closingName name)
  | content =>
    if content.getLast? = some '/' then .empty content.dropLast else .opening content

/-- Between `<` and `>` the content is read as one tag, whatever follows. -/
structure IsTag (content : List Char) : Prop where
  bounds : ∀ after, bounds? (content ++ '>' :: after) = .ok (content, after)
  event : interpret content = .ok (tagEvent content)

theorem bounds?_cons (hb : c ≠ '!') (hq : c ≠ '?') (s : List Char) :
    bounds? (c :: s) = (splitTag none (c :: s)).elim (.error .unclosedTag) .ok := by
  unfold bounds?
  split
  · next heq => exact absurd (List.cons.inj heq).1 hb
  · next heq => exact absurd (List.cons.inj heq).1 hb
  · next heq => exact absurd (List.cons.inj heq).1 hb
  · next heq => exact absurd (List.cons.inj heq).1 hb
  · next heq => exact absurd (List.cons.inj heq).1 hb
  · next heq => exact absurd (List.cons.inj heq).1 hq
  · rfl

theorem interpret_cons (hb : c ≠ '!') (hq : c ≠ '?') (s : List Char) :
    interpret (c :: s) = .ok (tagEvent (c :: s)) := by
  unfold interpret
  split
  · next heq => exact absurd (List.cons.inj heq).1 hb
  · next heq => exact absurd (List.cons.inj heq).1 hb
  · next heq => exact absurd (List.cons.inj heq).1 hb
  · next heq => exact absurd (List.cons.inj heq).1 hb
  · next heq => exact absurd (List.cons.inj heq).1 hq
  · next heq => exact absurd (List.cons.inj heq).1 hq
  · next name heq => rw [heq]; rfl
  · next hslash =>
    have htag : tagEvent (c :: s) =
        if (c :: s).getLast? = some '/' then .empty (c :: s).dropLast else .opening (c :: s) := by
      unfold tagEvent
      split
      · next name heq => exact absurd heq (hslash name)
      · rfl
    rw [htag]
    split <;> rfl

theorem isTag_cons (hb : c ≠ '!') (hq : c ≠ '?')
    (hs : ∀ after, splitTag none (c :: s ++ '>' :: after) = some (c :: s, after)) : IsTag (c :: s) := by
  refine ⟨fun after => ?_, interpret_cons hb hq s⟩
  rw [List.cons_append, bounds?_cons hb hq, ← List.cons_append, hs]
  rfl

end Xml

namespace TagSpan
variable {c : Char} {s opener : List Char} {closing : Bool} {t : TagSpan}

/-- A name does not begin with a character that markup of another kind begins with. -/
theorem isNameStart_ne (h : isNameStart c = true) :
    c ≠ '!' ∧ c ≠ '?' ∧ c ≠ '"' ∧ c ≠ '\'' ∧ c ≠ '>' := by
  refine ⟨?_, ?_, ?_, ?_, ?_⟩ <;> rintro rfl <;> revert h <;> decide

theorem isTag_of_named (h : named closing opener s = some t) :
    ∃ c content, isNameStart c = true ∧ t.source = opener ++ c :: content ++ ['>'] ∧
      ∀ after, Xml.splitTag none (c :: content ++ '>' :: after) = some (c :: content, after) := by
  cases s with
  | nil => cases h
  | cons c s =>
    rw [named] at h
    split at h
    · next hc =>
      split at h
      · cases h
      · next selfClosing read rest hfinish =>
        cases h
        obtain ⟨content, rfl, hsplit⟩ := splitTag_of_finish hfinish
        refine ⟨c, content, hc, by simp, fun after => ?_⟩
        obtain ⟨-, -, hd, hs, hgt⟩ := isNameStart_ne hc
        have hquote : Xml.quoteAfter none c = State.name.quote? := by
          simp [Xml.quoteAfter, hd, hs, State.quote?]
        rw [List.cons_append, Xml.splitTag, if_neg (fun h => hgt h.1), hquote, hsplit]
        rfl
    · cases h

/-- A tag in prose is a tag to the reader of elements. -/
theorem isTag_of_scan? (h : scan? s = some t) :
    ∃ content, t.source = '<' :: content ++ ['>'] ∧ Xml.IsTag content := by
  unfold scan? at h
  split at h
  · obtain ⟨c, content, hc, hsource, hsplit⟩ := isTag_of_named h
    refine ⟨'/' :: c :: content, hsource, Xml.isTag_cons (by decide) (by decide) fun after => ?_⟩
    have hquote : Xml.quoteAfter none '/' = none := rfl
    rw [List.cons_append, Xml.splitTag, if_neg (by decide), hquote, hsplit]
    rfl
  · obtain ⟨c, content, hc, hsource, hsplit⟩ := isTag_of_named h
    obtain ⟨hb, hq, -⟩ := isNameStart_ne hc
    exact ⟨c :: content, hsource, Xml.isTag_cons hb hq hsplit⟩
  · cases h

end TagSpan

end TaggedProse
