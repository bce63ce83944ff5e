import Mathlib.Computability.Language
import Mathlib.Tactic.Abel
import TaggedProse.Inline.Rule
import TaggedProse.Proofs.Inline.Kinds
import TaggedProse.Proofs.Inline.Spacing

/-! The grammar of tags. To each state of the recogniser belongs the language of what may still follow up to the end
of a tag; the machine's step is the derivative of that language, so it takes exactly the words of the grammar, and a
text begins with one at most. -/
open scoped Computability

namespace TaggedProse
variable {s w : List Char} {c : Char}

/-! ### The grammar -/

namespace TagGrammar
open TagSpan

def char (p : Char → Bool) : Language Char := {w | ∃ c, p c = true ∧ w = [c]}

def literal (c : Char) : Language Char := char (· == c)

def blanks : Language Char := (char isBlank)∗

def name : Language Char := char isNameStart * (char isNameChar)∗

def key : Language Char := char isKeyChar * (char isKeyChar)∗

def quoted (quote : Char) : Language Char := literal quote * (char (· != quote))∗ * literal quote

def bare : Language Char := char isBareChar * (char isBareChar)∗

def value : Language Char := quoted '"' + quoted '\'' + bare

def assignment : Language Char := blanks * literal '=' * blanks * value

def attr : Language Char := char isBlank * blanks * key * (1 + assignment)

def ending : Language Char := (1 + literal '/') * literal '>'

def attributes : Language Char := attr∗ * blanks * ending

def tag : Language Char := literal '<' * (1 + literal '/') * name * attributes

variable {p : Char → Bool} {l : Language Char} {q : State} {read rest opener : List Char} {closing : Bool}

theorem mem_char : w ∈ char p ↔ ∃ c, p c = true ∧ w = [c] := Iff.rfl

@[simp] theorem cons_mem_char_mul : c :: w ∈ char p * l ↔ p c = true ∧ w ∈ l := by
  rw [Language.mem_mul]
  constructor
  · rintro ⟨_, ⟨d, hd, rfl⟩, v, hv, hw⟩
    obtain ⟨rfl, rfl⟩ := List.cons.inj hw
    exact ⟨hd, hv⟩
  · rintro ⟨hc, hw⟩
    exact ⟨[c], ⟨c, hc, rfl⟩, w, hw, rfl⟩

@[simp] theorem nil_notMem_char_mul : [] ∉ char p * l := by
  rw [Language.mem_mul]
  rintro ⟨_, ⟨d, -, rfl⟩, v, -, hw⟩
  cases hw

@[simp] theorem cons_mem_literal_mul {d : Char} : c :: w ∈ literal d * l ↔ c = d ∧ w ∈ l := by
  rw [literal, cons_mem_char_mul, beq_iff_eq]

theorem mem_literal_mul {d : Char} : w ∈ literal d * l ↔ ∃ v ∈ l, w = d :: v := by
  cases w with
  | nil => simp [literal]
  | cons c w => simp [and_comm]

@[simp] theorem nil_notMem_literal_mul {d : Char} : [] ∉ literal d * l := nil_notMem_char_mul

theorem mem_literal {d : Char} : w ∈ literal d ↔ w = [d] := by
  simp [literal, mem_char]

/-- A repetition in front of a language is over, or it takes one more character. -/
theorem kstar_mul (p : Char → Bool) (l : Language Char) : (char p)∗ * l = l + char p * ((char p)∗ * l) := by
  conv_lhs => rw [← Language.one_add_self_mul_kstar_eq_kstar, add_mul, one_mul, mul_assoc]

theorem ending_eq : ending = literal '>' + literal '/' * literal '>' := by
  rw [ending, add_mul, one_mul]

/-! ### The languages of the machine's states -/

/-- What may follow up to the end of a tag from where the machine stands. -/
def follow : State → Language Char
  | .name => (char isNameChar)∗ * attributes
  | .gap => blanks * (key * (1 + assignment) * attributes + ending)
  | .key => (char isKeyChar)∗ * ((1 + assignment) * attributes)
  | .afterKey => blanks * (key * (1 + assignment) * attributes + ending) + assignment * attributes
  | .value => blanks * (value * attributes)
  | .doubleQuoted => (char (· != '"'))∗ * (literal '"' * attributes)
  | .singleQuoted => (char (· != '\''))∗ * (literal '\'' * attributes)
  | .bare => (char isBareChar)∗ * attributes
  | .afterValue => attributes
  | .slash => literal '>'

/-- Behind its name or a value a tag ends, or a blank stands there. -/
theorem attributes_eq : attributes = ending + char isBlank * follow .gap := by
  calc attributes
      = (1 + attr * attr∗) * blanks * ending := by
        rw [Language.one_add_self_mul_kstar_eq_kstar, attributes]
    _ = blanks * ending + attr * attributes := by
        simp only [attributes, add_mul, one_mul, mul_assoc]
    _ = ending + char isBlank * (blanks * ending) + attr * attributes := by
        rw [blanks, ← kstar_mul]
    _ = ending + char isBlank * follow .gap := by
        simp only [attr, follow, mul_add, add_mul, mul_assoc]
        abel

theorem follow_name : follow .name =
    ending + char isBlank * follow .gap + char isNameChar * follow .name := by
  rw [← attributes_eq]
  exact kstar_mul _ _

theorem follow_gap : follow .gap =
    ending + char isBlank * follow .gap + char isKeyChar * follow .key := by
  calc follow .gap
      = (key * (1 + assignment) * attributes + ending) + char isBlank * follow .gap := kstar_mul _ _
    _ = ending + char isBlank * follow .gap + char isKeyChar * follow .key := by
        simp only [key, follow, mul_assoc]
        abel

/-- An equals sign stands here, or behind blanks. -/
theorem assignment_mul : assignment * attributes =
    literal '=' * follow .value + char isBlank * (assignment * attributes) := by
  have h := kstar_mul isBlank (literal '=' * follow .value)
  simpa only [assignment, follow, blanks, mul_assoc] using h

theorem follow_afterKey : follow .afterKey =
    ending + char isKeyChar * follow .key + literal '=' * follow .value + char isBlank * follow .afterKey := by
  calc follow .afterKey
      = follow .gap + assignment * attributes := rfl
    _ = ending + char isBlank * follow .gap + char isKeyChar * follow .key +
          (literal '=' * follow .value + char isBlank * (assignment * attributes)) := by
        rw [← follow_gap, ← assignment_mul]
    _ = ending + char isKeyChar * follow .key + literal '=' * follow .value +
          char isBlank * (follow .gap + assignment * attributes) := by
        rw [mul_add]
        abel
    _ = _ := rfl

theorem follow_key : follow .key =
    ending + char isKeyChar * follow .key + literal '=' * follow .value + char isBlank * follow .afterKey := by
  calc follow .key
      = (1 + assignment) * attributes + char isKeyChar * follow .key := kstar_mul _ _
    _ = attributes + assignment * attributes + char isKeyChar * follow .key := by
        rw [add_mul, one_mul]
    _ = ending + char isBlank * follow .gap +
          (literal '=' * follow .value + char isBlank * (assignment * attributes)) +
          char isKeyChar * follow .key := by
        rw [← attributes_eq, ← assignment_mul]
    _ = ending + char isKeyChar * follow .key + literal '=' * follow .value +
          char isBlank * (follow .gap + assignment * attributes) := by
        rw [mul_add]
        abel
    _ = _ := rfl

theorem follow_value : follow .value =
    literal '"' * follow .doubleQuoted + literal '\'' * follow .singleQuoted +
      char isBareChar * follow .bare + char isBlank * follow .value := by
  calc follow .value
      = value * attributes + char isBlank * follow .value := kstar_mul _ _
    _ = _ := by simp only [value, quoted, bare, follow, add_mul, mul_assoc]

theorem follow_doubleQuoted : follow .doubleQuoted =
    literal '"' * follow .afterValue + char (· != '"') * follow .doubleQuoted := kstar_mul _ _

theorem follow_singleQuoted : follow .singleQuoted =
    literal '\'' * follow .afterValue + char (· != '\'') * follow .singleQuoted := kstar_mul _ _

theorem follow_bare : follow .bare =
    ending + char isBlank * follow .gap + char isBareChar * follow .bare := by
  rw [← attributes_eq]
  exact kstar_mul _ _

/-- The one place where the grammar leaves a choice: a slash behind a value without quotes may belong to it. -/
theorem mem_follow_bare_of_slash (h : w ∈ follow .slash) : w ∈ follow .bare := by
  have hending : w ∈ ending := by
    rw [ending_eq]
    exact (Language.mem_add _ _ _).2 (.inl h)
  rw [follow_bare, Language.mem_add, Language.mem_add]
  exact .inl (.inl hending)

/-! ### The step is the derivative -/

theorem cons_mem_ending : c :: w ∈ ending ↔ c = '>' ∧ w = [] ∨ c = '/' ∧ w ∈ follow .slash := by
  rw [ending_eq, Language.mem_add, mem_literal, cons_mem_literal_mul]
  simp [follow]

theorem isBlank_ne_quote (h : isBlank c = true) : c ≠ '"' ∧ c ≠ '\'' := by
  constructor <;> rintro rfl <;> cases h

theorem isKeyChar_eq_false_of_isBlank (h : isBlank c = true) : isKeyChar c = false := by
  simp [isKeyChar, h]

theorem isBareChar_ne_delimiter (h : isBareChar c = true) : c ≠ '>' ∧ c ≠ '"' ∧ c ≠ '\'' := by
  simp only [isBareChar, Bool.not_eq_true', Bool.or_eq_false_iff, beq_eq_false_iff_ne] at h
  tauto

/-- What follows after a character is what follows in the state that the character leads to. -/
theorem cons_mem_follow : c :: w ∈ follow q ↔
    (c = '>' ∧ q.ends = true) ∧ w = [] ∨ ∃ q', q.step c = some q' ∧ w ∈ follow q' := by
  have hgt : isNameChar '>' = false ∧ isKeyChar '>' = false := by decide
  have hname := @isNameChar_ne c
  have hkey := @isKeyChar_ne c
  have hbare := @isBareChar_ne_delimiter c
  have hbareEquals := @isBareChar_ne c
  have hblank := @isBlank_ne c
  have hblankGt := @isBlank_ne_gt c
  have hblankQuote := @isBlank_ne_quote c
  have hblankName := @isNameChar_eq_false_of_isBlank c
  have hblankKey := @isKeyChar_eq_false_of_isBlank c
  cases q with
  | name =>
    rw [follow_name]
    simp only [Language.mem_add, cons_mem_ending, cons_mem_char_mul, State.step, State.part, State.ends]
    grind
  | gap =>
    rw [follow_gap]
    simp only [Language.mem_add, cons_mem_ending, cons_mem_char_mul, State.step, State.part, State.ends]
    grind
  | key =>
    rw [follow_key]
    simp only [Language.mem_add, cons_mem_ending, cons_mem_char_mul, cons_mem_literal_mul, State.step, State.part,
      State.ends]
    grind
  | afterKey =>
    rw [follow_afterKey]
    simp only [Language.mem_add, cons_mem_ending, cons_mem_char_mul, cons_mem_literal_mul, State.step, State.part,
      State.ends]
    grind
  | value =>
    rw [follow_value]
    simp only [Language.mem_add, cons_mem_char_mul, cons_mem_literal_mul, State.step, State.ends]
    grind
  | doubleQuoted =>
    rw [follow_doubleQuoted]
    simp only [Language.mem_add, cons_mem_char_mul, cons_mem_literal_mul, State.step, State.ends]
    grind
  | singleQuoted =>
    rw [follow_singleQuoted]
    simp only [Language.mem_add, cons_mem_char_mul, cons_mem_literal_mul, State.step, State.ends]
    grind
  | bare =>
    have hslash : isBareChar '/' = true := by decide
    have hle : w ∈ follow .slash → w ∈ follow .bare := mem_follow_bare_of_slash
    rw [follow_bare]
    simp only [Language.mem_add, cons_mem_ending, cons_mem_char_mul, State.step, State.ends]
    grind
  | afterValue =>
    rw [follow, attributes_eq]
    simp only [Language.mem_add, cons_mem_ending, cons_mem_char_mul, State.step, State.part, State.ends]
    grind
  | slash => simp [follow, mem_literal, State.step, State.ends]

theorem nil_notMem_follow : [] ∉ follow q := by
  have hending : [] ∉ ending := by
    rw [ending_eq, Language.mem_add, mem_literal]
    simp
  cases q with
  | slash => simp [follow, mem_literal]
  | _ =>
    first
      | rw [follow_name] | rw [follow_gap] | rw [follow_key] | rw [follow_afterKey] | rw [follow_value]
      | rw [follow_doubleQuoted] | rw [follow_singleQuoted] | rw [follow_bare] | rw [follow, attributes_eq]
    simp only [Language.mem_add, hending, nil_notMem_char_mul, nil_notMem_literal_mul, or_self, not_false_eq_true]

/-- A bracket that ends the tag has no other reading. -/
theorem step_gt_of_ends (h : q.ends = true) : q.step '>' = none := by
  cases q with
  | value | doubleQuoted | singleQuoted => cases h
  | _ => decide +kernel

/-! ### Words of the grammar -/

/-- From any state the machine reads exactly the words of that state's language. -/
theorem exists_finish_iff :
    (∃ selfClosing, finish q s = some (selfClosing, read, rest)) ↔ read ∈ follow q ∧ read ++ rest = s := by
  constructor
  · rintro ⟨selfClosing, h⟩
    refine ⟨?_, append_of_finish h⟩
    induction s generalizing q read selfClosing with
    | nil => cases h
    | cons c s ih =>
      rw [finish] at h
      split at h
      · next hends =>
        cases h
        exact cons_mem_follow.2 (.inl ⟨⟨rfl, hends.2⟩, rfl⟩)
      · split at h
        · cases h
        · next q' hstep =>
          split at h
          · cases h
          · next hfinish =>
            cases h
            exact cons_mem_follow.2 (.inr ⟨q', hstep, ih _ hfinish⟩)
  · rintro ⟨h, rfl⟩
    induction read generalizing q with
    | nil => exact absurd h nil_notMem_follow
    | cons c read ih =>
      rw [List.cons_append, finish]
      rcases cons_mem_follow.1 h with ⟨hends, rfl⟩ | ⟨q', hstep, hread⟩
      · rw [if_pos hends, hends.1]
        exact ⟨_, rfl⟩
      · have hgoes : ¬(c = '>' ∧ q.ends = true) := by
          rintro ⟨rfl, hends⟩
          rw [step_gt_of_ends hends] at hstep
          cases hstep
        obtain ⟨selfClosing, hfinish⟩ := ih hread
        rw [if_neg hgoes, hstep]
        dsimp only
        rw [hfinish]
        exact ⟨selfClosing, rfl⟩

def body : Language Char := name * attributes

theorem body_eq : body = char isNameStart * follow .name := by
  simp only [body, name, follow, mul_assoc]

theorem tag_eq : tag = literal '<' * (body + literal '/' * body) := by
  simp only [tag, body, mul_assoc, add_mul, one_mul, mul_add]

theorem exists_of_mem_body (h : w ∈ body) : ∃ c v, w = c :: v ∧ isNameStart c = true ∧ v ∈ follow .name := by
  rw [body_eq] at h
  cases w with
  | nil => exact absurd h nil_notMem_char_mul
  | cons c v => exact ⟨c, v, rfl, cons_mem_char_mul.1 h⟩

theorem exists_named_iff : (∃ t, named closing opener s = some t ∧ t.source = w ∧ t.rest = rest) ↔
    ∃ v ∈ body, w = opener ++ v ∧ v ++ rest = s := by
  constructor
  · rintro ⟨t, h, rfl, rfl⟩
    cases s with
    | nil => cases h
    | cons c s =>
      rw [named] at h
      split at h
      · next hc =>
        split at h
        · cases h
        · next read rest hfinish =>
          cases h
          obtain ⟨hread, rfl⟩ := exists_finish_iff.1 ⟨_, hfinish⟩
          refine ⟨c :: read, ?_, rfl, rfl⟩
          rw [body_eq]
          exact cons_mem_char_mul.2 ⟨hc, hread⟩
      · cases h
  · rintro ⟨v, hv, rfl, rfl⟩
    obtain ⟨c, v, rfl, hc, hv⟩ := exists_of_mem_body hv
    obtain ⟨selfClosing, hfinish⟩ := exists_finish_iff.2 ⟨hv, rfl⟩
    rw [List.cons_append, named, if_pos hc, hfinish]
    exact ⟨_, rfl, rfl, rfl⟩

theorem mem_tag_iff : w ∈ tag ↔ (∃ v ∈ body, w = ['<'] ++ v) ∨ ∃ v ∈ body, w = ['<', '/'] ++ v := by
  rw [tag_eq, mem_literal_mul]
  simp only [Language.mem_add, mem_literal_mul]
  constructor
  · rintro ⟨_, hv | ⟨v, hv, rfl⟩, rfl⟩
    · exact .inl ⟨_, hv, rfl⟩
    · exact .inr ⟨v, hv, rfl⟩
  · rintro (⟨v, hv, rfl⟩ | ⟨v, hv, rfl⟩)
    · exact ⟨v, .inl hv, rfl⟩
    · exact ⟨'/' :: v, .inr ⟨v, hv, rfl⟩, rfl⟩

/-- The recogniser finds a tag exactly where a word of the grammar stands, and takes that word. -/
theorem exists_scan?_iff :
    (∃ t, scan? s = some t ∧ t.source = w ∧ t.rest = rest) ↔ w ∈ tag ∧ w ++ rest = s := by
  rw [mem_tag_iff]
  constructor
  · rintro ⟨t, h, hsource, hrest⟩
    unfold scan? at h
    split at h
    · obtain ⟨v, hv, rfl, rfl⟩ := exists_named_iff.1 ⟨t, h, hsource, hrest⟩
      exact ⟨.inr ⟨v, hv, rfl⟩, rfl⟩
    · obtain ⟨v, hv, rfl, rfl⟩ := exists_named_iff.1 ⟨t, h, hsource, hrest⟩
      exact ⟨.inl ⟨v, hv, rfl⟩, rfl⟩
    · cases h
  · rintro ⟨⟨v, hv, rfl⟩ | ⟨v, hv, rfl⟩, rfl⟩
    · obtain ⟨t, hnamed, hsource, hrest⟩ := exists_named_iff.2 ⟨v, hv, rfl, rfl⟩
      exact ⟨t, scan?_of_named hnamed, hsource, hrest⟩
    · exact exists_named_iff.2 ⟨v, hv, rfl, rfl⟩

theorem scan_tag_iff {m : Match} : Rule.tag.scan s = some m ↔
    m.source ∈ tag ∧ m.token = .markup m.source ∧ m.source ++ m.rest = s := by
  have hmatch := @exists_scan?_iff s m.source m.rest
  rw [Rule.scan, scanTag, Option.map_eq_some_iff]
  constructor
  · rintro ⟨t, h, rfl⟩
    obtain ⟨htag, happend⟩ := hmatch.1 ⟨t, h, rfl, rfl⟩
    exact ⟨htag, rfl, happend⟩
  · rintro ⟨htag, htoken, happend⟩
    obtain ⟨t, h, hsource, hrest⟩ := hmatch.2 ⟨htag, happend⟩
    refine ⟨t, h, ?_⟩
    rw [hsource, hrest, ← htoken]

/-- The tag rule takes exactly the words of the grammar, and no text begins with two of them. -/
theorem scan_tag_unambiguous (s : List Char) :
    (∀ m : Match, Rule.tag.scan s = some m ↔
        m.source ∈ tag ∧ m.token = .markup m.source ∧ m.source ++ m.rest = s) ∧
      ∀ w ∈ tag, ∀ w' ∈ tag, w <+: s → w' <+: s → w = w' := by
  refine ⟨fun m => scan_tag_iff, ?_⟩
  rintro w hw w' hw' ⟨rest, hs⟩ ⟨rest', hs'⟩
  have hscan : Rule.tag.scan s = some ⟨.markup w, w, rest⟩ := scan_tag_iff.2 ⟨hw, rfl, hs⟩
  have hscan' : Rule.tag.scan s = some ⟨.markup w', w', rest'⟩ := scan_tag_iff.2 ⟨hw', rfl, hs'⟩
  rw [hscan] at hscan'
  exact (Match.mk.inj (Option.some.inj hscan')).2.1

/-- The bracket in quotes ends nothing, and the slash ends a value. -/
theorem scan_quotedBracket :
    Rule.tag.scan "<a b = '>' c=/>/>".toList =
        some ⟨.markup "<a b = '>' c=/>".toList, "<a b = '>' c=/>".toList, "/>".toList⟩ ∧
      ∀ w ∈ tag, w <+: "<a b = '>' c=/>/>".toList → w = "<a b = '>' c=/>".toList := by
  obtain ⟨hscan, hunique⟩ := scan_tag_unambiguous "<a b = '>' c=/>/>".toList
  have hfound : Rule.tag.scan "<a b = '>' c=/>/>".toList =
      some ⟨.markup "<a b = '>' c=/>".toList, "<a b = '>' c=/>".toList, "/>".toList⟩ := by decide +kernel
  obtain ⟨htag, -, happend⟩ := (hscan _).1 hfound
  exact ⟨hfound, fun w hw hprefix => hunique w hw _ htag hprefix ⟨_, happend⟩⟩

end TagGrammar

end TaggedProse
