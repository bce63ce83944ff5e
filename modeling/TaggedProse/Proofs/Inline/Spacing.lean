import Mathlib.Data.List.TakeWhile
import TaggedProse.Paragraph.Basic
import TaggedProse.Proofs.Inline.TagsIn
import TaggedProse.Proofs.Text.Trimming
import TaggedProse.Proofs.Text.Words

/-! Blanks next to brackets. Behind a bracket or a blank, and in front of a bracket, it makes no difference to the
recogniser of tags how many blanks there are: either no tag goes on there, or it goes on through all of them. -/
namespace TaggedProse
variable {s z w v : List Char} {c : Char} {t : TagSpan} {name : List Char}

namespace TagSpan
variable {q q' : State} {opener rest : List Char} {closing selfClosing : Bool}

/-- Behind `z` or in front of `w` stands a bracket, or `z` ends in a blank. -/
def Borders (z w : List Char) : Prop :=
  (∃ c, z.getLast? = some c ∧ (c = '>' ∨ isBlank c = true)) ∨ w.head? = some '<'

theorem Borders.of_suffix {z' : List Char} (h : Borders z w) (hne : z' ≠ []) (hz : z' <:+ z) : Borders z' w := by
  obtain ⟨front, rfl⟩ := hz
  refine h.imp_left ?_
  rintro ⟨c, hlast, hc⟩
  have hd := List.getLast?_eq_some_getLast hne
  rw [List.getLast?_append, hd] at hlast
  cases hlast
  exact ⟨_, hd, hc⟩

/-! ### The machine on blanks -/

theorem isBlank_ne_gt (h : isBlank c = true) : c ≠ '>' := by
  rintro rfl
  cases h

theorem isNameChar_eq_false_of_isBlank (h : isBlank c = true) : isNameChar c = false := by
  have hmarks : c ≠ ':' ∧ c ≠ '.' ∧ c ≠ '-' := by
    refine ⟨?_, ?_, ?_⟩ <;> rintro rfl <;> cases h
  simp [isNameChar, isWord_eq_false_of_isBlank h, hmarks]

theorem isNameStart_eq_false_of_isBlank (h : isBlank c = true) : isNameStart c = false :=
  forall_isBlank (fun c => isNameStart c = false) (by decide) h

def State.Absorbs (q : State) : Prop := ∀ c, isBlank c = true → q.step c = some q

theorem State.absorbs_of_quote? (h : q.quote? ≠ none) : q.Absorbs := by
  intro c hc
  have hquotes : c ≠ '"' ∧ c ≠ '\'' := by
    constructor <;> rintro rfl <;> cases hc
  cases q with
  | doubleQuoted => simp [step, hquotes]
  | singleQuoted => simp [step, hquotes]
  | _ => exact absurd rfl h

/-- After one blank the machine takes any number of them. -/
theorem State.absorbs_of_step (hc : isBlank c = true) (h : q.step c = some q') : q'.Absorbs := by
  have hplain : ∀ d, isBlank d = true → d ≠ '"' ∧ d ≠ '\'' ∧ d ≠ '=' := by
    intro d hd
    refine ⟨?_, ?_, ?_⟩ <;> rintro rfl <;> cases hd
  by_cases hquote : q.quote? = none
  · obtain ⟨hdouble, hsingle, hequals⟩ := hplain c hc
    have hname := isNameChar_eq_false_of_isBlank hc
    have hstates : q' = .gap ∨ q' = .afterKey ∨ q' = .value := by
      cases q with
      | doubleQuoted | singleQuoted => cases hquote
      | _ => simp_all [step, part]
    intro d hd
    obtain ⟨hdouble', hsingle', hequals'⟩ := hplain d hd
    rcases hstates with rfl | rfl | rfl
    · simp [step, part, hd]
    · simp [step, part, hd, hequals']
    · simp [step, hd, hdouble', hsingle']
  · have hsame := absorbs_of_quote? hquote c hc
    rw [h] at hsame
    cases hsame
    exact absorbs_of_quote? hquote

theorem finish_blanks (hq : q.Absorbs) (hv : allBlank v = true) (s : List Char) :
    finish q (v ++ s) = (finish q s).map fun (selfClosing, read, rest) => (selfClosing, v ++ read, rest) := by
  induction v with
  | nil => simp
  | cons c v ih =>
    obtain ⟨hc, hv⟩ := Bool.and_eq_true_iff.1 hv
    rw [List.cons_append, finish, if_neg fun h => isBlank_ne_gt hc h.1, hq c hc]
    dsimp only
    rw [ih hv]
    cases finish q s <;> rfl

/-- Outside quotes no tag goes on at a bracket that opens another. -/
theorem finish_blanks_lt (hq : q.quote? = none) (hv : allBlank v = true) (s : List Char) :
    finish q (v ++ '<' :: s) = none := by
  induction v generalizing q with
  | nil =>
    have hstep : q.step '<' = none := by
      cases q with
      | doubleQuoted | singleQuoted => cases hq
      | _ => rfl
    rw [List.nil_append, finish, if_neg fun h => absurd h.1 (by decide), hstep]
  | cons c v ih =>
    obtain ⟨hc, hv⟩ := Bool.and_eq_true_iff.1 hv
    rw [List.cons_append, finish, if_neg fun h => isBlank_ne_gt hc h.1]
    cases hstep : q.step c with
    | none => rfl
    | some q' =>
      have hquote : q'.quote? = none := by
        rw [← hq]
        refine State.quote?_of_step hstep ?_ ?_ <;> rintro rfl <;> cases hc
      dsimp only
      rw [ih hquote hv]

/-! ### The machine on what stands before the blanks -/

/-- Where the machine stands after some characters, if it gets there and none of them ends the tag. -/
def State.after? (q : State) : List Char → Option State
  | [] => some q
  | c :: s => if c = '>' ∧ q.ends then none else (q.step c).bind (·.after? s)

theorem State.after?_concat (h : q.after? (z ++ [c]) = some q') :
    ∃ q₀ : State, ¬(c = '>' ∧ q₀.ends = true) ∧ q₀.step c = some q' := by
  induction z generalizing q with
  | nil =>
    rw [List.nil_append, after?] at h
    split at h
    · cases h
    · next hc =>
      obtain ⟨q₁, hstep, hq₁⟩ := Option.bind_eq_some_iff.1 h
      cases hq₁
      exact ⟨q, hc, hstep⟩
  | cons d z ih =>
    rw [List.cons_append, after?] at h
    split at h
    · cases h
    · obtain ⟨q₁, -, hq₁⟩ := Option.bind_eq_some_iff.1 h
      exact ih hq₁

theorem finish_append_of_none (h : finish q z = none) (s : List Char) :
    finish q (z ++ s) = (q.after? z).bind fun q' =>
      (finish q' s).map fun (selfClosing, read, rest) => (selfClosing, z ++ read, rest) := by
  induction z generalizing q with
  | nil => cases hs : finish q s <;> simp [State.after?, hs]
  | cons c z ih =>
    rw [finish] at h
    rw [List.cons_append, finish, State.after?]
    split at h
    · cases h
    · next hc =>
      rw [if_neg hc, if_neg hc]
      cases hstep : q.step c with
      | none => rfl
      | some q' =>
        rw [hstep] at h
        dsimp only at h
        have hrest : finish q' z = none := by
          cases hz : finish q' z with
          | none => rfl
          | some found => rw [hz] at h; cases h
        dsimp only [Option.bind_some]
        rw [ih hrest]
        cases q'.after? z with
        | none => rfl
        | some q'' => cases hs : finish q'' s <;> simp [hs]

/-- At a border a tag either ends before it, or what comes of it does not depend on the blanks there. -/
theorem exists_finish_spaced (hb : Borders z w) (h : finish q z = none) : ∃ found, ∀ v, allBlank v = true →
    finish q (z ++ (v ++ w)) =
      Option.map (fun (selfClosing, read, rest) => (selfClosing, z ++ (v ++ read), rest)) found := by
  simp only [finish_append_of_none h]
  cases hafter : q.after? z with
  | none => exact ⟨none, fun _ _ => rfl⟩
  | some q' =>
    have hcases : q'.Absorbs ∨ w.head? = some '<' ∧ q'.quote? = none := by
      rcases hb with ⟨c, hlast, hc⟩ | hw
      · obtain ⟨z, rfl⟩ := List.getLast?_eq_some_iff.1 hlast
        obtain ⟨q₀, hgoes, hstep⟩ := State.after?_concat hafter
        rcases hc with rfl | hc
        · -- only in quotes the bracket does not end the tag
          have hquote : q₀.quote? ≠ none := by
            refine State.quote?_of_step_gt hstep ?_
            simpa using hgoes
          refine .inl (State.absorbs_of_quote? ?_)
          rwa [State.quote?_of_step hstep (by decide) (by decide)]
        · exact .inl (State.absorbs_of_step hc hstep)
      · by_cases hquote : q'.quote? = none
        · exact .inr ⟨hw, hquote⟩
        · exact .inl (State.absorbs_of_quote? hquote)
    rcases hcases with habsorbs | ⟨hw, hquote⟩
    · refine ⟨finish q' w, fun v hv => ?_⟩
      rw [Option.bind_some, finish_blanks habsorbs hv]
      cases finish q' w <;> rfl
    · obtain ⟨w, rfl⟩ := List.head?_eq_some_iff.1 hw
      refine ⟨none, fun v hv => ?_⟩
      rw [Option.bind_some, finish_blanks_lt hquote hv]
      rfl

/-! ### Tags -/

def behind (front : List Char) (t : TagSpan) : TagSpan := { t with source := front ++ t.source }

/-- A name that goes up to an opening bracket is that of no tag. -/
theorem finish_name_lt (h : ∀ c ∈ s, isNameChar c = true) (rest : List Char) :
    finish .name (s ++ '<' :: rest) = none := by
  induction s with
  | nil => exact finish_blanks_lt rfl rfl rest
  | cons c s ih =>
    obtain ⟨hc, hs⟩ := List.forall_mem_cons.1 h
    have hgt : c ≠ '>' := by
      rintro rfl
      revert hc
      decide
    rw [List.cons_append, finish, if_neg fun h => hgt h.1, State.step, if_pos hc]
    dsimp only
    rw [ih hs]

theorem takeWhile_append_of_exists {p : Char → Bool} (h : ∃ c ∈ s, p c = false) (u : List Char) :
    (s ++ u).takeWhile p = s.takeWhile p := by
  obtain ⟨c, hc, hp⟩ := h
  rw [List.takeWhile_append, if_neg]
  intro hlength
  have hall : s.takeWhile p = s := (List.takeWhile_prefix p).eq_of_length hlength
  have htrue := List.all_eq_true.1 (List.all_takeWhile (p := p) (l := s)) c (by rwa [hall])
  rw [hp] at htrue
  cases htrue

/-- The first character of a name is no border. -/
theorem Borders.of_nameStart (hb : Borders (c :: s) w) (hc : isNameStart c = true) : Borders s w := by
  by_cases hs : s = []
  · refine hb.imp_left ?_
    rintro ⟨d, hlast, hd⟩
    rw [hs] at hlast
    cases hlast
    rcases hd with rfl | hd
    · cases hc
    · have hblank : isBlank c = true := hd
      rw [isNameStart_eq_false_of_isBlank hblank] at hc
      cases hc
  · exact hb.of_suffix hs (List.suffix_cons c s)

/-- The name of a tag does not go on through a border. -/
theorem exists_not_isNameChar (hb : Borders s w) (h : finish .name (s ++ w) ≠ none) :
    ∃ d ∈ s, isNameChar d = false := by
  by_contra hno
  have hall : ∀ d ∈ s, isNameChar d = true := by simpa using hno
  rcases hb with ⟨d, hlast, hd⟩ | hw
  · have htrue := hall d (List.mem_of_getLast? hlast)
    rcases hd with rfl | hd
    · revert htrue
      decide
    · rw [isNameChar_eq_false_of_isBlank hd] at htrue
      cases htrue
  · obtain ⟨w, rfl⟩ := List.head?_eq_some_iff.1 hw
    exact h (finish_name_lt hall w)

theorem exists_named_spaced (hb : Borders (c :: s) w) (h : named closing opener (c :: s) = none) :
    ∃ found, ∀ v, allBlank v = true → named closing opener (c :: s ++ (v ++ w)) =
      Option.map (behind (opener ++ (c :: s) ++ v)) found := by
  rw [named] at h
  by_cases hc : isNameStart c = true
  · rw [if_pos hc] at h
    have hnone : finish .name s = none := by
      cases hs : finish .name s with
      | none => rfl
      | some found => rw [hs] at h; cases h
    have hborders := hb.of_nameStart hc
    obtain ⟨found, hfound⟩ := exists_finish_spaced hborders hnone
    cases found with
    | none =>
      refine ⟨none, fun v hv => ?_⟩
      rw [List.cons_append, named, if_pos hc, hfound v hv]
      rfl
    | some found =>
      obtain ⟨selfClosing, read, rest⟩ := found
      have hfinish := hfound [] rfl
      rw [List.nil_append] at hfinish
      have hname := exists_not_isNameChar hborders (by rw [hfinish]; simp)
      refine ⟨some ⟨closing, c :: s.takeWhile isNameChar, selfClosing, read, rest⟩, fun v hv => ?_⟩
      rw [List.cons_append, named, if_pos hc, hfound v hv]
      dsimp only [Option.map_some]
      rw [takeWhile_append_of_exists hname]
      simp [behind]
  · refine ⟨none, fun v hv => ?_⟩
    rw [List.cons_append, named, if_neg hc]
    rfl

/-- What stands between blanks and an opening bracket is no name. -/
theorem named_blanks (hv : allBlank v = true) (hw : w.head? = some '<') (closing : Bool) (opener : List Char) :
    named closing opener (v ++ w) = none := by
  obtain ⟨w, rfl⟩ := List.head?_eq_some_iff.1 hw
  cases v with
  | nil => rw [List.nil_append, named, if_neg (by decide)]
  | cons c v =>
    obtain ⟨hc, -⟩ := Bool.and_eq_true_iff.1 hv
    rw [List.cons_append, named, isNameStart_eq_false_of_isBlank hc, if_neg Bool.false_ne_true]

theorem scan?_cons_of_ne_slash (hc : c ≠ '/') (s : List Char) :
    scan? ('<' :: c :: s) = named false ['<'] (c :: s) := by
  unfold scan?
  split
  · next heq => exact absurd (List.cons.inj (List.cons.inj heq).2).1 hc
  · next heq => rw [(List.cons.inj heq).2]
  · next hno => exact absurd rfl (hno _)

theorem scan?_lt_blanks (hv : allBlank v = true) (hw : w.head? = some '<') : scan? ('<' :: (v ++ w)) = none := by
  have hnone := named_blanks hv hw false ['<']
  obtain ⟨w, rfl⟩ := List.head?_eq_some_iff.1 hw
  cases v with
  | nil => rwa [List.nil_append, scan?_cons_of_ne_slash (by decide)]
  | cons c v =>
    obtain ⟨hc, -⟩ := Bool.and_eq_true_iff.1 hv
    have hslash : c ≠ '/' := by
      rintro rfl
      cases hc
    rwa [List.cons_append, scan?_cons_of_ne_slash hslash]

/-- At a border a tag either ends before it, or the tag that is recognised does not depend on the blanks there. -/
theorem exists_scan?_spaced (hz : z ≠ []) (hb : Borders z w) (h : scan? z = none) :
    ∃ found, ∀ v, allBlank v = true → scan? (z ++ (v ++ w)) = Option.map (behind (z ++ v)) found := by
  -- behind no more than the beginning of a tag only a bracket can be the border
  have hbracket : ∀ {opener c}, z = opener ++ [c] → c ≠ '>' → isBlank c = false → w.head? = some '<' := by
    rintro opener c rfl hgt hc
    refine hb.resolve_left ?_
    rintro ⟨d, hlast, hd⟩
    rw [List.getLast?_concat] at hlast
    cases hlast
    rcases hd with hd | hd
    · exact hgt hd
    · rw [hc] at hd
      cases hd
  obtain ⟨c, s, rfl⟩ := List.exists_cons_of_ne_nil hz
  by_cases hc : c = '<'
  · subst hc
    cases s with
    | nil =>
      have hw : w.head? = some '<' := @hbracket [] '<' rfl (by decide) rfl
      refine ⟨none, fun v hv => ?_⟩
      have hnone := scan?_lt_blanks hv hw
      exact hnone
    | cons d s =>
      by_cases hd : d = '/'
      · subst hd
        cases s with
        | nil =>
          have hw : w.head? = some '<' := @hbracket ['<'] '/' rfl (by decide) rfl
          refine ⟨none, fun v hv => ?_⟩
          have hnone := named_blanks hv hw true ['<', '/']
          exact hnone
        | cons c s =>
          have hborders : Borders (c :: s) w := hb.of_suffix (by simp) ⟨['<', '/'], rfl⟩
          have hnamed : named true ['<', '/'] (c :: s) = none := h
          exact exists_named_spaced hborders hnamed
      · have hborders : Borders (d :: s) w := hb.of_suffix (by simp) ⟨['<'], rfl⟩
        rw [scan?_cons_of_ne_slash hd] at h
        obtain ⟨found, hfound⟩ := exists_named_spaced hborders h
        refine ⟨found, fun v hv => ?_⟩
        have hnamed := hfound v hv
        rw [List.cons_append] at hnamed
        rw [List.cons_append, List.cons_append, scan?_cons_of_ne_slash hd, hnamed]
        rfl
  · refine ⟨none, fun v hv => ?_⟩
    simp [scan?, hc]

/-- What is recognised at a border, blanks apart. -/
theorem map_kind_scan?_spaced (hz : z ≠ []) (hb : Borders z w) (hv : allBlank v = true) :
    (scan? (z ++ (v ++ w))).map (fun t => (t.closing, t.name, t.selfClosing)) =
      (scan? (z ++ w)).map fun t => (t.closing, t.name, t.selfClosing) := by
  cases h : scan? z with
  | some t =>
    have hscan := fun u => scan?_append h (t.rest ++ u)
    simp only [← List.append_assoc, append_of_scan? h] at hscan
    rw [← List.append_assoc, List.append_assoc, hscan (v ++ w), hscan w]
    rfl
  | none =>
    obtain ⟨found, hfound⟩ := exists_scan?_spaced hz hb h
    rw [hfound v hv, ← List.nil_append w, hfound [] rfl]
    cases found <;> rfl

theorem scan?_cons_blank (hc : isBlank c = true) (s : List Char) : scan? (c :: s) = none := by
  have hlt : c ≠ '<' := by
    rintro rfl
    cases hc
  simp [scan?, hlt]

end TagSpan

/-! ### Lines -/

theorem balance_cons (c : Char) (h : TagSpan.scan? (c :: s) = none) (name : List Char) :
    balance name (c :: s) = balance name s := by
  rw [balance, tagsIn_cons c h, balance]

theorem balance_of_scan? (h : TagSpan.scan? s = some t) (name : List Char) :
    balance name s = t.weight name + balance name t.rest := by
  rw [balance, tagsIn_of_scan? h, List.foldr_cons, balance]

theorem balance_blanks (hv : allBlank v = true) (name w : List Char) : balance name (v ++ w) = balance name w := by
  induction v with
  | nil => rfl
  | cons c v ih =>
    obtain ⟨hc, hv⟩ := Bool.and_eq_true_iff.1 hv
    rw [List.cons_append, balance_cons c (TagSpan.scan?_cons_blank hc _), ih hv]

/-- The balance of a line does not depend on the blanks at a border. -/
theorem balance_spaced (hb : z ≠ [] → TagSpan.Borders z w) (hv : allBlank v = true) (name : List Char) :
    balance name (z ++ (v ++ w)) = balance name (z ++ w) := by
  fun_induction tagsIn z with
  | case1 => exact balance_blanks hv name w
  | case2 c s t h ih =>
    have hsuffix : t.rest <:+ c :: s := ⟨t.source, TagSpan.append_of_scan? h⟩
    have hscan := fun u => TagSpan.scan?_append h (t.rest ++ u)
    simp only [← List.append_assoc, TagSpan.append_of_scan? h] at hscan
    rw [← List.append_assoc, List.append_assoc, balance_of_scan? (hscan (v ++ w)), balance_of_scan? (hscan w)]
    exact congrArg (t.weight name + ·) (ih fun hne => (hb (by simp)).of_suffix hne hsuffix)
  | case3 c s h ih =>
    obtain ⟨found, hfound⟩ := TagSpan.exists_scan?_spaced (by simp) (hb (by simp)) h
    have hnone := hfound [] rfl
    rw [List.nil_append] at hnone
    cases found with
    | none =>
      exact (balance_cons c (hfound v hv) name).trans ((ih fun hne =>
        (hb (by simp)).of_suffix hne (List.suffix_cons c s)).trans (balance_cons c hnone name).symm)
    | some t => rw [balance_of_scan? (hfound v hv), balance_of_scan? hnone]; rfl

/-- Nor does the element that a line opens. -/
theorem leading?_spaced (hb : z ≠ [] → TagSpan.Borders z w) (hv : allBlank v = true) :
    OpenElement.leading? (z ++ (v ++ w)) = OpenElement.leading? (z ++ w) := by
  have hkind : (TagSpan.scan? (trimLeft (z ++ (v ++ w)))).map (fun t => (t.closing, t.name, t.selfClosing)) =
      (TagSpan.scan? (trimLeft (z ++ w))).map fun t => (t.closing, t.name, t.selfClosing) := by
    by_cases hz : allBlank z = true
    · rw [trimLeft_blanks hz, trimLeft_blanks hz, trimLeft_blanks hv]
    · have hne : trimLeft z ≠ [] := fun hnil => hz (List.all_eq_true.2 (List.dropWhile_eq_nil_iff.1 hnil))
      have htrim : ∀ u, trimLeft (z ++ u) = trimLeft z ++ u := by
        intro u
        rw [trimLeft] at hne
        rw [trimLeft, List.dropWhile_append, if_neg (by simpa using hne)]
        rfl
      have hborders : TagSpan.Borders (trimLeft z) w :=
        (hb (by rintro rfl; exact hne rfl)).of_suffix hne (List.dropWhile_suffix _)
      rw [htrim, htrim, TagSpan.map_kind_scan?_spaced hne hborders hv]
  unfold OpenElement.leading?
  cases h : TagSpan.scan? (trimLeft (z ++ (v ++ w))) with
  | none =>
    rw [h] at hkind
    rw [Option.map_eq_none_iff.1 hkind.symm]
  | some t =>
    rw [h] at hkind
    obtain ⟨t', ht', hsame⟩ := Option.map_eq_some_iff.1 hkind.symm
    simp only [Prod.mk.injEq] at hsame
    obtain ⟨hclosing, hname, hself⟩ := hsame
    have hopens : t'.opens = t.opens := by rw [TagSpan.opens, TagSpan.opens, hclosing, hself]
    rw [ht', Option.filter_some, Option.filter_some, hopens]
    cases t.opens with
    | false => rfl
    | true => simp [hname]

end TaggedProse
