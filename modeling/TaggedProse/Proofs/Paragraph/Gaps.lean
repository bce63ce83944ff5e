import TaggedProse.Proofs.Inline.Positions
import TaggedProse.Proofs.Paragraph.Plain
import TaggedProse.Proofs.Text.Invisible

/-! Gaps between the tags of an element with fields. What is written in a gap is white space in the end, however much
of it there is. -/
namespace TaggedProse
variable {schema : Schema} {s t p v v' : List Char} {line line' n m : Nat} {items others : List Item}
  {ts us : List Token} {ms : List Match} {g g' : Progress}

/-! ### The items of tokens -/

def itemsOf (line : Nat) : List Token → List Item
  | [] => []
  | t :: ts => t.items line ++ itemsOf (line + newlines t.render) ts

theorem itemsOf_append (line : Nat) (ts us : List Token) :
    itemsOf line (ts ++ us) = itemsOf line ts ++ itemsOf (line + newlines (ts.flatMap Token.render)) us := by
  induction ts generalizing line with
  | nil => rfl
  | cons t ts ih =>
    rw [List.cons_append, itemsOf, ih, itemsOf, List.flatMap_cons, newlines_append, List.append_assoc, Nat.add_assoc]

theorem joinItems_cons_congr (it : Item) (h : joinItems items = joinItems others) :
    joinItems (it :: items) = joinItems (it :: others) := by
  cases it <;> simp only [joinItems, h]

theorem joinItems_append_congr (front : List Item) (h : joinItems items = joinItems others) :
    joinItems (front ++ items) = joinItems (front ++ others) := by
  induction front with
  | nil => exact h
  | cons it front ih => exact joinItems_cons_congr it ih

theorem joinItems_text_text (s t : List Char) (line line' : Nat) (items : List Item) :
    joinItems (.text s line :: .text t line' :: items) = joinItems (.text (s ++ t) line :: items) := by
  rw [joinItems.eq_2, joinItems.eq_2, joinItems.eq_2]
  cases joinItems items with
  | nil => rfl
  | cons it items => cases it <;> simp

/-- Text that is written character by character is joined to the text before it. -/
theorem joinItems_singles (s t : List Char) (line n : Nat) (items : List Item) :
    joinItems (.text s line :: (itemsOf n (t.map fun c => .text [c]) ++ items)) =
      joinItems (.text (s ++ t) line :: items) := by
  induction t generalizing s n with
  | nil => rw [List.append_nil]; rfl
  | cons c t ih =>
    rw [List.map_cons, itemsOf, Token.items, List.append_assoc, List.singleton_append, joinItems_text_text, ih,
      List.append_assoc]
    rfl

/-- A tag parts the texts before it from those behind it. -/
theorem joinItems_append_tag (items others : List Item) (content : List Char) (line : Nat) :
    joinItems (items ++ .tag content line :: others) = joinItems items ++ .tag content line :: joinItems others := by
  induction items with
  | nil => rfl
  | cons it items ih =>
    cases it with
    | tag content line => exact congrArg (_ :: ·) ih
    | text s line =>
      rw [List.cons_append, joinItems, joinItems, ih]
      cases joinItems items with
      | nil => rfl
      | cons it rest => cases it <;> rfl

theorem newlines_singles (token : Token) :
    newlines (token.singles.flatMap Token.render) = newlines token.render := by
  cases token with
  | text s =>
    have hrender : (Token.text s).render = escape .content s := rfl
    rw [hrender, newlines_escape, Token.singles]
    induction s with
    | nil => rfl
    | cons c s ih =>
      have hsingle : (Token.text [c]).render = escape .content [c] := rfl
      rw [List.map_cons, List.flatMap_cons, newlines_append, ih rfl, hsingle, newlines_escape, ← newlines_append]
      rfl
  | _ => exact congrArg newlines (List.append_nil _)

theorem joinItems_itemsOf_singles {token : Token} (h : token ≠ .text []) (line : Nat) (items : List Item) :
    joinItems (itemsOf line token.singles ++ items) = joinItems (token.items line ++ items) := by
  cases token with
  | text s =>
    cases s with
    | nil => exact absurd rfl h
    | cons c s =>
      rw [Token.singles, List.map_cons, itemsOf, Token.items, List.append_assoc, List.singleton_append,
        joinItems_singles]
      rfl
  | _ => simp only [Token.singles, itemsOf, List.append_nil]

theorem joinItems_itemsFrom (h : ∀ m ∈ ms, m.token.Keeps m.source) (line : Nat) :
    joinItems (itemsFrom line ms) = joinItems (itemsOf line (ms.flatMap fun m => m.token.singles)) := by
  induction ms generalizing line with
  | nil => rfl
  | cons m ms ih =>
    obtain ⟨hm, hms⟩ := List.forall_mem_cons.1 h
    have hne : m.token ≠ .text [] := by
      intro htoken
      rw [htoken] at hm
      exact hm.1 rfl
    rw [itemsFrom, List.flatMap_cons, itemsOf_append, newlines_singles, newlines_render hm,
      joinItems_itemsOf_singles hne]
    exact joinItems_append_congr _ (ih hms _)

/-- The items of a paragraph, from the tokens of the lexer that goes from position to position. -/
theorem sourceItems_eq (source : List Char) :
    sourceItems source = .tag paragraphTag.toList 0 ::
      joinItems (itemsOf 0 (tokensByPosition documentRules 0 source) ++
        [.tag ('/' :: paragraphTag.toList) (newlines source)]) := by
  have hlexes : Lexes source ((pieces documentRules source).flatMap fun m => m.token.singles) [] :=
    lexes_of_pieces (List.append_nil _).symm
  have hend : tokensByPosition documentRules 0 [] = [] := rfl
  rw [hlexes.tokensByPosition_eq, hend, List.append_nil, joinItems_append_tag,
    ← joinItems_itemsFrom (keeps_pieces source)]
  rfl

/-! ### Elements with fields -/

def Body.isObject : Body → Bool
  | .object _ _ => true
  | _ => false

def Progress.inObject (g : Progress) : Bool := (g.assembly.frames.head?.map (·.body)).any Body.isObject

theorem exists_of_inObject (h : g.inObject = true) : ∃ f below table fields,
    g.assembly.frames = f :: below ∧ f.body = .object table fields := by
  unfold Progress.inObject at h
  cases hframes : g.assembly.frames with
  | nil => rw [hframes] at h; cases h
  | cons f below =>
    rw [hframes] at h
    cases hbody : f.body with
    | object table fields => exact ⟨f, below, table, fields, rfl, hbody⟩
    | _ => simp [hbody, Body.isObject] at h

namespace Assembly
variable {a a' : Assembly} {f : Frame} {below : List Frame} {table : Table} {fields : Record Value}

theorem splitBreaks_object (hbody : f.body = .object table fields) : splitBreaks (f :: below) = ([], f :: below) :=
  splitBreaks_append (List.forall_mem_nil _) (by rw [hbody]; rfl)

/-- Text in an element with fields is refused or leaves no trace. -/
theorem write_object (hframes : a.frames = f :: below) (hbody : f.body = .object table fields) (s : List Char)
    (line : Nat) : write s line a = (refuseText f.tag s line, a) := by
  rw [write, hframes, splitBreaks_object hbody]
  simp only [hbody, Body.write]
  cases refuseText f.tag s line with
  | error e => rfl
  | ok u =>
    simp only [Except.map, ← hbody]
    simp [← hframes]

theorem parent_openInObject (schema : Schema) (table : Table) (fields : Record Value) (tag : String)
    (attributes : List (String × String)) (line : Nat) (l : Ledger) :
    (openInObject schema table fields tag attributes line l).parent = .object table fields := by
  unfold openInObject
  dsimp only
  split
  · rfl
  · split <;> rfl

/-- An element is opened on top of the one with fields, which stays as it is. -/
theorem frames_openElement_object {tag : String} {attributes : List (String × String)}
    (hframes : a.frames = f :: below) (hbody : f.body = .object table fields)
    (h : openElement schema tag attributes line a = (.ok (), a')) : ∃ child, a'.frames = child :: f :: below := by
  rw [openElement, hframes, splitBreaks_object hbody] at h
  dsimp only at h
  split at h
  · cases h
  · next child _ =>
    cases h
    have hparent : (f.body.openChild schema f.tag tag attributes line a.ledger).parent = f.body := by
      rw [hbody]
      exact parent_openInObject _ _ _ _ _ _ _
    dsimp only
    rw [hparent]
    exact ⟨_, rfl⟩

/-- When the element on top of one with fields closes, that one is the innermost again. -/
theorem frames_closeElement_object {tag : String} {child : Frame} (hframes : a.frames = child :: f :: below)
    (hbody : f.body = .object table fields) (h : closeElement schema tag line a = (.ok (), a')) :
    ∃ fields', a'.frames = { f with body := .object table fields' } :: below := by
  have hsame : f :: below = { f with body := .object table fields } :: below := by rw [← hbody]
  rw [closeElement, hframes] at h
  dsimp only at h
  split at h
  · cases h
  · cases h
    exact ⟨fields, hsame⟩
  · cases h
    exact ⟨fields, hsame⟩
  · next v l _ =>
    rw [deliver, splitBreaks_object hbody] at h
    simp only [hbody, Body.accept] at h
    split at h
    · cases h
    · next hok =>
      cases h
      split at hok <;> cases hok <;> exact ⟨_, rfl⟩

end Assembly

theorem refuseText_eq_ok {tag : String} : refuseText tag s line = .ok () ↔ allBlank s = true := by
  unfold refuseText
  cases hvisible : visibleLine? line s with
  | none => exact iff_of_true rfl (visibleLine?_eq_none.1 hvisible)
  | some n => 
    refine iff_of_false (fun h => by cases h) fun h => ?_
    rw [visibleLine?_eq_none.2 h] at hvisible
    cases hvisible

/-- Between the fields there may be white space, and it makes no difference. -/
theorem take_text_iff (hg : g.inObject = true) (s : List Char) (line : Nat) :
    (Item.text s line).take schema g = .ok g' ↔ Invisible s ∧ g' = g := by
  obtain ⟨f, below, table, fields, hframes, hbody⟩ := exists_of_inObject hg
  rw [Item.take, Item.opened, Item.parts]
  dsimp only
  cases hd : Xml.decode (escape .content s) with
  | error e => 
    refine iff_of_false (fun h => by cases h) fun h => ?_
    rw [decode_escape h.1.1] at hd
    cases hd
  | ok d =>
    have hdenotes := (exists_decode_escape .content s).1 ⟨d, hd⟩
    obtain rfl : dereferenced s = d := Except.ok.inj ((decode_escape hdenotes .content).symm.trans hd)
    have hrun : Assembly.run schema ((glyphs line 0 s).map Glyph.part) g.assembly =
        (refuseText f.tag (dereferenced s) line, g.assembly) := by
      rw [map_part_glyphs s line 0 hd, Nat.add_zero]
      by_cases hnil : dereferenced s = []
      · rw [hnil]
        rfl
      · rw [Assembly.run_textParts schema _ hnil, Assembly.step, Assembly.write_object hframes hbody]
    dsimp only
    rw [hrun]
    cases hrefuse : refuseText f.tag (dereferenced s) line with
    | error e =>
      refine iff_of_false (fun h => by cases h) fun h => ?_
      rw [refuseText_eq_ok.2 h.1.2] at hrefuse
      cases hrefuse
    | ok u =>
      have hinvisible : Invisible s := ⟨hdenotes, refuseText_eq_ok.1 hrefuse⟩
      rw [and_iff_right hinvisible]
      exact ⟨fun h => (Except.ok.inj h).symm, fun h => congrArg _ h.symm⟩

/-- A hard break opens and closes one of the element's fields. -/
theorem inObject_take_break (hg : g.inObject = true)
    (h : (Item.tag (breakTag.toList ++ ['/']) line).take schema g = .ok g') : g'.inObject = true := by
  obtain ⟨f, below, table, fields, hframes, hbody⟩ := exists_of_inObject hg
  obtain ⟨parts, hparts, hrun, -⟩ := exists_of_take_ok h
  rw [parts_break] at hparts
  cases hparts
  obtain ⟨a, hopen, hrest⟩ := Assembly.exists_of_run_cons hrun
  obtain ⟨a', hclose, hend⟩ := Assembly.exists_of_run_cons hrest
  cases hend
  obtain ⟨child, hchild⟩ := Assembly.frames_openElement_object hframes hbody hopen
  obtain ⟨fields', hfields⟩ := Assembly.frames_closeElement_object hchild hbody hclose
  simp [Progress.inObject, hfields, Body.isObject]

/-! ### Text that is still to be joined to what follows -/

def leadingText : List Item → List Char
  | .text s _ :: _ => s
  | _ => []

def afterText : List Item → List Item
  | .text _ _ :: items => items
  | items => items

theorem joinItems_cons_text (s : List Char) (line : Nat) (items : List Item) : joinItems (.text s line :: items) =
    .text (s ++ leadingText (joinItems items)) line :: afterText (joinItems items) := by
  rcases joinItems_text s line items with ⟨s', line', rest, heq, hjoin⟩ | ⟨htag, hjoin⟩
  · rw [hjoin, heq]
    rfl
  · rw [hjoin]
    cases hitems : joinItems items with
    | nil => simp [leadingText, afterText]
    | cons it rest =>
      cases it with
      | text s' line' => exact absurd hitems (htag s' line' rest)
      | tag content line' => simp [leadingText, afterText]

theorem takeAll_text_iff (hg : g.inObject = true) (s : List Char) (line : Nat) (items : List Item) :
    takeAll schema (.text s line :: items) g = .ok g' ↔ Invisible s ∧ takeAll schema items g = .ok g' := by
  have htake : ∀ g₁, (Item.text s line).take schema g = .ok g₁ ↔ Invisible s ∧ g₁ = g :=
    fun _ => take_text_iff hg s line
  rw [takeAll]
  cases h : (Item.text s line).take schema g with
  | error e =>
    refine iff_of_false (fun heq => by cases heq) fun hv => ?_
    rw [(htake g).2 ⟨hv.1, rfl⟩] at h
    cases h
  | ok g₁ =>
    obtain ⟨hinvisible, rfl⟩ := (htake g₁).1 h
    rw [and_iff_right hinvisible]

theorem takeAll_cons_text_iff (hg : g.inObject = true) (s : List Char) (line : Nat) (items : List Item) :
    takeAll schema (joinItems (.text s line :: items)) g = .ok g' ↔
      Invisible (s ++ leadingText (joinItems items)) ∧ takeAll schema (afterText (joinItems items)) g = .ok g' := by
  rw [joinItems_cons_text, takeAll_text_iff hg]

theorem takeAll_cons_nil_iff (hg : g.inObject = true) (line : Nat) (items : List Item) :
    takeAll schema (joinItems (.text [] line :: items)) g = .ok g' ↔
      takeAll schema (joinItems items) g = .ok g' := by
  rw [takeAll_cons_text_iff hg, List.nil_append]
  cases joinItems items with
  | nil => exact and_iff_right invisible_nil
  | cons it rest =>
    cases it with
    | text s line => exact (takeAll_text_iff hg s line rest).symm
    | tag content line => exact and_iff_right invisible_nil

/-- What is joined to the texts behind some prose: all text since its last hard break. -/
def pendingText (p : List Char) : List Token → List Char
  | [] => p
  | .text s :: ts => pendingText (p ++ s) ts
  | _ :: ts => pendingText ['\n'] ts

/-- Prose that is taken leaves an element with fields open, and some text that is still to be joined to what follows. -/
theorem exists_takeAll_prose (hg : g.inObject = true) (hts : ∀ t ∈ ts, t.isProse = true)
    (h : takeAll schema (joinItems (.text p line :: (itemsOf n ts ++ items))) g = .ok g') :
    ∃ line' g₁, g₁.inObject = true ∧ ∀ others,
      takeAll schema (joinItems (.text p line :: (itemsOf n ts ++ others))) g =
        takeAll schema (joinItems (.text (pendingText p ts) line' :: others)) g₁ := by
  induction ts generalizing p line n g with
  | nil => exact ⟨line, g, hg, fun others => rfl⟩
  | cons t ts ih =>
    obtain ⟨ht, hprose⟩ := List.forall_mem_cons.1 hts
    cases t with
    | text s =>
      have hjoin : ∀ others, joinItems (.text p line :: (itemsOf n (.text s :: ts) ++ others)) =
          joinItems (.text (p ++ s) line :: (itemsOf (n + newlines (Token.text s).render) ts ++ others)) :=
        fun others => joinItems_text_text p s line n _
      simp only [hjoin] at h ⊢
      exact ih hg hprose h
    | lineBreak =>
      have hjoin : ∀ others, joinItems (.text p line :: (itemsOf n (.lineBreak :: ts) ++ others)) =
          .text p line :: .tag (breakTag.toList ++ ['/']) n ::
            joinItems (.text ['\n'] n :: (itemsOf (n + newlines Token.lineBreak.render) ts ++ others)) :=
        fun others => joinItems_append_tag [.text p line] _ _ n
      simp only [hjoin] at h ⊢
      obtain ⟨hinvisible, h⟩ := (takeAll_text_iff hg p line _).1 h
      rw [takeAll] at h
      cases htag : (Item.tag (breakTag.toList ++ ['/']) n).take schema g with
      | error e =>
        rw [htag] at h
        cases h
      | ok g₂ =>
        rw [htag] at h
        obtain ⟨line', g₁, hg₁, hothers⟩ := ih (inObject_take_break hg htag) hprose h
        refine ⟨line', g₁, hg₁, fun others => ?_⟩
        rw [takeAll, (take_text_iff hg p line).2 ⟨hinvisible, rfl⟩]
        dsimp only
        rw [takeAll, htag]
        exact hothers others
    | markup source => cases ht
    | image url alt title => cases ht

/-- How many blanks stand behind some prose makes no difference, if no text comes before them or none but blanks comes
behind them. -/
theorem takeAll_spaced (hg : g.inObject = true) (hts : ∀ t ∈ ts, t.isProse = true) (hv : allBlank v = true)
    (hv' : allBlank v' = true)
    (hbound : pendingText [] ts = [] ∨ leadingText (joinItems items) = [] ∨
      ∃ c ∈ (leadingText (joinItems items)).head?, isBlank c = true)
    (h : takeAll schema (joinItems (itemsOf n ts ++ (itemsOf m (v.map fun c => .text [c]) ++ items))) g = .ok g') :
    takeAll schema (joinItems (itemsOf n ts ++ (itemsOf m (v'.map fun c => .text [c]) ++ items))) g = .ok g' := by
  rw [← takeAll_cons_nil_iff hg n] at h ⊢
  obtain ⟨line', g₁, hg₁, hothers⟩ := exists_takeAll_prose hg hts h
  have hiff : ∀ u, allBlank u = true →
      (takeAll schema (joinItems (.text [] n :: (itemsOf n ts ++ (itemsOf m (u.map fun c => .text [c]) ++ items)))) g =
          .ok g' ↔
        (Invisible (pendingText [] ts) ∧ Invisible (leadingText (joinItems items))) ∧
          takeAll schema (afterText (joinItems items)) g₁ = .ok g') := by
    intro u hu
    rw [hothers, joinItems_singles, takeAll_cons_text_iff hg₁, List.append_assoc, invisible_spaced hu hbound]
  exact (hiff v' hv').2 ((hiff v hv).1 h)

theorem pendingText_concat (p s : List Char) (ts : List Token) :
    pendingText p (ts ++ [.text s]) = pendingText p ts ++ s := by
  induction ts generalizing p with
  | nil => rfl
  | cons t ts ih => cases t <;> exact ih _

/-- A backslash that is left as it is would be visible. -/
theorem getLast?_ne_backslash (hg : g.inObject = true) (hts : ∀ t ∈ ts, t.isProse = true)
    (h : takeAll schema (joinItems (itemsOf n ts ++ items)) g = .ok g') : ts.getLast? ≠ some (.text ['\\']) := by
  intro hlast
  obtain ⟨front, rfl⟩ := List.getLast?_eq_some_iff.1 hlast
  rw [← takeAll_cons_nil_iff hg n] at h
  obtain ⟨line', g₁, hg₁, hothers⟩ := exists_takeAll_prose hg hts h
  rw [hothers, takeAll_cons_text_iff hg₁, pendingText_concat] at h
  exact backslash_not_mem_of_invisible h.1 (by simp)

end TaggedProse
