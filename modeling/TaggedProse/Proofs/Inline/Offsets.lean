import Mathlib.Data.List.Chain
import TaggedProse.Inline.Lexer
import TaggedProse.Proofs.Text.Bytes

/-! The lexer at positions in bytes. It goes through the text from boundary to boundary, and the end of prose, which is
looked for byte by byte, is a boundary too. -/
namespace TaggedProse
variable {rules : List Rule} {r : Rule} {a s t u : List Char} {c : Char} {b : UInt8} {x y p : List UInt8}

/-! ### The end of prose -/

/-- The first byte of what another rule may begin with. -/
def isMarkByte (b : UInt8) : Bool := b == 0x3C || b == 0x21 || b == 0x5C

def beginsNewline : List UInt8 → Bool
  | [] => false
  | b :: bs => b == 0x0A || (b == 0x0D && bs.head? == some 0x0A)

/-- Where prose ends that has come to the position `i`. Spaces are passed together. -/
def proseEnd? (bs : List UInt8) (i : Nat) : Option Nat :=
  if _h : i < bs.length then
    if isMarkByte bs[i] then some i
    else if _hspace : bs[i] = 0x20 then
      let run := ((bs.drop i).takeWhile (· == 0x20)).length
      if i + run ≤ bs.length then
        if 2 ≤ run ∧ beginsNewline (bs.drop (i + run)) then some i else proseEnd? bs (i + run)
      else none
    else proseEnd? bs (i + 1)
  else some bs.length
termination_by bs.length - i
decreasing_by
  · have hrun : 0 < ((bs.drop i).takeWhile (· == 0x20)).length := by
      rw [List.drop_eq_getElem_cons _h, _hspace]
      exact Nat.succ_pos _
    omega
  · omega

theorem proseEnd?_length (x : List UInt8) : proseEnd? x x.length = some x.length := by
  rw [proseEnd?, dif_neg (Nat.lt_irrefl _)]

theorem proseEnd?_mark (hb : isMarkByte b = true) (x y : List UInt8) :
    proseEnd? (x ++ b :: y) x.length = some x.length := by
  rw [proseEnd?, dif_pos (by simp)]
  simp [hb]

def IsPlainByte (b : UInt8) : Prop := isMarkByte b = false ∧ b ≠ 0x20

theorem proseEnd?_plain (hp : ∀ b ∈ p, IsPlainByte b) (x y : List UInt8) :
    proseEnd? (x ++ (p ++ y)) x.length = proseEnd? (x ++ (p ++ y)) (x ++ p).length := by
  induction p generalizing x with
  | nil => rw [List.append_nil]
  | cons b p ih =>
    obtain ⟨⟨hmark, hspace⟩, hp⟩ := List.forall_mem_cons.1 hp
    have hstep : proseEnd? (x ++ b :: (p ++ y)) x.length = proseEnd? (x ++ b :: (p ++ y)) (x.length + 1) := by
      rw [proseEnd?, dif_pos (by simp)]
      simp [hmark, hspace]
    have hrest := ih hp (x ++ [b])
    rw [List.append_assoc, List.append_assoc, List.length_append] at hrest
    exact hstep.trans hrest

theorem proseEnd?_spaces (n : Nat) (hy : 0x20 ∉ y.head?) (x : List UInt8) :
    proseEnd? (x ++ (List.replicate (n + 1) 0x20 ++ y)) x.length =
      if 1 ≤ n ∧ beginsNewline y then some x.length
      else proseEnd? (x ++ (List.replicate (n + 1) 0x20 ++ y)) (x.length + (n + 1)) := by
  have hlt : x.length < (x ++ (List.replicate (n + 1) (0x20 : UInt8) ++ y)).length := by
    rw [List.length_append]
    exact Nat.lt_add_of_pos_right (List.length_pos_iff.2 (by simp))
  have hfirst : (x ++ (List.replicate (n + 1) (0x20 : UInt8) ++ y))[x.length] = 0x20 := by simp [List.replicate_succ]
  have hrun : ((List.replicate (n + 1) (0x20 : UInt8) ++ y).takeWhile (· == 0x20)) = List.replicate (n + 1) 0x20 := by
    rw [List.takeWhile_append_of_pos (by simp)]
    cases y with
    | nil => simp
    | cons b y => rw [List.takeWhile_cons_of_neg (by simpa using hy), List.append_nil]
  have hdrop : (x ++ (List.replicate (n + 1) 0x20 ++ y)).drop (x.length + (n + 1)) = y := by
    rw [← List.append_assoc]
    exact List.drop_left' (by simp)
  have htwo : 2 ≤ n + 1 ↔ 1 ≤ n := Nat.succ_le_succ_iff
  rw [proseEnd?, dif_pos hlt]
  simp only [hfirst, List.drop_left, hrun, List.length_replicate, hdrop, htwo]
  rw [if_neg (by decide), dif_pos trivial, if_pos (by simp)]

/-! ### What prose goes past -/

theorem fst_splitProse_of_stops (h : stopsProse s = true) : (splitProse s).1 = [] := by
  cases s with
  | nil => rfl
  | cons c s => rw [splitProse, if_pos h]

theorem fst_splitProse_cons (h : ¬stopsProse (c :: s) = true) : (splitProse (c :: s)).1 = c :: (splitProse s).1 := by
  rw [splitProse, if_neg h]

theorem afterSpacedNewline?_spaces (n : Nat) (hu : ' ' ∉ u.head?) :
    afterSpacedNewline? (List.replicate (n + 1) ' ' ++ u) = if 1 ≤ n then afterNewline? u else none := by
  cases n with
  | zero =>
    cases u with
    | nil => rfl
    | cons c u =>
      have hc : c ≠ ' ' := fun heq => hu (congrArg some heq)
      simp [afterSpacedNewline?, hc]
  | succ n =>
    have hdrop : (List.replicate n ' ' ++ u).dropWhile (· == ' ') = u := by
      rw [List.dropWhile_append_of_pos (by simp)]
      cases u with
      | nil => rfl
      | cons c u => exact List.dropWhile_cons_of_neg (by simpa using hu)
    rw [if_pos (Nat.le_add_left 1 n), ← congrArg afterNewline? hdrop]
    rfl

/-- Prose goes past all spaces at once, unless they belong to a hard line break. -/
theorem splitProse_spaces (n : Nat) (hu : ' ' ∉ u.head?) :
    (splitProse (List.replicate (n + 1) ' ' ++ u)).1 =
      if 1 ≤ n ∧ (afterNewline? u).isSome then [] else List.replicate (n + 1) ' ' ++ (splitProse u).1 := by
  have hstops : ∀ n, stopsProse (List.replicate (n + 1) ' ' ++ u) = true ↔ 1 ≤ n ∧ (afterNewline? u).isSome := by
    intro n
    have hspaced := afterSpacedNewline?_spaces n hu
    rw [List.replicate_succ, List.cons_append] at hspaced ⊢
    rw [stopsProse, hspaced]
    split <;> simp [*]
  by_cases hbreak : 1 ≤ n ∧ (afterNewline? u).isSome
  · rw [if_pos hbreak]
    exact fst_splitProse_of_stops ((hstops n).2 hbreak)
  · rw [if_neg hbreak]
    induction n with
    | zero => exact fst_splitProse_cons fun h => hbreak ((hstops 0).1 h)
    | succ n ih =>
      have hrest := ih fun h => hbreak ⟨Nat.le_add_left 1 n, h.2⟩
      exact (fst_splitProse_cons fun h => hbreak ((hstops (n + 1)).1 h)).trans (congrArg (' ' :: ·) hrest)

theorem beginsNewline_bytes (s : List Char) : beginsNewline (bytes s) = (afterNewline? s).isSome := by
  cases s with
  | nil => rfl
  | cons c s =>
    by_cases hnewline : c = '\n'
    · subst hnewline
      rfl
    by_cases hreturn : c = '\r'
    · subst hreturn
      have hbytes : beginsNewline (bytes ('\r' :: s)) = ((bytes s).head? == some 0x0A) := rfl
      rw [hbytes]
      by_cases hnext : s.head? = some '\n'
      · obtain ⟨t, rfl⟩ := List.head?_eq_some_iff.1 hnext
        rfl
      · have hbyte : ¬(bytes s).head? = some 0x0A := not_mem_head?_bytes (d := '\n') rfl (by decide) hnext
        rw [beq_eq_false_iff_ne.2 hbyte]
        cases s with
        | nil => rfl
        | cons d s =>
          have hd : d ≠ '\n' := fun heq => hnext (congrArg some heq)
          simp [afterNewline?, hd]
    · have hfeed : 0x0A ∉ (bytes (c :: s)).head? :=
        not_mem_head?_bytes (d := '\n') rfl (by decide) fun h => hnewline (Option.some.inj h)
      have hcr : 0x0D ∉ (bytes (c :: s)).head? :=
        not_mem_head?_bytes (d := '\r') rfl (by decide) fun h => hreturn (Option.some.inj h)
      have hchars : afterNewline? (c :: s) = none := by simp [afterNewline?, hnewline, hreturn]
      rw [hchars]
      cases hhead : bytes (c :: s) with
      | nil => rfl
      | cons b bs =>
        rw [hhead] at hfeed hcr
        have hb : b ≠ 0x0A ∧ b ≠ 0x0D := ⟨fun h => hfeed (congrArg some h), fun h => hcr (congrArg some h)⟩
        simp [beginsNewline, hb]

theorem isPlainByte_of_mem (hmark : ¬(c = '<' ∨ c = '!' ∨ c = '\\')) (hspace : c ≠ ' ')
    (hb : b ∈ String.utf8EncodeChar c) : IsPlainByte b := by
  obtain ⟨hlt, hbang, hbackslash⟩ := not_or.1 hmark |>.imp_right not_or.1
  refine ⟨?_, ne_of_mem_utf8EncodeChar rfl (by decide) hspace hb⟩
  simp only [isMarkByte, Bool.or_eq_false_iff, beq_eq_false_iff_ne]
  exact ⟨⟨ne_of_mem_utf8EncodeChar rfl (by decide) hlt hb, ne_of_mem_utf8EncodeChar rfl (by decide) hbang hb⟩,
    ne_of_mem_utf8EncodeChar rfl (by decide) hbackslash hb⟩

theorem exists_spaces (s : List Char) : ∃ n u, ' ' :: s = List.replicate (n + 1) ' ' ++ u ∧ ' ' ∉ u.head? := by
  induction s with
  | nil => exact ⟨0, [], rfl, fun h => nomatch h⟩
  | cons c s ih =>
    by_cases hc : c = ' '
    · obtain ⟨n, u, heq, hu⟩ := ih
      exact ⟨n + 1, u, by rw [hc, heq]; rfl, hu⟩
    · exact ⟨0, c :: s, rfl, fun h => hc (Option.some.inj h)⟩

/-! ### Character by character -/

theorem proseEnd?_append_mark (hmark : c = '<' ∨ c = '!' ∨ c = '\\') (a t : List Char) :
    proseEnd? (bytes (a ++ c :: t)) (byteLength a) = some (byteLength a) := by
  have hbyte : ∃ b, String.utf8EncodeChar c = [b] ∧ isMarkByte b = true := by
    rcases hmark with rfl | rfl | rfl <;> exact ⟨_, rfl, rfl⟩
  obtain ⟨b, hb, hmark⟩ := hbyte
  rw [bytes_append, bytes_cons, hb, ← length_bytes]
  exact proseEnd?_mark hmark _ _

theorem proseEnd?_append_spaces (n : Nat) (hu : ' ' ∉ u.head?) (a : List Char) :
    proseEnd? (bytes (a ++ (List.replicate (n + 1) ' ' ++ u))) (byteLength a) =
      if 1 ≤ n ∧ (afterNewline? u).isSome then some (byteLength a)
      else
        proseEnd? (bytes (a ++ (List.replicate (n + 1) ' ' ++ u))) (byteLength (a ++ List.replicate (n + 1) ' ')) := by
  have hspaces := proseEnd?_spaces n (not_mem_head?_bytes (d := ' ') rfl (by decide) hu) (bytes a)
  have hsize : byteLength (List.replicate (n + 1) ' ') = n + 1 := by
    rw [← length_bytes, bytes_spaces, List.length_replicate]
  rw [← bytes_spaces, ← bytes_append, ← bytes_append, beginsNewline_bytes, length_bytes] at hspaces
  rw [hspaces, byteLength_append, hsize]

/-- All bytes of such a character are passed, one by one. -/
theorem proseEnd?_append_plain (hmark : ¬(c = '<' ∨ c = '!' ∨ c = '\\')) (hspace : c ≠ ' ') (a t : List Char) :
    proseEnd? (bytes (a ++ c :: t)) (byteLength a) = proseEnd? (bytes (a ++ c :: t)) (byteLength (a ++ [c])) := by
  have hpass := proseEnd?_plain (fun b => isPlainByte_of_mem (b := b) hmark hspace) (bytes a) (bytes t)
  rw [← bytes_cons, ← bytes_append, List.length_append, length_bytes, String.length_utf8EncodeChar] at hpass
  rw [hpass, byteLength_append, byteLength_cons, byteLength_nil, Nat.add_zero]

/-- The byte where prose ends is the one after its last character. -/
theorem proseEnd?_append (a t : List Char) :
    proseEnd? (bytes (a ++ t)) (byteLength a) = some (byteLength (a ++ (splitProse t).1)) := by
  induction hn : t.length using Nat.strongRecOn generalizing a t with
  | _ n ih =>
    have hnext : ∀ front u, front ≠ [] → t = front ++ u →
        proseEnd? (bytes (a ++ t)) (byteLength (a ++ front)) =
          some (byteLength (a ++ (front ++ (splitProse u).1))) := by
      rintro front u hne rfl
      have hpos := List.length_pos_iff.2 hne
      rw [← List.append_assoc, ← List.append_assoc]
      exact ih u.length (by rw [← hn, List.length_append]; omega) (a ++ front) u rfl
    cases t with
    | nil => rw [List.append_nil, ← length_bytes, proseEnd?_length, splitProse, List.append_nil, length_bytes]
    | cons c t =>
      by_cases hmark : c = '<' ∨ c = '!' ∨ c = '\\'
      · have hstop : stopsProse (c :: t) = true := by rcases hmark with rfl | rfl | rfl <;> rfl
        rw [proseEnd?_append_mark hmark, fst_splitProse_of_stops hstop, List.append_nil]
      by_cases hspace : c = ' '
      · subst hspace
        obtain ⟨k, u, heq, hu⟩ := exists_spaces t
        have hrest := hnext (List.replicate (k + 1) ' ') u (by simp) heq
        rw [heq] at hrest ⊢
        rw [proseEnd?_append_spaces k hu, hrest, splitProse_spaces k hu]
        split
        · rw [List.append_nil]
        · rfl
      · have hgoes : ¬stopsProse (c :: t) = true := by
          simp only [not_or] at hmark
          simp [stopsProse, hmark, hspace]
        rw [proseEnd?_append_plain hmark hspace, hnext [c] t (by simp) rfl, fst_splitProse_cons hgoes]
        rfl

/-! ### Rules at positions -/

def Rule.scanAt? : Rule → List Char → Option (Option (Token × Nat))
  | .text, [] => some none
  | .text, c :: s => do
    let last ← proseEnd? (bytes (c :: s)) c.utf8Size
    let prose ← upTo? last (c :: s)
    some (some (.text prose, last))
  | r, s => some ((r.scan s).map fun m => (m.token, byteLength m.source))

def firstScan? : List Rule → List Char → Option (Option (Token × Nat))
  | [], _ => some none
  | r :: rules, s => do
    match ← r.scanAt? s with
    | some (token, size) => if 0 < size then some (some (token, size)) else firstScan? rules s
    | none => firstScan? rules s

/-- The next token, and its size. Where no rule takes anything, it is one character. -/
def nextAt? (rules : List Rule) (s : List Char) : Option (Token × Nat) := do
  match ← firstScan? rules s with
  | some found => some found
  | none =>
    let size := (s.head?.map Char.utf8Size).getD 1
    let taken ← upTo? size s
    some (.text taken, size)

structure Extent where
  token : Token
  first : Nat
  last : Nat

/-- The tokens from a position on. A token that takes no byte would hold the lexer up for ever, and is refused. -/
def lexAt? (rules : List Rule) (s : List Char) (position : Nat) : Option (List Extent) :=
  if position < byteLength s then
    match (from? position s).bind (nextAt? rules) with
    | some (token, size) =>
      if 0 < size then (lexAt? rules s (position + size)).map (⟨token, position, position + size⟩ :: ·) else none
    | none => none
  else some []
termination_by byteLength s - position

theorem proseEnd?_first (c : Char) (s : List Char) :
    proseEnd? (bytes (c :: s)) c.utf8Size = some (byteLength (c :: (splitProse s).1)) :=
  proseEnd?_append [c] s

theorem scanAt?_eq (r : Rule) (s : List Char) :
    r.scanAt? s = some ((r.scan s).map fun m => (m.token, byteLength m.source)) := by
  cases r with
  | text =>
    cases s with
    | nil => rfl
    | cons c s =>
      have hprose := upTo?_append (c :: (splitProse s).1) (splitProse s).2
      rw [List.cons_append, Rule.append_splitProse] at hprose
      rw [Rule.scanAt?, proseEnd?_first]
      simp only [Option.bind_eq_bind, Option.bind_some, hprose]
      rfl
  | _ => rfl

theorem firstScan?_eq (rules : List Rule) (s : List Char) :
    firstScan? rules s = some ((firstMatch rules s).map fun m => (m.token, byteLength m.source)) := by
  induction rules with
  | nil => rfl
  | cons r rules ih =>
    rw [firstScan?, scanAt?_eq, firstMatch, List.findSome?_cons, ← firstMatch]
    cases r.scan s with
    | none => exact ih
    | some m =>
      rw [Option.filter_some]
      by_cases hm : m.source = []
      · simp only [Option.map_some, Option.bind_eq_bind, Option.bind_some, hm, List.isEmpty_nil]
        exact ih
      · have hsize := byteLength_pos_iff.2 hm
        have hkept : (!m.source.isEmpty) = true := by simpa using hm
        simp only [Option.map_some, Option.bind_eq_bind, Option.bind_some, hkept, if_pos hsize, if_true]

theorem nextAt?_cons (rules : List Rule) (c : Char) (s : List Char) :
    nextAt? rules (c :: s) = some ((nextPiece rules c s).token, byteLength (nextPiece rules c s).source) := by
  rw [nextAt?, firstScan?_eq, nextPiece]
  cases firstMatch rules (c :: s) with
  | some m => rfl
  | none =>
    have hone : upTo? c.utf8Size (c :: s) = some [c] := upTo?_append [c] s
    simp [hone]

/-! ### Pieces at positions -/

def extents (position : Nat) : List Match → List Extent
  | [] => []
  | m :: ms => ⟨m.token, position, position + byteLength m.source⟩ :: extents (position + byteLength m.source) ms

/-- The extents are not empty, and each begins where the one before it ends: from `i` to `j`, every byte is in one. -/
def Covers (i j : Nat) : List Extent → Prop
  | [] => i = j
  | e :: es => e.first = i ∧ e.first < e.last ∧ Covers e.last j es

theorem lexAt?_append (rules : List Rule) (a t : List Char) :
    lexAt? rules (a ++ t) (byteLength a) = some (extents (byteLength a) (pieces rules t)) := by
  fun_induction pieces rules t generalizing a with
  | case1 => rw [lexAt?, if_neg (by simp)]; rfl
  | case2 c t m ih =>
    obtain ⟨happend, hne⟩ := append_nextPiece rules c t
    have hrest := ih (a ++ m.source)
    rw [List.append_assoc, happend, byteLength_append] at hrest
    have hinside : byteLength a < byteLength (a ++ c :: t) := by
      rw [byteLength_append]
      exact Nat.lt_add_of_pos_right (byteLength_pos_iff.2 (List.cons_ne_nil c t))
    rw [lexAt?, if_pos hinside, from?_append, Option.bind_some, nextAt?_cons]
    simp only
    rw [if_pos (byteLength_pos_iff.2 hne), hrest]
    rfl

theorem covers_extents {ms : List Match} (h : ∀ m ∈ ms, m.source ≠ []) (i : Nat) :
    Covers i (i + byteLength (ms.flatMap Match.source)) (extents i ms) := by
  induction ms generalizing i with
  | nil => rfl
  | cons m ms ih =>
    obtain ⟨hm, hms⟩ := List.forall_mem_cons.1 h
    refine ⟨rfl, Nat.lt_add_of_pos_right (byteLength_pos_iff.2 hm), ?_⟩
    rw [List.flatMap_cons, byteLength_append, ← Nat.add_assoc]
    exact ih hms _

theorem map_token_extents (i : Nat) (ms : List Match) : (extents i ms).map Extent.token = ms.map Match.token := by
  induction ms generalizing i with
  | nil => rfl
  | cons m ms ih => exact congrArg (_ :: ·) (ih _)

/-- The bytes of a piece are a slice that is not refused. -/
theorem slice?_of_mem_extents {e : Extent} {ms : List Match} (he : e ∈ extents (byteLength a) ms) :
    (slice? e.first e.last (a ++ ms.flatMap Match.source)).isSome := by
  induction ms generalizing a with
  | nil => cases he
  | cons m ms ih =>
    rw [List.flatMap_cons]
    rcases List.mem_cons.1 he with rfl | he
    · have hslice := slice?_append a m.source (ms.flatMap Match.source)
      rw [byteLength_append, List.append_assoc] at hslice
      exact Option.isSome_of_eq_some hslice
    · rw [← byteLength_append] at he
      rw [← List.append_assoc]
      exact ih he

theorem source_ne_nil_of_mem_pieces {m : Match} (h : m ∈ pieces rules s) : m.source ≠ [] := by
  fun_induction pieces rules s with
  | case1 => cases h
  | case2 c s m' ih =>
    rcases List.mem_cons.1 h with rfl | h
    · exact (append_nextPiece rules c s).2
    · exact ih h

/-- The lexer gets to the end of the text, and what it takes on the way is all of the text, each byte once. -/
theorem exists_lexAt? (rules : List Rule) (s : List Char) :
    ∃ es, lexAt? rules s 0 = some es ∧ tokenize rules s = joinText (es.map Extent.token) ∧ Covers 0 (byteLength s) es ∧
      ∀ e ∈ es, (slice? e.first e.last s).isSome := by
  have hall := flatMap_source_pieces rules s
  refine ⟨extents 0 (pieces rules s), lexAt?_append rules [] s, ?_, ?_, fun e he => ?_⟩
  · rw [map_token_extents, tokenize]
  · have hne : ∀ m ∈ pieces rules s, m.source ≠ [] := fun m => source_ne_nil_of_mem_pieces
    have hcovers := covers_extents hne 0
    rwa [hall, Nat.zero_add] at hcovers
  · have hslice := slice?_of_mem_extents (a := []) he
    rwa [hall] at hslice

example : (lexAt? [.literal [] .lineBreak, .escape, .text] "é \\!ü".toList 0).map (·.map fun e => (e.first, e.last)) =
    some [(0, 3), (3, 5), (5, 7)] := by cbv

/-! ### Neighbouring texts -/

def Token.isText : Token → Bool
  | .text _ => true
  | _ => false

theorem isChain_joinText (ts : List Token) : (joinText ts).IsChain fun t u => (t.isText && u.isText) = false := by
  fun_induction joinText ts with
  | case1 => exact .nil
  | case2 s ts s' ts' h ih =>
    rw [h] at ih
    exact List.isChain_cons.2 (List.isChain_cons.1 ih)
  | case3 s ts h ih =>
    refine List.isChain_cons.2 ⟨fun u hu => ?_, ih⟩
    obtain ⟨ts', hts'⟩ := List.head?_eq_some_iff.1 hu
    cases u with
    | text s' => exact absurd hts' (h s' ts')
    | _ => rfl
  | case4 t ts h ih =>
    refine List.isChain_cons.2 ⟨fun u _ => ?_, ih⟩
    cases t with
    | text s => exact absurd rfl (h s)
    | _ => rfl

end TaggedProse
