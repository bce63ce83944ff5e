import TaggedProse.Proofs.Assembly.Standing

/-! The tags of the open elements. The tag that opens an element comes on top of them, a closing tag takes the
topmost away, and nothing else changes them. -/
namespace TaggedProse
variable {schema : Schema} {tag : String} {line : Nat} {s : List Char} {attributes : List (String × String)}
  {e : Failure} {frame : Frame}

/-! ### Tags that are nested -/

/-- The names of the elements that are open after the parts, if every closing tag closes the innermost. -/
def nest (stack : List String) : List Part → Option (List String)
  | [] => some stack
  | .opening tag _ _ :: parts => nest (tag :: stack) parts
  | .text _ _ :: parts => nest stack parts
  | .closing tag _ :: parts =>
    match stack with
    | [] => none
    | innermost :: outer => if innermost = tag then nest outer parts else none

theorem nest_append (stack : List String) (xs ys : List Part) :
    nest stack (xs ++ ys) = (nest stack xs).bind fun stack' => nest stack' ys := by
  induction xs generalizing stack with
  | nil => rfl
  | cons part xs ih =>
    cases part with
    | opening tag attributes line => exact ih _
    | text s line => exact ih _
    | closing tag line =>
      cases stack with
      | nil => rfl
      | cons innermost outer =>
        rw [List.cons_append, nest, nest]
        split
        · exact ih _
        · rfl

theorem nest_cons (stack : List String) (part : Part) (parts : List Part) :
    nest stack (part :: parts) = (nest stack [part]).bind fun stack' => nest stack' parts :=
  nest_append stack [part] parts

namespace Assembly
variable {a a' : Assembly} {stack stack' : List String} {parts : List Part} {part : Part}

/-! ### The tags of the open elements -/

def tags (a : Assembly) : List String := a.frames.map Frame.tag

theorem tags_openElement (h : openElement schema tag attributes line a = (.ok (), a')) :
    a'.tags = tag :: a.tags := by
  unfold openElement at h
  split at h
  · split at h
    · cases h
    · cases h; rfl
  · next breaks around below heq =>
    have hframes := eq_append_of_splitBreaks heq
    dsimp only at h
    split at h
    · cases h
    · cases h
      simp [tags, hframes]

theorem tags_write (s : List Char) (line : Nat) (a : Assembly) : (write s line a).2.tags = a.tags := by
  unfold write
  split
  · rfl
  · next breaks around below heq =>
    have hframes := eq_append_of_splitBreaks heq
    split
    · rfl
    · simp [tags, hframes]

theorem tags_deliver (tag : String) (line : Nat) (frame : Frame) (v : Value) (a : Assembly) :
    (deliver tag line frame v a).2.tags = a.tags := by
  unfold deliver
  split
  · rfl
  · next breaks around below heq =>
    have hframes := eq_append_of_splitBreaks heq
    split
    · rfl
    · simp [tags, hframes]

/-- The innermost element is closed, even if its value is refused. -/
theorem tags_closeElement (schema : Schema) (tag : String) (line : Nat) (a : Assembly) :
    (closeElement schema tag line a).2.tags = a.tags.tail := by
  unfold closeElement
  split
  · next hnil => rw [tags, hnil]; rfl
  · next f frames hframes =>
    have htail : a.tags.tail = frames.map Frame.tag := by rw [tags, hframes]; rfl
    rw [htail]
    split
    · rfl
    · rfl
    · rfl
    · exact tags_deliver _ _ _ _ _

theorem tags_step (hn : nest a.tags [part] = some stack) (h : step schema part a = (.ok (), a')) :
    a'.tags = stack := by
  cases part with
  | opening tag attributes line => cases hn; exact tags_openElement h
  | text s line =>
    have hkept := tags_write s line a
    rw [show write s line a = _ from h] at hkept
    cases hn
    exact hkept
  | closing tag line =>
    have htail := tags_closeElement schema tag line a
    rw [show closeElement schema tag line a = _ from h] at htail
    rw [show a'.tags = _ from htail]
    cases htags : a.tags with
    | nil => rw [htags] at hn; cases hn
    | cons innermost outer =>
      rw [htags, nest] at hn
      split at hn
      · cases hn; rfl
      · cases hn

/-- After some parts that are nested and all taken, just the elements are open that they leave open. -/
theorem tags_run (hn : nest a.tags parts = some stack) (h : run schema parts a = (.ok (), a')) :
    a'.tags = stack := by
  induction parts generalizing a with
  | nil =>
    cases hn
    cases h
    rfl
  | cons part parts ih =>
    rw [nest_cons] at hn
    obtain ⟨stack₁, hpart, hn⟩ := Option.bind_eq_some_iff.1 hn
    obtain ⟨a₁, hstep, hrest⟩ := exists_of_run_cons h
    exact ih (tags_step hpart hstep ▸ hn) hrest

/-! ### Closing tags for which nothing is open -/

theorem atClosing_of_openElement (h : (openElement schema tag attributes line a).1 = .error e) :
    e.item.atClosing = false := by
  unfold openElement at h
  split at h
  · split at h <;> cases h
    rfl
  · next breaks around below heq =>
    have hinner := (around.body.isInner_openChild schema around.tag tag attributes line a.ledger).child
    dsimp only at h
    split at h
    · next e' hchild =>
      cases h
      rwa [hchild] at hinner
    · cases h

theorem exists_of_write_error (h : (write s line a).1 = .error e) :
    ∃ tag visible, e = ⟨.undescribedText tag, visible⟩ := by
  unfold write at h
  split at h
  · exact ⟨_, exists_of_refuseText_error h⟩
  · split at h
    · next heq => cases h; exact ⟨_, Body.exists_of_write_error heq⟩
    · cases h

theorem atClosing_of_deliver {v : Value} (hopen : (splitBreaks a.frames).2 ≠ [])
    (h : (deliver tag line frame v a).1 = .error e) : e.item.atClosing = false := by
  unfold deliver at h
  split at h
  · next heq => exact absurd (by rw [heq]) hopen
  · split at h
    · next heq => cases h; exact Body.atClosing_of_accept (by rw [heq])
    · cases h

theorem atClosing_of_closeElement (ha : a.Standing) (hopen : a.frames ≠ [])
    (h : (closeElement schema tag line a).1 = .error e) : e.item.atClosing = false := by
  unfold closeElement at h
  split at h
  · next hnil => exact absurd hnil hopen
  · next f frames hframes =>
    have hrooted : Rooted (f :: frames) := hframes ▸ ha.rooted
    split at h
    · next heq => cases h; exact Body.atClosing_of_close (by rw [heq])
    · cases h
    · cases h
    · next v ledger hclose =>
      -- the paragraph gives no value, so something is open around what does
      refine atClosing_of_deliver (fun hnil => ?_) h
      have hbottom := hrooted.1.2 (eq_nil_of_splitBreaks hrooted.2 hnil)
      obtain ⟨commands, hcommands⟩ := (Body.kind_of_close (by rw [hclose])).1 hbottom
      cases hcommands

theorem atClosing_of_step (ha : a.Standing) (hn : nest a.tags [part] = some stack)
    (h : (step schema part a).1 = .error e) : e.item.atClosing = false := by
  cases part with
  | opening tag attributes line => exact atClosing_of_openElement h
  | text s line =>
    obtain ⟨tag, visible, rfl⟩ := exists_of_write_error h
    rfl
  | closing tag line =>
    refine atClosing_of_closeElement ha (fun hnil => ?_) h
    rw [tags, hnil] at hn
    cases hn

theorem atClosing_of_run (ha : a.Standing) (hn : nest a.tags parts = some stack)
    (h : (run schema parts a).1 = .error e) : e.item.atClosing = false := by
  induction parts generalizing a with
  | nil => cases h
  | cons part parts ih =>
    rw [nest_cons] at hn
    obtain ⟨stack₁, hpart, hn⟩ := Option.bind_eq_some_iff.1 hn
    rw [run] at h
    split at h
    · next a₁ hstep => exact ih (ha.of_step hstep) (tags_step hpart hstep ▸ hn) h
    · next e' a₁ hstep =>
      cases h
      exact atClosing_of_step ha hpart (by rw [hstep])

end Assembly

end TaggedProse
