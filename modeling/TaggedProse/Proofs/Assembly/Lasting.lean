import TaggedProse.Proofs.Assembly.Standing

/-! What lasts while a paragraph is assembled: a property of frames that new frames have, and that a frame keeps when
it opens a child, takes up text or takes up a value, is a property of all open elements, also after parts that
failed. -/
namespace TaggedProse
variable {schema : Schema} {P : Part → Prop} {K : Frame → Prop} {tag : String} {line : Nat} {s : List Char}
  {attributes : List (String × String)} {breaks below : List Frame} {frame child : Frame} {body : Body}

/-- New frames have the property `K`, and the operations on bodies keep it while the parts satisfy `P`. -/
structure Frame.Lasts (schema : Schema) (P : Part → Prop) (K : Frame → Prop) : Prop where
  paragraph : ∀ line, K ⟨paragraphTag, line, false, .paragraph none []⟩
  parent : ∀ f tag attributes line l, P (.opening tag attributes line) → K f →
    K { f with body := (f.body.openChild schema f.tag tag attributes line l).parent }
  child : ∀ f tag attributes line l body, K f →
    (f.body.openChild schema f.tag tag attributes line l).child = .ok body →
      K ⟨tag, line, (f.body.openChild schema f.tag tag attributes line l).item, body⟩
  write : ∀ f s line body, P (.text s line) → K f → f.body.write f.tag s line = .ok body → K { f with body }
  accept : ∀ f child v l body l', K f → f.body.accept f.tag child v l = (.ok body, l') → K { f with body }

theorem Frame.forall_replace {f : Frame} (h : ∀ f ∈ breaks ++ frame :: below, K f) (hf : K f) :
    ∀ g ∈ breaks ++ f :: below, K g := by
  intro g hg
  rcases List.mem_append.1 hg with hg | hg
  · exact h g (List.mem_append_left _ hg)
  · rcases List.mem_cons.1 hg with rfl | hg
    · exact hf
    · exact h g (by simp [hg])

namespace Assembly
variable {a : Assembly}

theorem lasts_openElement (hK : Frame.Lasts schema P K) (hpart : P (.opening tag attributes line))
    (h : ∀ f ∈ a.frames, K f) :
    ∀ f ∈ (openElement schema tag attributes line a).2.frames, K f := by
  unfold openElement
  split
  · split
    · exact h
    · next hroot =>
      simp only [Bool.or_eq_true, not_or, bne_iff_ne, ne_eq, not_not] at hroot
      exact List.forall_mem_cons.2 ⟨hroot.2 ▸ hK.paragraph line, h⟩
  · next breaks around below heq =>
    have hframes : ∀ f ∈ breaks ++ around :: below, K f := eq_append_of_splitBreaks heq ▸ h
    have haround : K around := hframes around (by simp)
    have hparent := Frame.forall_replace hframes (hK.parent _ _ _ _ a.ledger hpart haround)
    dsimp only
    split
    · exact hparent
    · next body hbody => exact List.forall_mem_cons.2 ⟨hK.child _ _ _ _ _ _ haround hbody, hparent⟩

theorem lasts_write (hK : Frame.Lasts schema P K) (hpart : P (.text s line)) (h : ∀ f ∈ a.frames, K f) :
    ∀ f ∈ (write s line a).2.frames, K f := by
  unfold write
  split
  · exact h
  · next breaks around below heq =>
    have hframes : ∀ f ∈ breaks ++ around :: below, K f := eq_append_of_splitBreaks heq ▸ h
    split
    · exact h
    · next body hbody =>
      exact Frame.forall_replace hframes (hK.write _ _ _ _ hpart (hframes around (by simp)) hbody)

theorem lasts_deliver {v : Value} (hK : Frame.Lasts schema P K) (h : ∀ f ∈ a.frames, K f) :
    ∀ f ∈ (deliver tag line child v a).2.frames, K f := by
  unfold deliver
  split
  · exact h
  · next breaks around below heq =>
    have hframes : ∀ f ∈ breaks ++ around :: below, K f := eq_append_of_splitBreaks heq ▸ h
    split
    · exact h
    · next body ledger haccept =>
      exact Frame.forall_replace hframes (hK.accept _ _ _ _ _ _ (hframes around (by simp)) haccept)

theorem lasts_closeElement (hK : Frame.Lasts schema P K) (h : ∀ f ∈ a.frames, K f) :
    ∀ f ∈ (closeElement schema tag line a).2.frames, K f := by
  unfold closeElement
  split
  · exact h
  · next f frames hframes =>
    have hbelow : ∀ g ∈ frames, K g := fun g hg => h g (by rw [hframes]; exact List.mem_cons_of_mem _ hg)
    split
    · exact hbelow
    · exact hbelow
    · exact hbelow
    · exact lasts_deliver hK hbelow

theorem lasts_step {part : Part} (hK : Frame.Lasts schema P K) (hpart : P part) (h : ∀ f ∈ a.frames, K f) :
    ∀ f ∈ (step schema part a).2.frames, K f := by
  cases part with
  | opening tag attributes line => exact lasts_openElement hK hpart h
  | text s line => exact lasts_write hK hpart h
  | closing tag line => exact lasts_closeElement hK h

/-! ### Going on after failures -/

/-- Takes all parts one after the other, on from where the assembly stands after one that fails. -/
def persist (schema : Schema) (parts : List Part) (a : Assembly) : Assembly :=
  parts.foldl (fun a part => (step schema part a).2) a

theorem lasts_persist {parts : List Part} (hK : Frame.Lasts schema P K) (hparts : ∀ part ∈ parts, P part)
    (h : ∀ f ∈ a.frames, K f) : ∀ f ∈ (persist schema parts a).frames, K f := by
  induction parts generalizing a with
  | nil => exact h
  | cons part parts ih =>
    obtain ⟨hpart, hparts⟩ := List.forall_mem_cons.1 hparts
    exact ih hparts (lasts_step hK hpart h)

end Assembly

end TaggedProse
