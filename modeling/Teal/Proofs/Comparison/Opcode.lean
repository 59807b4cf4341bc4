import Teal.Machine.Opcode
import Teal.Proofs.Comparison
/-!
# Comparing opcodes

Every plain opcode agrees with itself, whatever the comparison: it only looks at values, never at
where they came from, and an unknown operand makes an unknown result. The one exception is `stores`,
which does nothing where the slot is not known: see `agree_stores`.
-/

namespace Teal.Comparison

open Exec

variable {k : Comparison} {α : Type}

theorem forall₂_getElem? {β : Type} {R : α → β → Prop} {as : List α} {bs : List β}
    (h : List.Forall₂ R as bs) (i : Nat) :
    (∃ a b, as[i]? = some a ∧ bs[i]? = some b ∧ R a b) ∨ as[i]? = none ∧ bs[i]? = none := by
  induction h generalizing i with
  | nil => simp
  | cons hab _ ih =>
    cases i with
    | zero => exact .inl ⟨_, _, rfl, rfl, hab⟩
    | succ i => simpa using ih i

theorem forall₂_eraseIdx {β : Type} {R : α → β → Prop} {as : List α} {bs : List β}
    (h : List.Forall₂ R as bs) (i : Nat) : List.Forall₂ R (as.eraseIdx i) (bs.eraseIdx i) := by
  induction h generalizing i with
  | nil => simp
  | cons hab hs ih =>
    cases i with
    | zero => exact hs
    | succ i => exact .cons hab (ih i)

theorem forall₂_set {β : Type} {R : α → β → Prop} {as : List α} {bs : List β} {a : α} {b : β}
    (h : List.Forall₂ R as bs) (hab : R a b) (i : Nat) :
    List.Forall₂ R (as.set i a) (bs.set i b) := by
  induction h generalizing i with
  | nil => exact .nil
  | cons h hs ih =>
    cases i with
    | zero => exact .cons hab hs
    | succ i => exact .cons h (ih i)

theorem forall₂_replicate {β : Type} {R : α → β → Prop} {a : α} {b : β} (hab : R a b) (n : Nat) :
    List.Forall₂ R (List.replicate n a) (List.replicate n b) := by
  induction n with
  | zero => exact .nil
  | succ n ih => exact .cons hab ih

theorem scratchRel_get? {s t : Scratch} (h : k.ScratchRel s t) (slot : Nat) :
    (∃ c d, s.get? slot = some c ∧ t.get? slot = some d ∧ k.CellRel c d) ∨
      s.get? slot = none ∧ t.get? slot = none := by
  by_cases hs : slot < 256
  · exact .inl ⟨s.slots[slot], t.slots[slot], by simp [Scratch.get?, hs],
      by simp [Scratch.get?, hs], h slot hs⟩
  · exact .inr ⟨by simp [Scratch.get?]; omega, by simp [Scratch.get?]; omega⟩

theorem scratchRel_set {s t : Scratch} (h : k.ScratchRel s t) {c d : Cell} (hcd : k.CellRel c d)
    (slot : Nat) (hs : slot < 256) :
    k.ScratchRel ⟨s.slots.set slot c hs⟩ ⟨t.slots.set slot d hs⟩ := by
  intro i hi
  rcases eq_or_ne slot i with rfl | hne
  · simpa using hcd
  · simpa [hne] using h i hi

theorem scratchRel_set? {s t : Scratch} (h : k.ScratchRel s t) {c d : Cell} (hcd : k.CellRel c d)
    (slot : Nat) :
    (∃ u v, s.set? slot c = some u ∧ t.set? slot d = some v ∧ k.ScratchRel u v) ∨
      s.set? slot c = none ∧ t.set? slot d = none := by
  by_cases hs : slot < 256
  · exact .inl ⟨_, _, dif_pos hs, dif_pos hs, scratchRel_set h hcd slot hs⟩
  · exact .inr ⟨dif_neg hs, dif_neg hs⟩

/-! ## Results of an opcode -/

theorem agree_pushMap (site site' : Site) (f : α → Value) {a b : Option α} (h : k.PoppedRel a b) :
    k.Acts (pushMap site f a) (pushMap site' f b) := by
  rcases h with rfl | ⟨hb, rfl⟩
  · cases a with
    | none => exact agree_push _ _ (valueRel_refl _)
    | some a => exact agree_push _ _ (valueRel_refl _)
  · cases a with
    | none => exact agree_push _ _ (valueRel_refl _)
    | some a => exact agree_push _ _ (.inr ⟨hb, rfl⟩)

/-- Pushing a value that has passed a check. -/
theorem agree_checked (site site' : Site) (e : Fault) (v : Value) (bad : Prop) [Decidable bad] :
    k.Acts (if bad then throw e else push site v) (if bad then throw e else push site' v) := by
  split
  · exact agree_throw e
  · exact agree_push _ _ (valueRel_refl v)

/-- Pushing a checked value, where the right side does not know enough to check it. -/
theorem agree_checked_unknown (site site' : Site) (e : Fault) (v : Value) (bad : Prop)
    [Decidable bad] (hb : k.blurred) :
    k.Acts (if bad then throw e else push site v) (push site' .unknown) := by
  split
  · exact agree_excused (k.excused_of_blurred hb e)
  · exact agree_push _ _ (.inr ⟨hb, rfl⟩)

/-- An opcode of two operands, whose result is unknown where one of them is. -/
theorem agree_both (site' : Site) {a a' b b' : Option α} (ha : k.PoppedRel a a')
    (hb : k.PoppedRel b b') {m m' : Option α → Option α → Exec Unit}
    (hsame : ∀ a b, k.Acts (m a b) (m' a b))
    (hblur : k.blurred → ∀ a b, k.Acts (m a b) (push site' .unknown))
    (hleft : ∀ b, m' none b = push site' .unknown) (hright : ∀ a, m' a none = push site' .unknown) :
    k.Acts (m a b) (m' a' b') := by
  rcases ha with rfl | ⟨hbl, rfl⟩
  · rcases hb with rfl | ⟨hbl, rfl⟩
    · exact hsame a b
    · rw [hright]
      exact hblur hbl a b
  · rw [hleft]
    exact hblur hbl a b

/-- Storing in a slot that is known on both sides. -/
theorem agree_storeIn (name : String) {c d : Cell} (h : k.CellRel c d) (slot : UInt64) :
    k.Acts
      (do match (← get).scratch.set? slot.toNat c with
          | some scratch => modify ({ · with scratch })
          | none => throw (.outOfRange name slot.toInt64.toInt))
      (do match (← get).scratch.set? slot.toNat d with
          | some scratch => modify ({ · with scratch })
          | none => throw (.outOfRange name slot.toInt64.toInt)) := by
  refine agree_bind agree_get fun s t hst => ?_
  rcases scratchRel_set? hst.scratch h slot.toNat with ⟨u, v, hu, hv, huv⟩ | ⟨hu, hv⟩
  · rw [hu, hv]
    exact agree_setScratch huv
  · rw [hu, hv]
    exact agree_throw _

section
variable {site site' : Site} (hname : site.name = site'.name)
include hname

theorem agree_immediate (immediates : List String) (i : Nat) :
    k.Agree (immediate site immediates i) (immediate site' immediates i) Eq := by
  unfold immediate
  rw [hname]
  split
  · exact agree_pure rfl
  · exact agree_throw _

theorem agree_binary (op : BinaryOp) : k.Acts (binary site op) (binary site' op) := by
  unfold binary
  rw [hname]
  refine agree_bind (agree_popUint _) fun b b' hb => agree_bind (agree_popUint _) fun a a' ha => ?_
  apply agree_both site' ha hb
  · intro a b
    rcases a with _ | a <;> rcases b with _ | b <;> try exact agree_push _ _ (valueRel_refl _)
    dsimp only
    cases op.apply a b with
    | ok n => exact agree_push _ _ (valueRel_refl _)
    | error e => exact agree_throw e
  · intro hbl a b
    rcases a with _ | a <;> rcases b with _ | b <;> try exact agree_push _ _ (valueRel_refl _)
    dsimp only
    cases op.apply a b with
    | ok n => exact agree_push _ _ (.inr ⟨hbl, rfl⟩)
    | error e => exact agree_excused (k.excused_of_blurred hbl e)
  · exact fun _ => rfl
  · intro a
    cases a <;> rfl

theorem agree_concat : k.Acts (concat site) (concat site') := by
  unfold concat
  rw [hname]
  refine agree_bind (agree_popBytes _) fun b b' hb => ?_
  refine agree_bind (agree_popBytes _) fun a a' ha => ?_
  apply agree_both site' ha hb
  · intro a b
    rcases a with _ | a <;> rcases b with _ | b <;> try exact agree_push _ _ (valueRel_refl _)
    exact agree_checked _ _ _ _ _
  · intro hbl a b
    rcases a with _ | a <;> rcases b with _ | b <;> try exact agree_push _ _ (valueRel_refl _)
    exact agree_checked_unknown _ _ _ _ _ hbl
  · exact fun _ => rfl
  · intro a
    cases a <;> rfl

theorem agree_compare (wanted : Bool) :
    k.Acts (Exec.compare site wanted) (Exec.compare site' wanted) := by
  unfold Exec.compare
  rw [hname]
  refine agree_bind (agree_pop _) fun b b' hb => agree_bind (agree_pop _) fun a a' ha => ?_
  have hcells : List.Forall₂ k.CellRel [a, b] [a', b'] := .cons ha (.cons hb .nil)
  rcases unknown_cases hcells with ⟨hu, hu'⟩ | ⟨hs, hu'⟩
  · -- An operand is unknown on the right, which pushes an unknown result without checking types.
    simp only [List.any_cons, List.any_nil, Bool.or_false] at hu hu'
    simp only [hu', if_true]
    split
    · exact agree_push _ _ (valueRel_refl _)
    · exact agree_checked_unknown _ _ _ _ _ (hu.resolve_left ‹_›)
  · have hu := any_isUnknown_congr hs
    cases hs with | cons ea hs => cases hs with | cons eb _ =>
    rw [hu'] at hu
    simp only [List.any_cons, List.any_nil, Bool.or_false] at hu hu'
    simp only [hu, hu', ea, eb, Bool.false_eq_true, if_false]
    exact agree_checked _ _ _ _ _

theorem agree_btoi : k.Acts (btoi site) (btoi site') := by
  unfold btoi
  rw [hname]
  refine agree_bind (agree_popBytes _) fun b b' hb => ?_
  rcases hb with rfl | ⟨hbl, rfl⟩
  · cases b with
    | none => exact agree_push _ _ (valueRel_refl _)
    | some b => exact agree_checked _ _ _ _ _
  · cases b with
    | none => exact agree_push _ _ (valueRel_refl _)
    | some b => exact agree_checked_unknown _ _ _ _ _ hbl

theorem agree_slice (start : Nat) (stop : Nat → Nat) :
    k.Acts (slice site start stop) (slice site' start stop) := by
  unfold slice
  rw [hname]
  refine agree_bind (agree_popBytes _) fun b b' hb => ?_
  rcases hb with rfl | ⟨hbl, rfl⟩
  · cases b with
    | none => exact agree_push _ _ (valueRel_refl _)
    | some b => exact agree_checked _ _ _ _ _
  · cases b with
    | none => exact agree_push _ _ (valueRel_refl _)
    | some b => exact agree_checked_unknown _ _ _ _ _ hbl

theorem agree_select : k.Acts (select site) (select site') := by
  unfold select
  rw [hname]
  refine agree_bind (agree_popUint _) fun c c' hc => agree_bind (agree_pop _) fun b b' hb =>
    agree_bind (agree_pop _) fun a a' ha => ?_
  rcases hc with rfl | ⟨hbl, rfl⟩
  · cases c with
    | none => exact agree_push _ _ (valueRel_refl _)
    | some n =>
      dsimp only
      split
      · exact agree_pushCell ha
      · exact agree_pushCell hb
  · cases c with
    | none => exact agree_push _ _ (valueRel_refl _)
    | some n => exact agree_pushCell (.inr ⟨hbl, rfl⟩)

theorem agree_assert : k.Acts (Exec.assert site) (Exec.assert site') := by
  unfold Exec.assert
  rw [hname]
  refine agree_bind (agree_popUint _) fun c c' hc => ?_
  rcases hc with rfl | ⟨hbl, rfl⟩
  · cases c with
    | none => exact agree_pure trivial
    | some n =>
      dsimp only
      split
      · exact agree_throw _
      · exact agree_pure trivial
  · cases c with
    | none => exact agree_pure trivial
    | some n =>
      dsimp only
      split
      · exact agree_excused (k.excused_of_blurred hbl _)
      · exact agree_pure trivial

/-! ## Moving values about -/

theorem agree_dig (depth : Nat) : k.Acts (dig site depth) (dig site' depth) := by
  unfold dig
  rw [hname]
  refine agree_bind agree_stack fun cs ds hs => ?_
  rcases forall₂_getElem? hs depth with ⟨c, d, hc, hd, hcd⟩ | ⟨hc, hd⟩
  · rw [hc, hd]
    exact agree_pushCell hcd
  · rw [hc, hd]
    exact agree_throw _

theorem agree_cover (depth : Nat) : k.Acts (cover site depth) (cover site' depth) := by
  unfold cover
  rw [hname]
  refine agree_bind (agree_pop _) fun c d hcd => agree_bind agree_stack fun cs ds hs => ?_
  rw [hs.length_eq]
  split
  · exact agree_throw _
  · exact agree_setStack (List.rel_append (List.forall₂_take depth hs)
      (.cons hcd (List.forall₂_drop depth hs)))

theorem agree_uncover (depth : Nat) : k.Acts (uncover site depth) (uncover site' depth) := by
  unfold uncover
  rw [hname]
  refine agree_bind agree_stack fun cs ds hs => ?_
  rcases forall₂_getElem? hs depth with ⟨c, d, hc, hd, hcd⟩ | ⟨hc, hd⟩
  · rw [hc, hd]
    exact agree_setStack (.cons hcd (forall₂_eraseIdx hs depth))
  · rw [hc, hd]
    exact agree_throw _

theorem agree_bury (depth : Nat) : k.Acts (bury site depth) (bury site' depth) := by
  unfold bury
  rw [hname]
  split
  · exact agree_throw _
  · refine agree_bind (agree_pop _) fun c d hcd => agree_bind agree_stack fun cs ds hs => ?_
    rw [hs.length_eq]
    split
    · exact agree_setStack (forall₂_set hs hcd _)
    · exact agree_throw _

theorem agree_dupn (count : Nat) : k.Acts (dupn site count) (dupn site' count) := by
  unfold dupn
  rw [hname]
  exact agree_bind (agree_pop _) fun c d hcd => agree_bind agree_stack fun cs ds hs =>
    agree_setStack (List.rel_append (forall₂_replicate hcd _) hs)

/-! ## Scratch space -/

theorem agree_loads : k.Acts (loads site) (loads site') := by
  unfold loads
  rw [hname]
  refine agree_bind (agree_popUint _) fun n n' hn => ?_
  rcases hn with rfl | ⟨hbl, rfl⟩
  · cases n with
    | none => exact agree_push _ _ (valueRel_refl _)
    | some slot =>
      refine agree_bind agree_get fun s t hst => ?_
      rcases scratchRel_get? hst.scratch slot.toNat with ⟨c, d, hc, hd, hcd⟩ | ⟨hc, hd⟩
      · rw [hc, hd]
        exact agree_pushCell hcd
      · rw [hc, hd]
        exact agree_throw _
  · cases n with
    | none => exact agree_push _ _ (valueRel_refl _)
    | some slot =>
      -- The right side does not look at its scratch space at all.
      refine agree_get_left fun s => ?_
      cases s.scratch.get? slot.toNat with
      | some c => exact agree_pushCell (.inr ⟨hbl, rfl⟩)
      | none => exact agree_excused (k.excused_of_blurred hbl _)

/-- `stores` agrees with itself unless the slot it stores in is not known on the right: then it
stores nothing there, and may have stored something on the left. -/
theorem agree_stores {s t : State} (hst : k.StateRel s t)
    (hslot : k.blurred → ∀ c d rest, t.thread.stack = c :: d :: rest → d.isUnknown = false) :
    k.ResultRel (fun _ _ => True) ((stores site).run s) ((stores site').run t) := by
  -- What is excluded is a property of the stack before the opcode pops anything, so the states are
  -- opened here instead of going through the two pops by `agree_bind`.
  obtain ⟨⟨cs, fs, a⟩, u⟩ := s
  obtain ⟨⟨ds, gs, b⟩, v⟩ := t
  obtain ⟨hs, hf, hcall, huv⟩ := hst
  dsimp only at hs hf hcall huv hslot
  unfold stores
  rw [hname]
  rcases hs with _ | ⟨hc, _ | ⟨hn, hrest⟩⟩
  · exact .error ⟨.nil, hf, hcall, huv⟩
  · exact .error ⟨.nil, hf, hcall, huv⟩
  · rename_i c d n m rest rest'
    have hnm : n.value = m.value := by
      by_cases hb : k.blurred
      · exact CellRel.known hn (hslot hb _ _ _ rfl)
      · exact hn.resolve_right fun h => hb h.1
    obtain ⟨nv, no⟩ := n
    obtain ⟨mv, mo⟩ := m
    cases hnm
    have hst : k.StateRel ⟨⟨rest, fs, a⟩, u⟩ ⟨⟨rest', gs, b⟩, v⟩ := ⟨hrest, hf, hcall, huv⟩
    cases nv with
    | uint slot => exact agree_storeIn site'.name hc slot hst
    | unknown => exact .ok trivial hst
    | absent => exact .error hst
    | bytes _ => exact .error hst

/-! ## All plain opcodes -/

theorem agree_pushAll (read? : List Char → Option Value) (immediates : List String) :
    k.Acts (pushAll site read? immediates) (pushAll site' read? immediates) := by
  induction immediates with
  | nil => exact agree_pure trivial
  | cons raw rest ih =>
    unfold pushAll
    rw [hname]
    cases read? raw.toList with
    | some v => exact agree_bind (agree_push _ _ (valueRel_refl v)) fun _ _ _ => ih
    | none => exact agree_throw _

theorem agree_compute (immediates : List String) {op : Opcode} (hop : op ≠ .stores) :
    k.Acts (compute site immediates op) (compute site' immediates op) := by
  have himm := fun i => agree_immediate (k := k) hname immediates i
  cases op with
  | stores => exact absurd rfl hop
  | binary op => exact agree_binary hname op
  | equal => exact agree_compare hname true
  | notEqual => exact agree_compare hname false
  | btoi => exact agree_btoi hname
  | concat => exact agree_concat hname
  | select => exact agree_select hname
  | assert => exact agree_assert hname
  | loads => exact agree_loads hname
  | pushints => exact agree_pushAll hname _ immediates
  | pushbytess => exact agree_pushAll hname _ immediates
  | not | complement | itob =>
    simp only [compute, hname]
    exact agree_bind (agree_popUint _) fun _ _ h => agree_pushMap _ _ _ h
  | len =>
    simp only [compute, hname]
    exact agree_bind (agree_popBytes _) fun _ _ h => agree_pushMap _ _ _ h
  | substring | extract =>
    refine agree_bind (himm 0) fun a _ h => agree_bind (himm 1) fun b _ h' => ?_
    subst h h'
    exact agree_slice hname _ _
  | pop =>
    simp only [compute, hname]
    exact agree_bind (agree_pop _) fun _ _ _ => agree_pure trivial
  | dup =>
    simp only [compute, hname]
    exact agree_bind (agree_pop _) fun _ _ h => agree_bind agree_stack fun _ _ hs =>
      agree_setStack (.cons h (.cons h hs))
  | dup2 =>
    simp only [compute, hname]
    exact agree_bind (agree_pop _) fun _ _ hb => agree_bind (agree_pop _) fun _ _ ha =>
      agree_bind agree_stack fun _ _ hs =>
        agree_setStack (.cons hb (.cons ha (.cons hb (.cons ha hs))))
  | swap =>
    simp only [compute, hname]
    exact agree_bind (agree_pop _) fun _ _ hb => agree_bind (agree_pop _) fun _ _ ha =>
      agree_bind agree_stack fun _ _ hs => agree_setStack (.cons ha (.cons hb hs))
  | dig => exact agree_bind (himm 0) fun n _ h => h ▸ agree_dig hname n
  | cover => exact agree_bind (himm 0) fun n _ h => h ▸ agree_cover hname n
  | uncover => exact agree_bind (himm 0) fun n _ h => h ▸ agree_uncover hname n
  | bury => exact agree_bind (himm 0) fun n _ h => h ▸ agree_bury hname n
  | dupn => exact agree_bind (himm 0) fun n _ h => h ▸ agree_dupn hname n
  | popn =>
    simp only [compute, hname]
    refine agree_bind (himm 0) fun n _ h => ?_
    subst h
    exact agree_bind (agree_popMany _ n) fun _ _ _ => agree_pure trivial

theorem agree_popTyped (types : List StackType) :
    k.Acts (popTyped site types) (popTyped site' types) := by
  induction types with
  | nil => exact agree_pure trivial
  | cons expected rest ih =>
    unfold popTyped
    rw [hname]
    refine agree_bind (agree_pop _) fun c d hcd => ?_
    rcases hcd with h | ⟨hb, h⟩
    · rw [h]
      split
      · exact ih
      · exact agree_throw _
    · rw [h]
      split
      · exact ih
      · exact agree_excused (k.excused_of_blurred hb _)

omit hname in
theorem agree_pushUnknown (n : Nat) : k.Acts (pushUnknown site n) (pushUnknown site' n) := by
  induction n with
  | zero => exact agree_pure trivial
  | succ n ih => exact agree_bind (agree_push _ _ (valueRel_refl _)) fun _ _ _ => ih

theorem agree_symbolic (catalog : Catalog) :
    k.Acts (symbolic site catalog) (symbolic site' catalog) := by
  unfold symbolic
  rw [hname]
  cases catalog.find? site'.name with
  | some spec => exact agree_bind (agree_popTyped hname _) fun _ _ _ => agree_pushUnknown _
  | none => exact agree_throw _

/-- A plain opcode on compared states, unless it is a `stores` into a slot that is not known on the
right. -/
theorem plain_rel (catalog : Catalog) (immediates : List String) {s t : State}
    (hst : k.StateRel s t) (hslot : k.blurred → site.name = Opcode.stores.name →
      ∀ c d rest, t.thread.stack = c :: d :: rest → d.isUnknown = false) :
    k.ResultRel (fun _ _ => True) ((plain site catalog immediates).run s)
      ((plain site' catalog immediates).run t) := by
  unfold plain
  rw [hname] at hslot ⊢
  cases h : Opcode.ofName? site'.name with
  | none => exact agree_symbolic hname catalog hst
  | some op =>
    by_cases hop : op = .stores
    · subst hop
      exact agree_stores hname hst fun hb => hslot hb (Opcode.name_of_ofName? h).symm
    · exact agree_compute hname immediates hop hst

end

end Teal.Comparison
