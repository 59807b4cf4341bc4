import Teal.Machine.Instruction
import Teal.Proofs.Comparison.Opcode
/-!
# Comparing lines

A line of one listing and the same line of another, perhaps with its references renamed, agree if
the lines after them and the places their labels are declared at correspond.
-/

namespace Teal

namespace Op

variable {ι : Type}

theorem mnemonic?_retarget (f : ι → ι) (op : Op ι) : (op.retarget f).mnemonic? = op.mnemonic? := by
  cases op <;> rfl

theorem isCall_retarget (f : ι → ι) (op : Op ι) : (op.retarget f).isCall = op.isCall := by
  cases op <;> rfl

theorem isExecutable_retarget (f : ι → ι) (op : Op ι) :
    (op.retarget f).isExecutable = op.isExecutable := by
  cases op <;> rfl

theorem declared?_retarget (f : ι → ι) (op : Op ι) : (op.retarget f).declared? = op.declared? := by
  cases op <;> rfl

theorem retarget_id (op : Op ι) : op.retarget id = op := by
  cases op <;> simp [retarget]

end Op

/-- The lines at which control may go on. -/
def Effect.lines : Effect → List Nat
  | .goto pc => [pc]
  | .fork pc others => pc :: others
  | .halt _ => []

namespace Comparison

open Exec

variable (k : Comparison)

/-- Where control goes on, on both sides. Where the right side knows less it may go several ways,
one of which is the way of the left side, and its verdict may be unknown. -/
inductive EffectRel : Effect → Effect → Prop
  | goto {i j} : k.line i j → EffectRel (.goto i) (.goto j)
  | fork {i j is js} : List.Forall₂ k.line (i :: is) (j :: js) → EffectRel (.fork i is) (.fork j js)
  | taken {i j j' js} : k.blurred → j' ∈ j :: js → k.line i j' → EffectRel (.goto i) (.fork j js)
  | halt {a b} : k.PoppedRel a b → EffectRel (.halt a) (.halt b)

/-- Labels `id` of the one listing and `id'` of the other are declared at corresponding lines, or
nowhere under the same name. -/
def LabelRel (l l' : Listing) (id id' : LabelId) : Prop :=
  (∃ i j, l.target? id = some i ∧ l'.target? id' = some j ∧ k.line i j) ∨
    l.target? id = none ∧ l'.target? id' = none ∧ l.labels.name id = l'.labels.name id'

variable {k} {l l' : Listing} {f : LabelId → LabelId} {site site' : Site}

theorem agree_resolve {id id' : LabelId} (h : k.LabelRel l l' id id') :
    k.Agree (resolve l id) (resolve l' id') k.line := by
  unfold resolve
  rcases h with ⟨i, j, hi, hj, hij⟩ | ⟨hi, hj, hname⟩
  · rw [hi, hj]
    exact agree_pure hij
  · rw [hi, hj, hname]
    exact agree_throw _

theorem agree_resolveAll {ids : List LabelId} (h : ∀ id ∈ ids, k.LabelRel l l' id (f id)) :
    k.Agree (resolveAll l ids) (resolveAll l' (ids.map f)) (List.Forall₂ k.line) := by
  induction ids with
  | nil => exact agree_pure .nil
  | cons id ids ih =>
    exact agree_bind (agree_resolve (h id List.mem_cons_self)) fun _ _ hi =>
      agree_bind (ih fun id' h' => h id' (List.mem_cons_of_mem id h')) fun _ _ his =>
        agree_pure (.cons hi his)

theorem agree_andNext (hnext : k.line (site.pc + 1) (site'.pc + 1)) {x y : Exec Unit}
    (h : k.Acts x y) : k.Agree (andNext site x) (andNext site' y) k.EffectRel :=
  agree_bind h fun _ _ _ => agree_pure (.goto hnext)

theorem agree_proto (hnext : k.line (site.pc + 1) (site'.pc + 1)) (args results : Nat) :
    k.Agree (proto site args results) (proto site' args results) k.EffectRel := by
  refine agree_bind agree_get fun s t hst => ?_
  dsimp only
  generalize hfs : s.thread.frames = fs, hgs : t.thread.frames = gs
  have hframes := hst.frames
  rw [hfs, hgs] at hframes
  cases hframes with
  | nil => exact agree_throw _
  | @cons f g fs gs hfg hrest =>
    dsimp only
    rcases k.call_cases hst.call with heq | ⟨hcall, he⟩
    · rw [heq, hfg.declared, hfg.sp]
      split
      · split
        · exact agree_throw _
        · refine agree_bind (agree_setFrames (.cons ?_ hrest)) fun _ _ _ => agree_pure (.goto hnext)
          exact ⟨hfg.line, rfl, rfl, rfl, rfl⟩
      · exact agree_throw _
    · -- The left side has no mark of a call: it fails, and that is excused.
      rw [hcall]
      exact agree_excused he

theorem agree_retsub : k.Agree retsub retsub k.EffectRel := by
  refine agree_bind agree_get fun s t hst => ?_
  generalize hfs : s.thread.frames = fs, hgs : t.thread.frames = gs
  have hframes := hst.frames
  rw [hfs, hgs] at hframes
  cases hframes with
  | nil => exact agree_throw _
  | @cons f g fs gs hfg hrest =>
    refine agree_bind (agree_setFrames hrest) fun _ _ _ => ?_
    dsimp only
    rw [hfg.declared]
    split
    · refine agree_bind agree_stack fun cs ds hs => ?_
      rw [hs.length_eq, hfg.sp, hfg.args, hfg.results]
      split
      · exact agree_bind (Q := fun _ _ => True) (agree_throw _) fun _ _ _ =>
          agree_pure (.goto hfg.line)
      · exact agree_bind
          (agree_setStack (List.rel_append (List.forall₂_take _ hs) (List.forall₂_drop _ hs)))
          fun _ _ _ => agree_pure (.goto hfg.line)
    · exact agree_pure (.goto hfg.line)

theorem exists_right {α β : Type} {R : α → β → Prop} {as : List α} {bs : List β}
    (h : List.Forall₂ R as bs) {a : α} (ha : a ∈ as) : ∃ b ∈ bs, R a b := by
  induction h with
  | nil => cases ha
  | cons hab _ ih =>
    rcases List.mem_cons.1 ha with rfl | ha
    · exact ⟨_, List.mem_cons_self, hab⟩
    · obtain ⟨b, hb, hr⟩ := ih ha
      exact ⟨b, List.mem_cons_of_mem _ hb, hr⟩

theorem agree_switch (hname : site.name = site'.name)
    (hnext : k.line (site.pc + 1) (site'.pc + 1)) {is js : List Nat}
    (h : List.Forall₂ k.line is js) :
    k.Agree (switch site is) (switch site' js) k.EffectRel := by
  unfold switch
  rw [hname]
  refine agree_bind (agree_popUint _) fun n n' hn => ?_
  rcases hn with rfl | ⟨hb, rfl⟩
  · cases n with
    | none => exact agree_pure (.fork (.cons hnext h))
    | some n =>
      rcases forall₂_getElem? h n.toNat with ⟨i, j, hi, hj, hij⟩ | ⟨hi, hj⟩
      · simp only [hi, hj, Option.getD_some]
        exact agree_pure (.goto hij)
      · simp only [hi, hj, Option.getD_none]
        exact agree_pure (.goto hnext)
  · cases n with
    | none => exact agree_pure (.fork (.cons hnext h))
    | some n =>
      -- The right side goes all ways, and the one way of the left side is among them.
      rcases forall₂_getElem? h n.toNat with ⟨i, j, hi, hj, hij⟩ | ⟨hi, -⟩
      · simp only [hi, Option.getD_some]
        exact agree_pure (.taken hb (List.mem_cons_of_mem _ (List.mem_of_getElem? hj)) hij)
      · simp only [hi, Option.getD_none]
        exact agree_pure (.taken hb List.mem_cons_self hnext)

/-- The target of the first case equal to a value, or a place to go on at if there is none. -/
theorem line_hit {v : Value} {cs ds : List Cell} (hs : List.Forall₂ (·.value = ·.value) cs ds)
    {is js : List Nat} (h : List.Forall₂ k.line is js) {i j : Nat} (hij : k.line i j) :
    k.line ((((cs.zip is).find? fun (c, _) => c.value == v).map Prod.snd).getD i)
      ((((ds.zip js).find? fun (d, _) => d.value == v).map Prod.snd).getD j) := by
  induction hs generalizing is js with
  | nil => exact hij
  | @cons c d cs ds hcd _ ih =>
    cases h with
    | nil => exact hij
    | cons h hrest =>
      simp only [List.zip_cons_cons, List.find?_cons, hcd]
      split
      · exact h
      · exact ih hrest

theorem hit_mem (cs : List Cell) (is : List Nat) (v : Value) (i : Nat) :
    (((cs.zip is).find? fun (c, _) => c.value == v).map Prod.snd).getD i ∈ i :: is := by
  cases h : (cs.zip is).find? fun (c, _) => c.value == v with
  | none => exact List.mem_cons_self
  | some p => exact List.mem_cons_of_mem _ (List.of_mem_zip (List.mem_of_find?_eq_some h)).2

theorem agree_matchCases (hname : site.name = site'.name)
    (hnext : k.line (site.pc + 1) (site'.pc + 1)) {is js : List Nat}
    (h : List.Forall₂ k.line is js) :
    k.Agree (matchCases site is) (matchCases site' js) k.EffectRel := by
  unfold matchCases
  rw [hname, h.length_eq]
  refine agree_bind (agree_pop _) fun c d hcd => agree_bind (agree_popMany _ _) fun cs ds hs => ?_
  rcases unknown_cases (List.Forall₂.cons hcd hs) with ⟨hu, hu'⟩ | ⟨hv, hu'⟩
  · simp only [List.any_cons] at hu hu'
    simp only [hu', if_true]
    split
    · exact agree_pure (.fork (.cons hnext h))
    · have hb := hu.resolve_left ‹_›
      obtain ⟨j, hj, hij⟩ :=
        exists_right (List.Forall₂.cons hnext h) (hit_mem cs.reverse is c.value _)
      exact agree_pure (.taken hb hj hij)
  · have hu := any_isUnknown_congr hv
    rw [hu'] at hu
    cases hv with | cons hc hv =>
    simp only [List.any_cons] at hu hu'
    simp only [hu, hu', hc, Bool.false_eq_true, if_false]
    exact agree_pure (.goto (line_hit (List.forall₂_reverse_iff.2 hv) h hnext))

/-! ## Frames and scratch slots -/

theorem agree_frameIndex (hname : site.name = site'.name) (offset : Int8) :
    k.Agree (frameIndex site offset) (frameIndex site' offset) Eq := by
  unfold frameIndex
  rw [hname]
  refine agree_bind agree_get fun s t hst => ?_
  generalize hfs : s.thread.frames = fs, hgs : t.thread.frames = gs
  have hframes := hst.frames
  rw [hfs, hgs] at hframes
  cases hframes with
  | nil => exact agree_throw _
  | @cons f g fs gs hfg hrest =>
    dsimp only
    rw [hfg.declared, hfg.sp, hfg.args]
    split
    · split
      · exact agree_throw _
      · exact agree_pure rfl
    · exact agree_throw _

theorem agree_frameDig (hname : site.name = site'.name) (offset : Int8) :
    k.Acts (frameDig site offset) (frameDig site' offset) := by
  refine agree_bind (agree_frameIndex hname offset) fun i _ hi => ?_
  subst hi
  refine agree_bind agree_stack fun cs ds hs => ?_
  -- Frames count from the bottom of the stack, so both stacks are turned round.
  by_cases h : i < cs.length
  · have h' : i < ds.length := hs.length_eq ▸ h
    rw [dif_pos h, dif_pos h']
    exact agree_pushCell ((List.forall₂_reverse_iff.2 hs).get _ _)
  · have h' : ¬i < ds.length := hs.length_eq ▸ h
    rw [dif_neg h, dif_neg h', hname]
    exact agree_throw _

theorem agree_frameBury (hname : site.name = site'.name) (offset : Int8) :
    k.Acts (frameBury site offset) (frameBury site' offset) := by
  unfold frameBury
  rw [hname]
  refine agree_bind (agree_pop _) fun c d hcd =>
    agree_bind (agree_frameIndex hname offset) fun i _ hi => ?_
  subst hi
  refine agree_bind agree_stack fun cs ds hs => ?_
  rw [hs.length_eq]
  split
  · exact agree_setStack
      (List.forall₂_reverse_iff.2 (forall₂_set (List.forall₂_reverse_iff.2 hs) hcd i))
  · exact agree_throw _

theorem agree_load (slot : UInt8) : k.Acts (load slot) (load slot) :=
  agree_bind agree_get fun _ _ hst => agree_pushCell (hst.scratch slot.toNat slot.toNat_lt)

theorem agree_store (hname : site.name = site'.name) (slot : UInt8) :
    k.Acts (store site slot) (store site' slot) := by
  unfold store
  rw [hname]
  exact agree_bind (agree_pop _) fun c d hcd s t hst =>
    .ok trivial { hst with scratch := scratchRel_set hst.scratch hcd slot.toNat slot.toNat_lt }

/-! ## Whole lines -/

/-- `stores` is about to be executed, and the slot to store in is not known. -/
def BlindStore (op : Op LabelId) (t : State) : Prop :=
  op.mnemonic? = some Opcode.stores.name ∧
    ∃ c d rest, t.thread.stack = c :: d :: rest ∧ d.isUnknown = true

/-- Going one of two ways by a popped number, and both ways where it is not known. -/
theorem agree_eitherWay {n n' : Option UInt64} (hn : k.PoppedRel n n') {i j next next' : Nat}
    (hij : k.line i j) (hnext : k.line next next') {way way' : UInt64 → Nat}
    (hway : ∀ n, way n = i ∧ way' n = j ∨ way n = next ∧ way' n = next') :
    k.Agree (match n with | some n => pure (.goto (way n)) | none => pure (.fork next [i]))
      (match n' with | some n => pure (.goto (way' n)) | none => pure (.fork next' [j]))
      k.EffectRel := by
  cases n with
  | none =>
    rcases hn with rfl | ⟨-, rfl⟩ <;> exact agree_pure (.fork (.cons hnext (.cons hij .nil)))
  | some n =>
    rcases hn with rfl | ⟨hb, rfl⟩
    · refine agree_pure (.goto ?_)
      rcases hway n with ⟨h, h'⟩ | ⟨h, h'⟩
      · rwa [h, h']
      · rwa [h, h']
    · rcases hway n with ⟨h, -⟩ | ⟨h, -⟩
      · exact agree_pure (.taken hb (List.mem_cons_of_mem _ List.mem_cons_self) (h ▸ hij))
      · exact agree_pure (.taken hb List.mem_cons_self (h ▸ hnext))

theorem agree_branch (hname : site.name = site'.name) (kind : BranchKind)
    (hnext : kind ≠ .always → k.line (site.pc + 1) (site'.pc + 1)) {i j : Nat} (hij : k.line i j) :
    k.Agree (branch site kind i) (branch site' kind j) k.EffectRel := by
  unfold branch
  rw [hname]
  cases kind with
  | always => exact agree_pure (.goto hij)
  | ifZero | ifNonZero =>
    refine agree_bind (agree_popUint _) fun n n' hn => ?_
    refine agree_eitherWay hn hij (hnext (by simp)) fun n => ?_
    by_cases h : n = 0 <;> simp [h]

theorem agree_callsub (hnext : k.line (site.pc + 1) (site'.pc + 1)) {i j : Nat} (hij : k.line i j) :
    k.Agree (callsub site i) (callsub site' j) k.EffectRel := by
  refine agree_bind agree_get fun s t hst => ?_
  refine agree_bind (agree_setFrames (.cons ?_ hst.frames)) fun _ _ _ => agree_pure (.goto hij)
  exact ⟨hnext, hst.stack.length_eq, rfl, rfl, rfl⟩

/-- A line and its counterpart in another listing, executed on compared states. -/
theorem exec_rel (catalog : Catalog) {op : Op LabelId} {pc pc' : Nat} {s t : State}
    (hst : k.StateRel s t) (hnext : op.endsFlow = false → k.line (pc + 1) (pc' + 1))
    (hlabels : ∀ id ∈ op.targets, k.LabelRel l l' id (f id))
    (hblind : k.blurred → ¬BlindStore op t) :
    k.ResultRel k.EffectRel ((op.exec l catalog pc).run s)
      (((op.retarget f).exec l' catalog pc').run t) := by
  have hname : (Site.ofLine l pc op).name = (Site.ofLine l' pc' (op.retarget f)).name := by
    simp only [Site.ofLine, Op.mnemonic?_retarget]
  cases op with
  | comment | empty | label | pragma => exact agree_andNext (hnext rfl) (agree_pure trivial) hst
  | int | bytes => exact agree_andNext (hnext rfl) (agree_push _ _ (valueRel_refl _)) hst
  | branch kind target =>
    refine agree_bind (agree_resolve (hlabels target (by simp [Op.targets])))
      (fun i j hij => agree_branch hname kind (fun hk => hnext ?_) hij) hst
    cases kind <;> first | rfl | exact absurd rfl hk
  | callsub target =>
    exact agree_bind (agree_resolve (hlabels target (by simp [Op.targets])))
      (fun i j hij => agree_callsub (hnext rfl) hij) hst
  | switch targets =>
    exact agree_bind (agree_resolveAll hlabels) (fun _ _ h => agree_switch hname (hnext rfl) h) hst
  | matchCases targets =>
    exact agree_bind (agree_resolveAll hlabels)
      (fun _ _ h => agree_matchCases hname (hnext rfl) h) hst
  | retsub => exact agree_retsub hst
  | proto args results => exact agree_proto (hnext rfl) _ _ hst
  | err => exact agree_throw _ hst
  | ret =>
    refine agree_bind (agree_popUint "return") (fun n n' hn => agree_pure (.halt ?_)) hst
    rcases hn with rfl | ⟨hb, rfl⟩
    · exact .inl rfl
    · exact .inr ⟨hb, rfl⟩
  | load slot => exact agree_andNext (hnext rfl) (agree_load slot) hst
  | store slot => exact agree_andNext (hnext rfl) (agree_store hname slot) hst
  | frameDig offset => exact agree_andNext (hnext rfl) (agree_frameDig hname offset) hst
  | frameBury offset => exact agree_andNext (hnext rfl) (agree_frameBury hname offset) hst
  | instr name immediates =>
    -- The only line that does not agree with its counterpart on all compared states.
    refine resultRel_bind (plain_rel hname catalog immediates hst fun hb hn c d rest hstack => ?_)
      fun _ _ _ => agree_pure (.goto (hnext rfl))
    cases hd : d.isUnknown with
    | false => rfl
    | true => exact absurd ⟨congrArg some hn, c, d, rest, hstack, hd⟩ (hblind hb)

end Comparison

end Teal
