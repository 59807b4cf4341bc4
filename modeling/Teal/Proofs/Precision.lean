import Teal.Catalog.Standard
import Teal.Proofs.Comparison.Instruction
import Teal.Proofs.Path
/-!
# Unknown values stand for all values

A state that knows less than another one goes every way the other one goes. `State.Refines` orders
states by what they know, `exec_covered` is what one instruction does to ordered states, and
`covered_of_runs` is what becomes of whole runs.

There is one exception. `stores` does nothing where the slot is not known, so what it overwrites
where the slot is known is not covered: a run is covered up to the first such `Point.Blind`.
-/

namespace Teal

/-! ## Precision -/

/-- The same value, or one that is not known in `d`. -/
def Cell.Refines (c d : Cell) : Prop := d.value = c.value ∨ d.value = .unknown

/-- The state `t` knows less than `s`, or as much: control is alike, and so is every value that `t`
knows. -/
structure State.Refines (s t : State) : Prop where
  stack : List.Forall₂ Cell.Refines s.thread.stack t.thread.stack
  frames : s.thread.frames = t.thread.frames
  afterCall : s.thread.afterCall = t.thread.afterCall
  scratch : ∀ i (_ : i < 256), s.scratch.slots[i].Refines t.scratch.slots[i]

/-- Every outcome of `e` is one of `e'`; the verdict of `e'` may be unknown. -/
structure Effect.CoveredBy (e e' : Effect) : Prop where
  lines : ∀ pc ∈ e.lines, pc ∈ e'.lines
  verdict : ∀ a, e = .halt a → ∃ b, e' = .halt b ∧ (b = a ∨ b = none)

/-- Executions of one listing where the right side knows less. -/
def Comparison.blurry : Comparison where
  blurred := True
  line := Eq
  call := Eq
  excused _ := True
  excused_of_blurred _ _ := trivial
  call_cases h := .inl h

theorem cellRel_blurry {c d : Cell} : Comparison.blurry.CellRel c d ↔ c.Refines d := by
  simp [Comparison.CellRel, Comparison.ValueRel, Comparison.blurry, Cell.Refines, eq_comm]

theorem frameRel_blurry {f g : Frame} : Comparison.blurry.FrameRel f g ↔ f = g := by
  refine ⟨fun h => ?_, fun h => h ▸ ⟨rfl, rfl, rfl, rfl, rfl⟩⟩
  obtain ⟨pc, sp, args, results, declared⟩ := f
  obtain ⟨hline, rfl, rfl, rfl, rfl⟩ := h
  cases hline
  rfl

theorem stateRel_blurry {s t : State} : Comparison.blurry.StateRel s t ↔ s.Refines t := by
  have hcells : Comparison.blurry.CellRel = Cell.Refines := by
    funext c d
    exact propext cellRel_blurry
  have hframes : Comparison.blurry.FrameRel = Eq := by
    funext f g
    exact propext frameRel_blurry
  refine ⟨fun h => ⟨hcells ▸ h.stack, ?_, h.call, fun i hi => cellRel_blurry.1 (h.scratch i hi)⟩,
    fun h => ⟨hcells ▸ h.stack, ?_, h.afterCall, fun i hi => cellRel_blurry.2 (h.scratch i hi)⟩⟩
  · exact List.forall₂_eq_eq_eq ▸ hframes ▸ h.frames
  · rw [hframes, List.forall₂_eq_eq_eq]
    exact h.frames

theorem coveredBy_of_effectRel {e e' : Effect} (h : Comparison.blurry.EffectRel e e') :
    e.CoveredBy e' := by
  cases h with
  | goto hij =>
    cases hij
    exact ⟨fun pc hpc => hpc, fun a ha => by cases ha⟩
  | fork hlines =>
    cases List.forall₂_eq_eq_eq ▸ hlines
    exact ⟨fun pc hpc => hpc, fun a ha => by cases ha⟩
  | @taken i j j' js _ hmem hij =>
    cases hij
    refine ⟨fun pc hpc => ?_, fun a ha => by cases ha⟩
    cases List.mem_singleton.1 hpc
    exact hmem
  | halt hab =>
    refine ⟨fun pc hpc => absurd hpc List.not_mem_nil, fun a ha => ?_⟩
    cases ha
    exact ⟨_, rfl, hab.imp Eq.symm And.right⟩

/-! ## One instruction -/

theorem Op.eq_instr_of_mnemonic? {ι : Type} {op : Op ι} {name : String}
    (h : op.mnemonic? = some name) (hname : Keyword.ofText? name = none) :
    ∃ immediates, op = .instr name immediates := by
  cases hk : op.keyword? with
  | some k =>
    have htext : k.text = name := by
      cases op <;> simp_all [mnemonic?, keyword?]
    cases (htext ▸ Keyword.ofText?_text k).symm.trans hname
  | none =>
    cases op <;> simp_all [mnemonic?, keyword?]

section Exec
variable {l : Listing} {catalog : Catalog} {op : Op LabelId} {pc : Nat} {s t : State}

/-- What an instruction does where more is known, it also does where less is known. -/
theorem exec_covered (hst : s.Refines t) (hblind : ¬Comparison.BlindStore op t) {e : Effect}
    {s' : State} (h : (op.exec l catalog pc).run s = .ok e s') :
    ∃ e' t', (op.exec l catalog pc).run t = .ok e' t' ∧ e.CoveredBy e' ∧ s'.Refines t' := by
  -- The two sides run the same listing, so lines and labels correspond to themselves.
  have hlabels : ∀ id ∈ op.targets, Comparison.blurry.LabelRel l l id id := by
    intro id _
    cases hid : l.target? id with
    | some i => exact .inl ⟨i, i, hid, hid, rfl⟩
    | none => exact .inr ⟨hid, hid, rfl⟩
  have hrel : Comparison.blurry.ResultRel Comparison.blurry.EffectRel
      ((op.exec l catalog pc).run s) (((op.retarget id).exec l catalog pc).run t) :=
    Comparison.exec_rel catalog (stateRel_blurry.2 hst) (fun _ => rfl) hlabels fun _ => hblind
  rw [Op.retarget_id, h] at hrel
  generalize (op.exec l catalog pc).run t = r at hrel
  cases hrel with
  | ok heffect hst' => exact ⟨_, _, rfl, coveredBy_of_effectRel heffect, stateRel_blurry.1 hst'⟩

theorem exec_blind (l : Listing) (catalog : Catalog) (pc : Nat) (h : Comparison.BlindStore op t) :
    ∃ e t', (op.exec l catalog pc).run t = .ok e t' := by
  obtain ⟨hop, c, d, rest, hstack, hd⟩ := h
  obtain ⟨immediates, rfl⟩ := Op.eq_instr_of_mnemonic? hop rfl
  obtain ⟨⟨cells, frames, afterCall⟩, scratch⟩ := t
  cases hstack
  obtain ⟨v, origin⟩ := d
  cases eq_of_beq hd
  exact ⟨_, _, rfl⟩

/-- What fails where less is known also fails where more is known. -/
theorem exec_failed (hst : s.Refines t) {f : Fault} {t' : State}
    (h : (op.exec l catalog pc).run t = .error f t') :
    ∃ f' s', (op.exec l catalog pc).run s = .error f' s' := by
  -- A store into a slot that is not known is no exception here: it never fails.
  have hblind : ¬Comparison.BlindStore op t := by
    intro hb
    obtain ⟨e, t'', hok⟩ := exec_blind l catalog pc hb
    cases h.symm.trans hok
  cases hs : (op.exec l catalog pc).run s with
  | error f' s' => exact ⟨f', s', rfl⟩
  | ok e s' =>
    obtain ⟨e', t'', hok, -⟩ := exec_covered hst hblind hs
    cases h.symm.trans hok

end Exec

/-! ## One step -/

/-- Places on paths where control is at the same line and the right state knows less. -/
structure Point.Refines (p p' : Point) : Prop where
  pc : p.pc = p'.pc
  state : p.state.Refines p'.state

/-- Ends of paths where the right one knows less, of the verdict as well. -/
structure Ending.CoveredBy (e e' : Ending) : Prop where
  verdict : ∃ a b, e.halt = .terminated a ∧ e'.halt = .terminated b ∧ (b = a ∨ b = none)
  state : e.state.Refines e'.state

/-- Whether a path ended because an instruction failed. -/
def Ending.Failed (e : Ending) : Prop := ∃ f, e.halt = .faulted f

/-- Control comes to a `stores` and the slot is not known. -/
def Point.Blind (l : Listing) (p : Point) : Prop :=
  ∃ pc op, l.fetch? p.pc = some (pc, op) ∧ Comparison.BlindStore op p.state

theorem State.Refines.after {s t : State} (h : s.Refines t) (op : Op LabelId) :
    (s.after op).Refines (t.after op) :=
  { h with afterCall := rfl }

section Step
variable {l : Listing} {catalog : Catalog} {p p' : Point}

/-- What one step comes to, by the effect of the instruction that control comes to. -/
theorem move_of_ok {pc : Nat} {op : Op LabelId} {e : Effect} {s : State}
    (hf : l.fetch? p.pc = some (pc, op)) (h : (op.exec l catalog pc).run p.state = .ok e s) :
    let cost := p.cost + catalog.cost (op.mnemonic?.getD "")
    (p.move l catalog).next = e.lines.map ({ pc := ·, state := s.after op, cost }) ∧
      ∀ a, e = .halt a →
        p.move l catalog = .stop { halt := .terminated a, state := s.after op, cost } := by
  simp only [Point.move, hf, h]
  cases e with
  | goto pc => exact ⟨rfl, fun a ha => by cases ha⟩
  | fork pc others => exact ⟨rfl, fun a ha => by cases ha⟩
  | halt a => exact ⟨rfl, fun b hb => by cases hb; rfl⟩

theorem move_of_error {pc : Nat} {op : Op LabelId} {f : Fault} {s : State}
    (hf : l.fetch? p.pc = some (pc, op)) (h : (op.exec l catalog pc).run p.state = .error f s) :
    ∃ e, p.move l catalog = .stop e ∧ e.halt = .faulted f := by
  simp only [Point.move, hf, h]
  exact ⟨_, rfl, rfl⟩

theorem next_covered (h : p.Refines p') (hblind : ¬p'.Blind l) {q : Point}
    (hq : q ∈ (p.move l catalog).next) : ∃ q' ∈ (p'.move l catalog).next, q.Refines q' := by
  cases hf : l.fetch? p.pc with
  | none => simp [Point.move, hf, Move.next] at hq
  | some line =>
    obtain ⟨pc, op⟩ := line
    have hf' : l.fetch? p'.pc = some (pc, op) := h.pc ▸ hf
    cases hs : (op.exec l catalog pc).run p.state with
    | error f s => simp [Point.move, hf, hs, Move.next] at hq
    | ok e s =>
      obtain ⟨e', t, ht, hcover, hst⟩ :=
        exec_covered h.state (fun hb => hblind ⟨pc, op, hf', hb⟩) hs
      rw [(move_of_ok hf hs).1] at hq
      obtain ⟨i, hi, rfl⟩ := List.mem_map.1 hq
      rw [(move_of_ok hf' ht).1]
      exact ⟨_, List.mem_map_of_mem (hcover.lines i hi), ⟨rfl, hst.after op⟩⟩

theorem stop_covered (h : p.Refines p') (hblind : ¬p'.Blind l) {e : Ending}
    (he : p.move l catalog = .stop e) (hfail : ¬e.Failed) :
    ∃ e', p'.move l catalog = .stop e' ∧ e.CoveredBy e' := by
  cases hf : l.fetch? p.pc with
  | none =>
    have hf' : l.fetch? p'.pc = none := h.pc ▸ hf
    cases he.symm.trans (move_of_fetch_none hf)
    exact ⟨_, move_of_fetch_none hf', ⟨none, none, rfl, rfl, .inl rfl⟩, h.state⟩
  | some line =>
    obtain ⟨pc, op⟩ := line
    have hf' : l.fetch? p'.pc = some (pc, op) := h.pc ▸ hf
    cases hs : (op.exec l catalog pc).run p.state with
    | error f s =>
      obtain ⟨e', he', hhalt⟩ := move_of_error hf hs
      cases he.symm.trans he'
      exact absurd ⟨f, hhalt⟩ hfail
    | ok effect s =>
      obtain ⟨effect', t, ht, hcover, hst⟩ :=
        exec_covered h.state (fun hb => hblind ⟨pc, op, hf', hb⟩) hs
      cases effect with
      | goto i => simp [Point.move, hf, hs] at he
      | fork i is => simp [Point.move, hf, hs] at he
      | halt a =>
        cases he.symm.trans ((move_of_ok hf hs).2 a rfl)
        obtain ⟨b, hb, hab⟩ := hcover.verdict a rfl
        exact ⟨_, (move_of_ok hf' ht).2 b hb, ⟨a, b, rfl, rfl, hab⟩, hst.after op⟩

theorem stop_failed (h : p.Refines p') {e' : Ending} (he : p'.move l catalog = .stop e')
    (hfail : e'.Failed) : ∃ e, p.move l catalog = .stop e ∧ e.Failed := by
  obtain ⟨f, hf'⟩ := hfail
  cases hf : l.fetch? p'.pc with
  | none =>
    cases he.symm.trans (move_of_fetch_none hf)
    cases hf'
  | some line =>
    obtain ⟨pc, op⟩ := line
    cases ht : (op.exec l catalog pc).run p'.state with
    | ok effect t =>
      cases effect with
      | goto i => simp [Point.move, hf, ht] at he
      | fork i is => simp [Point.move, hf, ht] at he
      | halt a =>
        cases he.symm.trans ((move_of_ok hf ht).2 a rfl)
        cases hf'
    | error g t =>
      obtain ⟨g', s, hs⟩ := exec_failed h.state ht
      obtain ⟨e, he, hhalt⟩ := move_of_error (h.pc ▸ hf) hs
      exact ⟨e, he, g', hhalt⟩

end Step

/-! ## Whole runs -/

section Run
variable {l : Listing} {catalog : Catalog}

/-- A run that does not fail is covered where less is known, to its end or until a `stores` whose
slot is not known. -/
theorem covered_of_runs {p p' : Point} {qs : List Point} {stop : Option Ending}
    (hrun : Runs l catalog p qs stop) (hfail : ∀ e, stop = some e → ¬e.Failed)
    (h : p.Refines p') :
    (∃ qs' stop', Runs l catalog p' qs' stop' ∧ List.Forall₂ Point.Refines qs qs' ∧
      Option.Rel Ending.CoveredBy stop stop') ∨
    ∃ qs' q', Runs l catalog p' qs' none ∧ (∃ done, done <+: qs ∧
      List.Forall₂ Point.Refines done qs') ∧ (p' :: qs').getLast? = some q' ∧ q'.Blind l := by
  induction hrun generalizing p' with
  | here => exact .inl ⟨[], none, .here, .nil, .none⟩
  | @stop p e he =>
    by_cases hblind : p'.Blind l
    · exact .inr ⟨[], p', .here, ⟨[], List.nil_prefix, .nil⟩, rfl, hblind⟩
    · obtain ⟨e', he', hcover⟩ := stop_covered h hblind he (hfail e rfl)
      exact .inl ⟨[], some e', .stop he', .nil, .some hcover⟩
  | @next p q qs stop hq _ ih =>
    by_cases hblind : p'.Blind l
    · exact .inr ⟨[], p', .here, ⟨[], List.nil_prefix, .nil⟩, rfl, hblind⟩
    · obtain ⟨q', hq', hrel⟩ := next_covered h hblind hq
      rcases ih hfail hrel with ⟨qs', stop', hrun', hqs, hstop⟩ |
        ⟨qs', r, hrun', ⟨done, hdone, hqs⟩, hlast, hr⟩
      · exact .inl ⟨q' :: qs', stop', .next hq' hrun', .cons hrel hqs, hstop⟩
      · refine .inr ⟨q' :: qs', r, .next hq' hrun', ⟨q :: done, ?_, .cons hrel hqs⟩, ?_, hr⟩
        · exact List.cons_prefix_cons.2 ⟨rfl, hdone⟩
        · rwa [List.getLast?_cons_cons]

/-- Where a run fails that knows less, the run that it covers fails as well. -/
theorem failed_of_runs {p p' : Point} {qs qs' : List Point} {stop : Option Ending} {e' : Ending}
    (hrun : Runs l catalog p qs stop) (hrun' : Runs l catalog p' qs' (some e')) (hfail : e'.Failed)
    (h : p.Refines p') (hqs : List.Forall₂ Point.Refines qs qs') :
    ∃ e, Runs l catalog p qs (some e) ∧ e.Failed := by
  -- The runs go through as many points, so the one that is covered is about to make its last step
  -- where the other one fails.
  induction hrun generalizing p' qs' with
  | here =>
    cases hqs
    cases hrun' with
    | stop he =>
      obtain ⟨e, he, hfail⟩ := stop_failed h he hfail
      exact ⟨e, .stop he, hfail⟩
  | stop =>
    cases hqs
    cases hrun' with
    | stop he =>
      obtain ⟨e, he, hfail⟩ := stop_failed h he hfail
      exact ⟨e, .stop he, hfail⟩
  | next hq _ ih =>
    cases hqs with
    | cons hrel hqs =>
      cases hrun' with
      | next _ hrun' =>
        obtain ⟨e, hrun, hfail⟩ := ih hrun' hrel hqs
        exact ⟨e, .next hq hrun, hfail⟩

/-- A state that knows less than another one goes every way the other one goes: each instruction
alone, except a `stores` whose slot is not known, and every run up to such an instruction. A run
that fails covers only runs that fail. -/
theorem unknown_covers (l : Listing) (catalog : Catalog) :
    (∀ (pc : Nat) (op : Op LabelId) (s t : State), s.Refines t → ¬Comparison.BlindStore op t →
      ∀ e s', (op.exec l catalog pc).run s = .ok e s' →
        ∃ e' t', (op.exec l catalog pc).run t = .ok e' t' ∧ e.CoveredBy e' ∧ s'.Refines t') ∧
    ∀ p p' : Point, p.Refines p' →
      (∀ qs stop, Runs l catalog p qs stop → (∀ e, stop = some e → ¬e.Failed) →
        (∃ qs' stop', Runs l catalog p' qs' stop' ∧ List.Forall₂ Point.Refines qs qs' ∧
          Option.Rel Ending.CoveredBy stop stop') ∨
        ∃ qs' q', Runs l catalog p' qs' none ∧
          (∃ done, done <+: qs ∧ List.Forall₂ Point.Refines done qs') ∧
          (p' :: qs').getLast? = some q' ∧ q'.Blind l) ∧
      ∀ qs qs' stop e', Runs l catalog p qs stop → Runs l catalog p' qs' (some e') → e'.Failed →
        List.Forall₂ Point.Refines qs qs' → ∃ e, Runs l catalog p qs (some e) ∧ e.Failed := by
  refine ⟨fun pc op s t hst hblind e s' h => exec_covered hst hblind h, fun p p' h => ⟨?_, ?_⟩⟩
  · intro qs stop hrun hfail
    exact covered_of_runs hrun hfail h
  · intro qs qs' stop e' hrun hrun' hfail hqs
    exact failed_of_runs hrun hrun' hfail h hqs

theorem unknown_covers_condition :
    let l : Listing := { ops := [.branch .ifZero 0, .err, .label 0] }
    let s : State := { thread := { stack := [{ value := .uint 0 }] } }
    let t : State := { thread := { stack := [{ value := .unknown }] } }
    s.Refines t ∧ ∃ e t', ((Op.branch .ifZero 0).exec l .standard 0).run t = .ok e t' ∧
      (Effect.goto 2).CoveredBy e ∧ State.Refines {} t' := by
  intro l s t
  have hst : s.Refines t :=
    ⟨.cons (.inr rfl) .nil, rfl, rfl, fun _ _ => .inl rfl⟩
  exact ⟨hst, (unknown_covers l .standard).1 0 _ s t hst (fun h => absurd h.1 (by decide)) _ _ rfl⟩

end Run

end Teal
