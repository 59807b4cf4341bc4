import Teal.Proofs.Comparison.Instruction
import Teal.Proofs.Path
/-!
# Listings that go the same way

`Preserves catalog l l'` says that the listing `l'` may stand in for `l`: its paths end as those of
`l` do and cost no more. The only freedom is a `proto` that fails in `l` because it does not follow
a call at once: `l'` may do anything there.

`InStep` is the simulation argument: from related points both paths make a step to related points,
except that the left path may take forward branches that the right listing does without. An
`Alignment` relates the lines of two listings so that control goes in step, and whatever else a pass
does, it is enough to align its result: `Alignment.preserves`.
-/

namespace Teal

/-! ## Preservation -/

/-- Whether a path ended at a `proto` that does not follow a call at once. -/
def Ending.misplacedProto (e : Ending) : Prop := e.halt = .faulted .protoWithoutCallsub

/-- The paths of `l'` from the start end as those of `l` do, under the same choices at forks. Where
the path of `l` ends at a misplaced `proto`, that may be before all choices are made. -/
structure Preserves (catalog : Catalog) (l l' : Listing) : Prop where
  forward : ∀ choices e, Halts l catalog {} choices e → ¬e.misplacedProto →
    ∃ e', Halts l' catalog {} choices e' ∧ SameOutcome e e' ∧ e'.cost ≤ e.cost
  backward : ∀ choices e', Halts l' catalog {} choices e' →
    (∃ e, Halts l catalog {} choices e ∧ SameOutcome e e' ∧ e'.cost ≤ e.cost) ∨
      ∃ made e, made <+: choices ∧ Halts l catalog {} made e ∧ e.misplacedProto

theorem Preserves.refl (catalog : Catalog) (l : Listing) : Preserves catalog l l where
  forward _ e h _ := ⟨e, h, .refl e, Nat.le_refl _⟩
  backward _ e h := .inl ⟨e, h, .refl e, Nat.le_refl _⟩

theorem Preserves.trans {catalog : Catalog} {l₁ l₂ l₃ : Listing} (h : Preserves catalog l₁ l₂)
    (h' : Preserves catalog l₂ l₃) : Preserves catalog l₁ l₃ where
  forward choices e hl hne := by
    obtain ⟨e₂, hl₂, hs, hc⟩ := h.forward choices e hl hne
    have hne₂ : ¬e₂.misplacedProto := by rwa [Ending.misplacedProto, ← hs.halt]
    obtain ⟨e₃, hl₃, hs', hc'⟩ := h'.forward choices e₂ hl₂ hne₂
    exact ⟨e₃, hl₃, hs.trans hs', Nat.le_trans hc' hc⟩
  backward choices e₃ hl₃ := by
    rcases h'.backward choices e₃ hl₃ with ⟨e₂, hl₂, hs', hc'⟩ | ⟨made, e₂, hmade, hl₂, hp⟩
    · rcases h.backward choices e₂ hl₂ with ⟨e, hl, hs, hc⟩ | hp
      · exact .inl ⟨e, hl, hs.trans hs', Nat.le_trans hc' hc⟩
      · exact .inr hp
    · rcases h.backward made e₂ hl₂ with ⟨e, hl, hs, -⟩ | ⟨made', e, hmade', hl, hp'⟩
      · exact .inr ⟨made, e, hmade, hl, hs.halt.trans hp⟩
      · exact .inr ⟨made', e, hmade'.trans hmade, hl, hp'⟩

/-! ## Paths in step -/

/-- Ends of two paths that are the same, of which the right one cost no more. -/
structure EndingRel (e e' : Ending) : Prop where
  same : SameOutcome e e'
  cost : e'.cost ≤ e.cost

/-- Steps of two paths that are made at the same time and lead to points related by `R`. Where the
left path ends as `excused` says, nothing is said about the right one. -/
inductive MoveRel (R : Point → Point → Prop) (excused : Ending → Prop) : Move → Move → Prop
  | stop {e e'} : EndingRel e e' → MoveRel R excused (.stop e) (.stop e')
  | excused {e m} : excused e → MoveRel R excused (.stop e) m
  | go {p p'} : R p p' → MoveRel R excused (.go p) (.go p')
  | choose {ps ps'} : List.Forall₂ R ps ps' → MoveRel R excused (.choose ps) (.choose ps')

/-- Paths of `l` and `l'` from points related by `R` both make a step, or the left path takes a
branch forward that the right listing does without. -/
def InStep (l l' : Listing) (catalog : Catalog) (R : Point → Point → Prop)
    (excused : Ending → Prop) : Prop :=
  ∀ ⦃p p'⦄, R p p' → MoveRel R excused (p.move l catalog) (p'.move l' catalog) ∨
    ∃ q, p.move l catalog = .go q ∧ R q p' ∧ p.pc < q.pc ∧ q.pc ≤ l.size

namespace InStep

variable {l l' : Listing} {catalog : Catalog} {R : Point → Point → Prop} {excused : Ending → Prop}

/-- Every path on the left whose end is not excused is matched on the right. -/
theorem forward (hstep : InStep l l' catalog R excused) {p p' : Point} {choices : List Nat}
    {e : Ending} (hl : Halts l catalog p choices e) (h : R p p') (hne : ¬excused e) :
    ∃ e', Halts l' catalog p' choices e' ∧ EndingRel e e' := by
  induction hl generalizing p' with
  | @stop p e hm =>
    rcases hstep h with hmove | ⟨q, hq, -⟩
    · rw [hm] at hmove
      generalize hm' : p'.move l' catalog = m' at hmove
      cases hmove with
      | stop he => exact ⟨_, .stop hm', he⟩
      | excused he => exact absurd he hne
    · rw [hm] at hq
      cases hq
  | @go p q choices e hm _ ih =>
    rcases hstep h with hmove | ⟨q', hq, hrel, -⟩
    · rw [hm] at hmove
      generalize hm' : p'.move l' catalog = m' at hmove
      cases hmove with
      | go hrel =>
        obtain ⟨e', hl', he⟩ := ih hrel hne
        exact ⟨e', .go hm' hl', he⟩
    · -- Only the left path moves, by a branch that the right listing does without.
      rw [hm] at hq
      cases hq
      exact ih hrel hne
  | @choose p ps q i choices e hm hi _ ih =>
    rcases hstep h with hmove | ⟨q', hq, -⟩
    · rw [hm] at hmove
      generalize hm' : p'.move l' catalog = m' at hmove
      cases hmove with
      | choose hrel =>
        rcases Comparison.forall₂_getElem? hrel i with ⟨a, b, hpa, hpb, hab⟩ | ⟨hn, -⟩
        · cases hpa.symm.trans hi
          obtain ⟨e', hl', he⟩ := ih hab hne
          exact ⟨e', .choose hm' hpb hl', he⟩
        · cases hn.symm.trans hi
    · rw [hm] at hq
      cases hq

/-- The left path takes the branches that the right listing does without, until both paths make a
step together. They lead forward, so there are only so many of them. -/
theorem catch_up (hstep : InStep l l' catalog R excused) {p p' : Point} (h : R p p') :
    ∃ q, R q p' ∧ MoveRel R excused (q.move l catalog) (p'.move l' catalog) ∧
      ∀ {choices e}, Halts l catalog q choices e → Halts l catalog p choices e := by
  induction hn : l.size - p.pc using Nat.strongRecOn generalizing p with
  | ind n ih =>
    rcases hstep h with hmove | ⟨q, hq, hrel, hlt, hle⟩
    · exact ⟨p, h, hmove, id⟩
    · obtain ⟨q', hrel', hmove, hhalts⟩ := ih (l.size - q.pc) (by omega) hrel rfl
      exact ⟨q', hrel', hmove, fun hl => .go hq (hhalts hl)⟩

/-- Every path on the right is matched on the left, unless that has an end that is excused. -/
theorem backward (hstep : InStep l l' catalog R excused) {p p' : Point} {choices : List Nat}
    {e' : Ending} (hl : Halts l' catalog p' choices e') (h : R p p') :
    (∃ e, Halts l catalog p choices e ∧ EndingRel e e') ∨
      ∃ made e, made <+: choices ∧ Halts l catalog p made e ∧ excused e := by
  induction hl generalizing p with
  | @stop p' e' hm =>
    obtain ⟨q, -, hmove, hhalts⟩ := hstep.catch_up h
    rw [hm] at hmove
    generalize hm' : q.move l catalog = m at hmove
    cases hmove with
    | stop he => exact .inl ⟨_, hhalts (.stop hm'), he⟩
    | excused he => exact .inr ⟨[], _, List.nil_prefix, hhalts (.stop hm'), he⟩
  | @go p' q' choices e' hm _ ih =>
    obtain ⟨q, -, hmove, hhalts⟩ := hstep.catch_up h
    rw [hm] at hmove
    generalize hm' : q.move l catalog = m at hmove
    cases hmove with
    | excused he => exact .inr ⟨[], _, List.nil_prefix, hhalts (.stop hm'), he⟩
    | go hrel =>
      rcases ih hrel with ⟨e, hl, he⟩ | ⟨made, e, hmade, hl, he⟩
      · exact .inl ⟨e, hhalts (.go hm' hl), he⟩
      · exact .inr ⟨made, e, hmade, hhalts (.go hm' hl), he⟩
  | @choose p' ps' q' i choices e' hm hi _ ih =>
    obtain ⟨q, -, hmove, hhalts⟩ := hstep.catch_up h
    rw [hm] at hmove
    generalize hm' : q.move l catalog = m at hmove
    cases hmove with
    | excused he => exact .inr ⟨[], _, List.nil_prefix, hhalts (.stop hm'), he⟩
    | choose hrel =>
      rcases Comparison.forall₂_getElem? hrel i with ⟨a, b, hpa, hpb, hab⟩ | ⟨-, hn⟩
      · cases hpb.symm.trans hi
        rcases ih hab with ⟨e, hl, he⟩ | ⟨made, e, hmade, hl, he⟩
        · exact .inl ⟨e, hhalts (.choose hm' hpa hl), he⟩
        · exact .inr ⟨i :: made, e, List.cons_prefix_cons.2 ⟨rfl, hmade⟩,
            hhalts (.choose hm' hpa hl), he⟩
      · cases hn.symm.trans hi

end InStep

/-! ## Alignment -/

/-- Executions on two listings with corresponding lines. The values are the same on both sides; a
call just before may be hidden on the left by a branch that the right listing does without. -/
def Comparison.shifted (line : Nat → Nat → Prop) : Comparison where
  blurred := False
  line := line
  call a b := a = true → b = true
  excused f := f = .protoWithoutCallsub
  excused_of_blurred := False.elim
  call_cases {a b} h := by cases a <;> cases b <;> simp_all

/-- Lines `i` of `l` and `j` of `l'` correspond by `line` only if control goes on alike from them:
it leaves both listings, or comes to an instruction and its counterpart, or comes to a branch in `l`
that leads forward to a line that corresponds to `j` already. -/
structure Alignment (l l' : Listing) (f : LabelId → LabelId) (line : Nat → Nat → Prop) : Prop where
  start : line 0 0
  fetch : ∀ {i j}, line i j →
    (l.fetch? i = none ∧ l'.fetch? j = none) ∨
    (∃ pc pc' op, l.fetch? i = some (pc, op) ∧ l'.fetch? j = some (pc', op.retarget f) ∧
      (op.endsFlow = false → line (pc + 1) (pc' + 1)) ∧
      ∀ id ∈ op.targets, (Comparison.shifted line).LabelRel l l' id (f id)) ∨
    ∃ pc id t, l.fetch? i = some (pc, .branch .always id) ∧ l.target? id = some t ∧ i < t ∧
      t ≤ l.size ∧ line t j

/-- Places on paths of two aligned listings. -/
structure PointRel (line : Nat → Nat → Prop) (p p' : Point) : Prop where
  pc : line p.pc p'.pc
  state : (Comparison.shifted line).StateRel p.state p'.state
  cost : p'.cost ≤ p.cost

theorem stateRel_after {line : Nat → Nat → Prop} {s t : State} (f : LabelId → LabelId)
    (h : (Comparison.shifted line).StateRel s t) (op : Op LabelId) :
    (Comparison.shifted line).StateRel (s.after op) (t.after (op.retarget f)) where
  stack := h.stack
  frames := h.frames
  scratch := h.scratch
  call := by
    intro hcall
    simpa only [State.after, Op.isCall_retarget] using hcall

theorem sameOutcome_of_stateRel {k : Comparison} (hsharp : ¬k.blurred) {e e' : Ending}
    (hhalt : e.halt = e'.halt) (h : k.StateRel e.state e'.state) : SameOutcome e e' where
  halt := hhalt
  stack := by
    rw [← List.forall₂_eq_eq_eq, List.forall₂_map_left_iff, List.forall₂_map_right_iff]
    exact h.stack.imp fun _ _ hcd => hcd.resolve_right fun hb => hsharp hb.1
  scratch := by
    ext i hi
    simpa using (h.scratch i hi).resolve_right fun hb => hsharp hb.1

/-- A branch that always jumps goes to the declaration of its label and changes nothing. -/
theorem exec_always {l : Listing} {catalog : Catalog} {pc t : Nat} {id : LabelId}
    (h : l.target? id = some t) (s : State) :
    ((Op.branch .always id).exec l catalog pc).run s = .ok (.goto t) s := by
  simp only [Op.exec, Exec.line, Exec.resolve, h]
  rfl

theorem move_of_always {l : Listing} {p : Point} {pc t : Nat} {id : LabelId} (catalog : Catalog)
    (hf : l.fetch? p.pc = some (pc, .branch .always id)) (ht : l.target? id = some t) :
    p.move l catalog = .go
      { pc := t
        state := p.state.after (.branch .always id)
        cost := p.cost + catalog.cost "b" } := by
  simp only [Point.move, hf, exec_always ht]
  rfl

section Moves
variable {l l' : Listing} {f : LabelId → LabelId} {line : Nat → Nat → Prop} {p p' : Point}

theorem moveRel_of_fetch_none (h : PointRel line p p') (hf : l.fetch? p.pc = none)
    (hf' : l'.fetch? p'.pc = none) (catalog : Catalog) (R : Point → Point → Prop)
    (excused : Ending → Prop) :
    MoveRel R excused (p.move l catalog) (p'.move l' catalog) := by
  rw [move_of_fetch_none hf, move_of_fetch_none hf']
  exact .stop ⟨sameOutcome_of_stateRel id rfl h.state, h.cost⟩

/-- Both paths execute an instruction and its counterpart. -/
theorem moveRel_of_counterparts (h : PointRel line p p') {pc pc' : Nat} {op : Op LabelId}
    (hf : l.fetch? p.pc = some (pc, op)) (hf' : l'.fetch? p'.pc = some (pc', op.retarget f))
    (hnext : op.endsFlow = false → line (pc + 1) (pc' + 1))
    (hlabels : ∀ id ∈ op.targets, (Comparison.shifted line).LabelRel l l' id (f id))
    (catalog : Catalog) :
    MoveRel (PointRel line) Ending.misplacedProto (p.move l catalog) (p'.move l' catalog) := by
  have hexec := Comparison.exec_rel catalog h.state hnext hlabels fun hb => hb.elim
  have hcost : p'.cost + catalog.cost (op.mnemonic?.getD "") ≤
      p.cost + catalog.cost (op.mnemonic?.getD "") := Nat.add_le_add_right h.cost _
  simp only [Point.move, hf, hf', Op.mnemonic?_retarget]
  generalize (op.exec l catalog pc).run p.state = r,
    ((op.retarget f).exec l' catalog pc').run p'.state = r' at hexec ⊢
  cases hexec with
  | error hst => exact .stop ⟨sameOutcome_of_stateRel id rfl (stateRel_after f hst op), hcost⟩
  | excused he => exact .excused (congrArg Halt.faulted he)
  | ok heffect hst =>
    have hst := stateRel_after f hst op
    cases heffect with
    | goto hij => exact .go ⟨hij, hst, hcost⟩
    | halt ha =>
      have ha := ha.resolve_right fun hb => hb.1
      exact .stop ⟨sameOutcome_of_stateRel id (congrArg Halt.terminated ha) hst, hcost⟩
    | taken hb => exact hb.elim
    | fork hlines =>
      refine .choose ?_
      rw [List.forall₂_map_left_iff, List.forall₂_map_right_iff]
      exact hlines.imp fun _ _ hij => ⟨hij, hst, hcost⟩

/-- The left path takes a branch that the right listing does without. It costs something and hides a
call just before it; otherwise nothing changes. -/
theorem pointRel_of_always (h : PointRel line p p') {t : Nat} (ht : line t p'.pc) (id : LabelId)
    (cost : Nat) :
    PointRel line { pc := t, state := p.state.after (.branch .always id), cost := p.cost + cost }
      p' where
  pc := ht
  state := { h.state with call := fun hcall => Bool.noConfusion hcall }
  cost := Nat.le_add_right_of_le h.cost

end Moves

namespace Alignment

variable {l l' : Listing} {f : LabelId → LabelId} {line : Nat → Nat → Prop}

theorem pointRel_start (ha : Alignment l l' f line) : PointRel line {} {} :=
  ⟨ha.start, ⟨.nil, .nil, id, fun _ _ => Comparison.cellRel_refl _⟩, Nat.le_refl _⟩

/-- Control goes in step on aligned listings until it comes to a misplaced `proto`. -/
theorem inStep (ha : Alignment l l' f line) (catalog : Catalog) :
    InStep l l' catalog (PointRel line) Ending.misplacedProto := by
  intro p p' h
  rcases ha.fetch h.pc with ⟨hf, hf'⟩ | ⟨pc, pc', op, hf, hf', hnext, hlabels⟩ |
    ⟨pc, id, t, hf, ht, hlt, hle, hline⟩
  · exact .inl (moveRel_of_fetch_none h hf hf' catalog _ _)
  · exact .inl (moveRel_of_counterparts h hf hf' hnext hlabels catalog)
  · exact .inr ⟨_, move_of_always catalog hf ht, pointRel_of_always h hline id _, hlt, hle⟩

/-- Aligned listings go the same way. -/
theorem preserves (ha : Alignment l l' f line) (catalog : Catalog) : Preserves catalog l l' := by
  have hstep := ha.inStep catalog
  refine ⟨fun choices e hl hne => ?_, fun choices e' hl => ?_⟩
  · obtain ⟨e', hl', he⟩ := hstep.forward hl ha.pointRel_start hne
    exact ⟨e', hl', he.same, he.cost⟩
  · rcases hstep.backward hl ha.pointRel_start with ⟨e, hl, he⟩ | hp
    · exact .inl ⟨e, hl, he.same, he.cost⟩
    · exact .inr hp

end Alignment

end Teal
