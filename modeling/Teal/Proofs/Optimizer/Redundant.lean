import Teal.Catalog.Standard
import Teal.Proofs.Control
import Teal.Proofs.Instruction.Faults
import Teal.Proofs.Optimizer.Passes
/-!
# Branches to the next line

A branch is redundant if the next line with an effect declares its label. That it can be deleted
takes two things more. It must go to this declaration, which it does not if the label is declared
before it as well: `BranchesAhead`. And it must not stand between a call and a `proto`, which has to
follow a call at once: with the branch it fails, and without it need not. `KeepsCalls` says that the
listing without the branches has no such `proto`. Neither can be left out, as the two programs at the
end show.

The alignment of the two listings then goes further than `Alignment.preserves`: a `proto` that fails
on the left fails on the right as well. The mark of a call just before is not the same on both sides
while the left path takes redundant branches, but it is the same again where a `proto` looks at it.
-/

namespace Teal

/-- The paths of both listings from the start end alike, under the same choices at forks. -/
structure SameEndings (catalog : Catalog) (l l' : Listing) : Prop where
  forward : ∀ choices e, Halts l catalog {} choices e →
    ∃ e', Halts l' catalog {} choices e' ∧ SameOutcome e e'
  backward : ∀ choices e', Halts l' catalog {} choices e' →
    ∃ e, Halts l catalog {} choices e ∧ SameOutcome e e'

/-- Whether control at a line comes to a `proto`. -/
def Listing.protoAt (l : Listing) (i : Nat) : Bool :=
  match l.fetch? i with
  | some (_, .proto _ _) => true
  | _ => false

/-- A call that comes to a `proto` at once in `l'` does so in `l`. -/
def KeepsCalls (l l' : Listing) : Prop :=
  ∀ op ∈ l.ops, op.isCall = true → ∀ id ∈ op.targets, ∀ t ∈ l.target? id, ∀ t' ∈ l'.target? id,
    l'.protoAt t' = true → l.protoAt t = true

instance (l l' : Listing) : Decidable (KeepsCalls l l') :=
  inferInstanceAs (Decidable (∀ op ∈ l.ops, _))

/-! ## Steps of a path -/

section Path
variable {l : Listing} {catalog : Catalog} {p q : Point} {pc : Nat} {op : Op LabelId}

theorem afterCall_of_next (hf : l.fetch? p.pc = some (pc, op)) (hq : q ∈ (p.move l catalog).next) :
    q.state.thread.afterCall = op.isCall := by
  simp only [Point.move, hf] at hq
  split at hq
  · exact absurd hq List.not_mem_nil
  · exact absurd hq List.not_mem_nil
  · cases List.mem_singleton.1 hq
    rfl
  · obtain ⟨i, -, rfl⟩ := List.mem_map.1 hq
    rfl

theorem target?_of_next {id : LabelId} (hf : l.fetch? p.pc = some (pc, .callsub id))
    (hq : q ∈ (p.move l catalog).next) : l.target? id = some q.pc := by
  have hout := callsub_outcome l catalog pc p.state id
  simp only [Point.move, hf] at hq
  generalize ((Op.callsub id).exec l catalog pc).run p.state = r at hq hout
  cases hout with
  | calls ht =>
    cases List.mem_singleton.1 hq
    exact ht
  | fails => exact absurd hq List.not_mem_nil
  | works hop => cases hop

/-- A path ends at a misplaced `proto` only where there is a `proto`. -/
theorem fetch?_of_misplaced {e : Ending} (hm : p.move l catalog = .stop e)
    (he : e.misplacedProto) :
    ∃ pc args results, l.fetch? p.pc = some (pc, .proto args results) ∧
      ∃ s, ((Op.proto args results).exec l catalog pc).run p.state =
        .error .protoWithoutCallsub s := by
  cases hf : l.fetch? p.pc with
  | none =>
    rw [move_of_fetch_none hf] at hm
    cases hm
    cases he
  | some line =>
    obtain ⟨pc, op⟩ := line
    simp only [Point.move, hf] at hm
    cases hr : (op.exec l catalog pc).run p.state with
    | error f s =>
      rw [hr] at hm
      cases hm
      obtain rfl : f = .protoWithoutCallsub := by simpa [Ending.misplacedProto] using he
      obtain ⟨args, results, rfl⟩ := failsOnly_exec l catalog pc op p.state _ _ hr
      exact ⟨pc, args, results, rfl, s, hr⟩
    | ok effect s =>
      rw [hr] at hm
      cases effect with
      | halt =>
        cases hm
        cases he
      | goto | fork => cases hm

/-- A path ends in one way. -/
theorem Halts.unique {choices : List Nat} {e e' : Ending} (h : Halts l catalog p choices e)
    (h' : Halts l catalog p choices e') : e = e' := by
  induction h with
  | stop hm =>
    cases h' with
    | stop hm' =>
      cases hm.symm.trans hm'
      rfl
    | go hm' => cases hm.symm.trans hm'
  | go hm _ ih =>
    cases h' with
    | stop hm' => cases hm.symm.trans hm'
    | go hm' hrest =>
      cases hm.symm.trans hm'
      exact ih hrest
    | choose hm' => cases hm.symm.trans hm'
  | choose hm hi _ ih =>
    cases h' with
    | go hm' => cases hm.symm.trans hm'
    | choose hm' hi' hrest =>
      cases hm.symm.trans hm'
      cases hi.symm.trans hi'
      exact ih hrest

end Path

/-- Paths with the same choices that halt for two reasons tell the listings apart. -/
theorem not_sameEndings {catalog : Catalog} {l l' : Listing} {choices : List Nat} {halt halt' : Halt}
    (h : ∃ e, Halts l catalog {} choices e ∧ e.halt = halt)
    (h' : ∃ e, Halts l' catalog {} choices e ∧ e.halt = halt') (hne : halt ≠ halt') :
    ¬SameEndings catalog l l' := by
  intro hsame
  obtain ⟨e, hl, rfl⟩ := h
  obtain ⟨e', hl', rfl⟩ := h'
  obtain ⟨e'', hl'', hout⟩ := hsame.forward choices e hl
  cases hl'.unique hl''
  exact hne hout.halt

/-! ## Alignment without an excuse -/

/-- Executions on two listings with corresponding lines that are otherwise as an execution is beside
itself. -/
def Comparison.exact (line : Nat → Nat → Prop) : Comparison :=
  { Comparison.along fun _ => True with line }

/-- Only the marks of a call can differ in states of aligned listings. -/
theorem stateRel_exact {line : Nat → Nat → Prop} {s t : State}
    (h : (Comparison.shifted line).StateRel s t)
    (hmark : s.thread.afterCall = t.thread.afterCall) :
    (Comparison.exact line).StateRel s t where
  stack := h.stack
  frames := h.frames.imp fun _ _ hfg =>
    ⟨hfg.line, hfg.sp, hfg.args, hfg.results, hfg.declared⟩
  call := hmark
  scratch := h.scratch

theorem stateRel_exact_after {line : Nat → Nat → Prop} {s t : State}
    (h : (Comparison.exact line).StateRel s t) (op : Op LabelId) :
    (Comparison.exact line).StateRel (s.after op) (t.after op) :=
  { h with call := rfl }

/-- Places on paths of two aligned listings. Where the right path comes to a `proto`, the left one
has the same mark of a call, and if it has one, comes to a `proto` at once. -/
structure ExactRel (l l' : Listing) (line : Nat → Nat → Prop) (p p' : Point) : Prop
    extends PointRel line p p' where
  mark : l'.protoAt p'.pc = true → p.state.thread.afterCall = p'.state.thread.afterCall
  called : l'.protoAt p'.pc = true → p.state.thread.afterCall = true → l.protoAt p.pc = true

theorem forall₂_imp_of_mem {α β : Type} {R S : α → β → Prop} {as : List α} {bs : List β}
    (h : List.Forall₂ R as bs) (himp : ∀ a ∈ as, ∀ b ∈ bs, R a b → S a b) :
    List.Forall₂ S as bs := by
  induction h with
  | nil => exact .nil
  | cons hab _ ih =>
    refine .cons (himp _ List.mem_cons_self _ List.mem_cons_self hab) (ih ?_)
    intro a ha b hb
    exact himp a (List.mem_cons_of_mem _ ha) b (List.mem_cons_of_mem _ hb)

theorem MoveRel.imp {R R' : Point → Point → Prop} {excused excused' : Ending → Prop} {m m' : Move}
    (h : MoveRel R excused m m')
    (hgo : ∀ q ∈ m.next, ∀ q' ∈ m'.next, R q q' → R' q q')
    (hexcused : ∀ e, m = .stop e → excused e → MoveRel R' excused' m m') :
    MoveRel R' excused' m m' := by
  cases h with
  | stop he => exact .stop he
  | excused he => exact hexcused _ rfl he
  | go hrel => exact .go (hgo _ List.mem_cons_self _ List.mem_cons_self hrel)
  | choose hrel => exact .choose (forall₂_imp_of_mem hrel hgo)

namespace Alignment

variable {l l' : Listing} {line : Nat → Nat → Prop} {p p' : Point}

/-- Where the marks of a call are the same, a `proto` that is misplaced on the left is so on the
right. -/
theorem stop_of_misplaced (ha : Alignment l l' id line) (h : ExactRel l l' line p p')
    {catalog : Catalog} {e : Ending} (hm : p.move l catalog = .stop e) (he : e.misplacedProto) :
    ∃ e', p'.move l' catalog = .stop e' ∧ EndingRel e e' := by
  obtain ⟨pc, args, results, hf, s, hr⟩ := fetch?_of_misplaced hm he
  rcases ha.fetch h.pc with ⟨hnone, -⟩ | ⟨pc₁, pc', op, hf₁, hf', hnext, -⟩ | ⟨pc₁, id, t, hf₁, -⟩
  · cases hf.symm.trans hnone
  · cases hf.symm.trans hf₁
    have hproto : l'.protoAt p'.pc = true := by
      simp [Listing.protoAt, hf', Op.retarget]
    have hstate := stateRel_exact h.state (h.mark hproto)
    have hexec : (Comparison.exact line).ResultRel (Comparison.exact line).EffectRel
        (((Op.proto args results).exec l catalog pc).run p.state)
        (((Op.proto args results).exec l' catalog pc').run p'.state) :=
      Comparison.agree_proto (hnext rfl) args.toNat results.toNat hstate
    simp only [Point.move, hf, hr, Move.stop.injEq] at hm
    subst hm
    rw [hr] at hexec
    rw [Op.retarget_id] at hf'
    simp only [Point.move, hf']
    generalize ((Op.proto args results).exec l' catalog pc').run p'.state = r' at hexec ⊢
    cases hexec with
    | error hst =>
      have hafter := stateRel_exact_after hst (.proto args results)
      exact ⟨_, rfl, sameOutcome_of_stateRel id rfl hafter, Nat.add_le_add_right h.cost _⟩
    | excused he => exact he.elim
  · cases hf.symm.trans hf₁

/-- An instruction and its counterpart leave the same mark, and a call leads to the same place. -/
theorem exactRel_of_next (hcalls : KeepsCalls l l') {catalog : Catalog} {pc pc' : Nat}
    {op : Op LabelId} (hf : l.fetch? p.pc = some (pc, op)) (hf' : l'.fetch? p'.pc = some (pc', op))
    {q q' : Point} (hq : q ∈ (p.move l catalog).next) (hq' : q' ∈ (p'.move l' catalog).next)
    (h : PointRel line q q') : ExactRel l l' line q q' where
  toPointRel := h
  mark _ := (afterCall_of_next hf hq).trans (afterCall_of_next hf' hq').symm
  called hproto hmark := by
    rw [afterCall_of_next hf hq] at hmark
    have hmem : op ∈ l.ops := List.mem_of_getElem? (Listing.getElem?_of_fetch? hf)
    cases op with
    | callsub id =>
      exact hcalls _ hmem rfl id List.mem_cons_self _ (target?_of_next hf hq) _
        (target?_of_next hf' hq') hproto
    | _ => cases hmark

/-- Control goes in step on aligned listings, if no call comes to a `proto` in one of them only. -/
theorem inStep_exact (ha : Alignment l l' id line) (hcalls : KeepsCalls l l') (catalog : Catalog) :
    InStep l l' catalog (ExactRel l l' line) fun _ => False := by
  intro p p' h
  rcases ha.fetch h.pc with ⟨hf, hf'⟩ | ⟨pc, pc', op, hf, hf', hnext, hlabels⟩ |
    ⟨pc, id, t, hf, ht, hlt, hle, hline⟩
  · exact .inl (moveRel_of_fetch_none h.toPointRel hf hf' catalog _ _)
  · left
    refine (moveRel_of_counterparts h.toPointRel hf hf' hnext hlabels catalog).imp ?_ ?_
    · rw [Op.retarget_id] at hf'
      intro q hq q' hq' hrel
      exact exactRel_of_next hcalls hf hf' hq hq' hrel
    · intro e hm he
      obtain ⟨e', hm', hend⟩ := ha.stop_of_misplaced h hm he
      rw [hm, hm']
      exact .stop hend
  · -- The left path comes to a branch, so if the right one comes to a `proto`, there was no call.
    have hbranch : l.protoAt p.pc = false := by
      simp [Listing.protoAt, hf]
    refine .inr ⟨_, move_of_always catalog hf ht,
      ⟨pointRel_of_always h.toPointRel hline id _, ?_, ?_⟩, hlt, hle⟩
    · intro hproto
      cases hmark : p.state.thread.afterCall with
      | true => cases hbranch.symm.trans (h.called hproto hmark)
      | false =>
        rw [← h.mark hproto, hmark]
        rfl
    · intro _ hmark
      cases hmark

theorem sameEndings (ha : Alignment l l' id line) (hcalls : KeepsCalls l l') (catalog : Catalog) :
    SameEndings catalog l l' := by
  have hstep := ha.inStep_exact hcalls catalog
  have hstart : ExactRel l l' line {} {} := ⟨ha.pointRel_start, fun _ => rfl, nofun⟩
  constructor
  · intro choices e hl
    obtain ⟨e', hl', he⟩ := hstep.forward hl hstart id
    exact ⟨e', hl', he.same⟩
  · intro choices e' hl'
    rcases hstep.backward hl' hstart with ⟨e, hl, he⟩ | ⟨_, _, _, _, he⟩
    · exact ⟨e, hl, he.same⟩
    · exact he.elim

end Alignment

namespace Optimizer

/-- Deleting redundant branches that go ahead leaves the meaning of a listing as it is, but for a
`proto` that fails behind one of them. If no call comes to such a `proto`, every path ends as it did
before, and no other path ends. -/
theorem redundant_branches_unobservable (catalog : Catalog) (l : Listing)
    (hahead : BranchesAhead l) :
    Preserves catalog l (removeRedundantBranches l) ∧
      (KeepsCalls l (removeRedundantBranches l) →
        SameEndings catalog l (removeRedundantBranches l)) := by
  have halign := (trims_removeRedundantBranches hahead).alignment
  refine ⟨halign.preserves catalog, ?_⟩
  intro hcalls
  exact halign.sameEndings hcalls catalog

/-- One label is declared again behind its branch, and the other branch is in a subroutine behind
its `proto`. -/
theorem redundant_branches_unobservable_in_subroutine :
    let l : Listing :=
      { ops := [.callsub 0, .branch .always 1, .label 1, .int .pseudo 1, .ret, .label 0,
          .proto 0 0, .branch .always 2, .label 2, .retsub, .label 1, .err] }
    ¬l.Unambiguous ∧ BranchesAhead l ∧ KeepsCalls l (removeRedundantBranches l) ∧
      (removeRedundantBranches l).size + 2 = l.size ∧
      SameEndings .standard l (removeRedundantBranches l) := by
  intro l
  have hahead : BranchesAhead l := by decide
  have hcalls : KeepsCalls l (removeRedundantBranches l) := by decide
  exact ⟨by decide, hahead, hcalls, by decide,
    (redundant_branches_unobservable .standard l hahead).2 hcalls⟩

/-- The label `1` is declared before the redundant branch to it, so that branch goes back and the
program fails. Without the branch it approves. -/
theorem redundant_branch_goes_back :
    let l : Listing :=
      { ops := [.branch .always 0, .label 1, .err, .label 0, .int .pseudo 1, .branch .ifZero 1,
          .int .pseudo 1, .branch .always 1, .label 1, .ret] }
    ¬BranchesAhead l ∧ KeepsCalls l (removeRedundantBranches l) ∧
      ¬SameEndings .standard l (removeRedundantBranches l) := by
  intro l
  have hfails : ∃ e, Halts l .standard {} [] e ∧ e.halt = .faulted .errOpcode :=
    ⟨_, .go rfl (.go rfl (.go rfl (.go rfl (.go rfl (.stop rfl))))), rfl⟩
  have happroves : ∃ e, Halts (removeRedundantBranches l) .standard {} [] e ∧
      e.halt = .terminated (some true) :=
    ⟨_, .go rfl (.go rfl (.go rfl (.go rfl (.stop rfl)))), rfl⟩
  exact ⟨by decide, by decide, not_sameEndings hfails happroves (by decide)⟩

/-- The branch goes ahead, but the `proto` behind it does not follow the call at once and fails.
Without the branch it follows, and the program approves. -/
theorem redundant_branch_hides_call :
    let l : Listing :=
      { ops := [.callsub 0, .int .pseudo 1, .ret, .label 0, .branch .always 1, .label 1,
          .proto 0 0, .retsub] }
    BranchesAhead l ∧ ¬KeepsCalls l (removeRedundantBranches l) ∧
      ¬SameEndings .standard l (removeRedundantBranches l) := by
  intro l
  have hfails : ∃ e, Halts l .standard {} [] e ∧ e.halt = .faulted .protoWithoutCallsub :=
    ⟨_, .go rfl (.go rfl (.stop rfl)), rfl⟩
  have happroves : ∃ e, Halts (removeRedundantBranches l) .standard {} [] e ∧
      e.halt = .terminated (some true) :=
    ⟨_, .go rfl (.go rfl (.go rfl (.go rfl (.stop rfl)))), rfl⟩
  exact ⟨by decide, by decide, not_sameEndings hfails happroves (by decide)⟩

end Optimizer

end Teal
