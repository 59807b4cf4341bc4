import Teal.Machine.Branch
import Teal.Proofs.Comparison.Instruction
/-!
# What an instruction can do

Almost every instruction works on the stack alone. `Exec.StackOnly` says so of an action, and
sequencing hands it on, so an opcode is settled by the actions it is made of. What is left are
`store` and `stores`, which write to scratch space, and the three instructions that work on the
call frames.

`Op.Outcome` lists what an instruction can come to: what becomes of the call frames and where
control goes. `exec_outcome` proves it of every instruction, so nothing after it has to look at how
instructions are made. `Branch.TurnCases` says the same of a whole turn.
-/

namespace Teal

/-- The same state with another stack. -/
def State.withStack (s : State) (cells : List Cell) : State :=
  { s with thread := { s.thread with stack := cells } }

/-- The same state with other call frames. -/
def State.withFrames (s : State) (frames : List Frame) : State :=
  { s with thread := { s.thread with frames } }

namespace Exec

/-- The state that an action leaves, whether it succeeds or fails. -/
def stateAfter {α : Type} (x : Exec α) (s : State) : State :=
  match x.run s with
  | .ok _ t | .error _ t => t

/-- An action changes the stack and nothing else. -/
def StackOnly {α : Type} (x : Exec α) : Prop := ∀ s, ∃ cells, x.stateAfter s = s.withStack cells

variable {α β : Type} {site : Site}

@[grind ←]
theorem stackOnly_pure (a : α) : StackOnly (pure a : Exec α) := fun s => ⟨s.thread.stack, rfl⟩

@[grind ←]
theorem stackOnly_throw (e : Fault) : StackOnly (throw e : Exec α) := fun s => ⟨s.thread.stack, rfl⟩

/-- What two actions do to the state is what the first does and then the second. -/
theorem stateAfter_bind {R : State → State → Prop} (htrans : ∀ {s t u}, R s t → R t u → R s u)
    {x : Exec α} {f : α → Exec β} (hx : ∀ s, R s (x.stateAfter s))
    (hf : ∀ a s, R s ((f a).stateAfter s)) (s : State) : R s ((x >>= f).stateAfter s) := by
  have h := hx s
  simp only [stateAfter, EStateM.run_bind] at h ⊢
  cases hr : x.run s with
  | ok a t =>
    rw [hr] at h
    exact htrans h (hf a t)
  | error e t =>
    rw [hr] at h
    exact h

@[grind ←]
theorem stackOnly_bind {x : Exec α} {f : α → Exec β} (hx : StackOnly x)
    (hf : ∀ a, StackOnly (f a)) : StackOnly (x >>= f) := by
  refine stateAfter_bind (R := fun s t => ∃ cells, t = s.withStack cells) ?_ hx hf
  rintro s _ _ ⟨_, rfl⟩ ⟨cells, rfl⟩
  exact ⟨cells, rfl⟩

/-! ## The stack -/

@[grind ←]
theorem stackOnly_get : StackOnly get := fun s => ⟨s.thread.stack, rfl⟩

@[grind ←]
theorem stackOnly_stack : StackOnly stack := fun s => ⟨s.thread.stack, rfl⟩

@[grind ←]
theorem stackOnly_setStack (cells : List Cell) : StackOnly (setStack cells) := fun _ => ⟨cells, rfl⟩

@[grind ←]
theorem stackOnly_pushCell (c : Cell) : StackOnly (pushCell c) :=
  stackOnly_bind stackOnly_stack fun _ => stackOnly_setStack _

@[grind ←]
theorem stackOnly_push (v : Value) : StackOnly (push site v) := stackOnly_pushCell _

@[grind ←]
theorem stackOnly_pop (name : String) : StackOnly (pop name) := by
  unfold pop
  grind

@[grind ←]
theorem stackOnly_popMany (name : String) (n : Nat) : StackOnly (popMany name n) := by
  induction n with
  | zero => exact stackOnly_pure _
  | succ n ih =>
    unfold popMany
    grind

@[grind ←]
theorem stackOnly_popUint (name : String) : StackOnly (popUint name) := by
  refine stackOnly_bind (stackOnly_pop name) fun ⟨v, origin⟩ => ?_
  cases v with
  | uint | unknown => exact stackOnly_pure _
  | bytes | absent => exact stackOnly_throw _

@[grind ←]
theorem stackOnly_popBytes (name : String) : StackOnly (popBytes name) := by
  refine stackOnly_bind (stackOnly_pop name) fun ⟨v, origin⟩ => ?_
  cases v with
  | bytes | unknown => exact stackOnly_pure _
  | uint | absent => exact stackOnly_throw _

/-! ## Opcodes -/

@[grind ←]
theorem stackOnly_immediate (immediates : List String) (i : Nat) :
    StackOnly (immediate site immediates i) := by
  unfold immediate
  grind

@[grind ←]
theorem stackOnly_pushMap (f : α → Value) (a : Option α) : StackOnly (pushMap site f a) := by
  cases a <;> exact stackOnly_push _

@[grind ←]
theorem stackOnly_pushAll (read? : List Char → Option Value) (immediates : List String) :
    StackOnly (pushAll site read? immediates) := by
  induction immediates with
  | nil => exact stackOnly_pure _
  | cons raw rest ih =>
    unfold pushAll
    grind

theorem stackOnly_compute (immediates : List String) {op : Opcode} (hop : op ≠ .stores) :
    StackOnly (compute site immediates op) := by
  cases op with
  | stores => exact absurd rfl hop
  | binary op =>
    simp only [compute, binary]
    grind
  | equal | notEqual =>
    simp only [compute, Exec.compare]
    grind
  | btoi | concat | select | assert | loads =>
    simp only [compute, btoi, concat, select, Exec.assert, loads]
    grind
  | substring | extract =>
    simp only [compute, slice]
    grind
  | dig | cover | uncover | bury | dupn =>
    simp only [compute, dig, cover, uncover, bury, dupn]
    grind
  | not | complement | len | itob | pop | dup | dup2 | swap | popn | pushints | pushbytess =>
    simp only [compute]
    grind

@[grind ←]
theorem stackOnly_popTyped (types : List StackType) : StackOnly (popTyped site types) := by
  induction types with
  | nil => exact stackOnly_pure _
  | cons expected rest ih =>
    unfold popTyped
    grind

@[grind ←]
theorem stackOnly_pushUnknown (n : Nat) : StackOnly (pushUnknown site n) := by
  induction n with
  | zero => exact stackOnly_pure _
  | succ n ih => exact stackOnly_bind (stackOnly_push _) fun _ => ih

theorem stackOnly_plain (catalog : Catalog) (immediates : List String)
    (hname : site.name ≠ Opcode.stores.name) : StackOnly (plain site catalog immediates) := by
  unfold plain
  split
  · rename_i op h
    refine stackOnly_compute immediates ?_
    rintro rfl
    exact hname (Opcode.name_of_ofName? h).symm
  · unfold symbolic
    grind

/-! ## Lines -/

@[grind ←]
theorem stackOnly_resolve (l : Listing) (id : LabelId) : StackOnly (resolve l id) := by
  unfold resolve
  grind

@[grind ←]
theorem stackOnly_resolveAll (l : Listing) (ids : List LabelId) : StackOnly (resolveAll l ids) := by
  induction ids with
  | nil => exact stackOnly_pure _
  | cons id ids ih =>
    unfold resolveAll
    grind

@[grind ←]
theorem stackOnly_frameIndex (offset : Int8) : StackOnly (frameIndex site offset) := by
  unfold frameIndex
  grind

@[grind ←]
theorem stackOnly_andNext {action : Exec Unit} (h : StackOnly action) :
    StackOnly (andNext site action) :=
  stackOnly_bind h fun _ => stackOnly_pure _

theorem stateAfter_andNext (site : Site) (action : Exec Unit) (s : State) :
    (andNext site action).stateAfter s = action.stateAfter s := by
  simp only [stateAfter, andNext, EStateM.run_bind]
  cases action.run s <;> rfl

theorem run_andNext_ok {action : Exec Unit} {s t : State} (h : action.run s = .ok () t) :
    (andNext site action).run s = .ok (.goto (site.pc + 1)) t := by
  rw [andNext, EStateM.run_bind, h]
  rfl

theorem run_andNext_error {action : Exec Unit} {e : Fault} {s t : State}
    (h : action.run s = .error e t) : (andNext site action).run s = .error e t := by
  rw [andNext, EStateM.run_bind, h]

/-- A line with an opcode that is computed does what the opcode does, and goes on. -/
theorem exec_opcode (l : Listing) (catalog : Catalog) (pc : Nat) (op : Opcode)
    (immediates : List String) :
    Op.exec l catalog pc (.instr op.name immediates) =
      andNext (.ofLine l pc (.instr op.name immediates))
        (compute (.ofLine l pc (.instr op.name immediates)) immediates op) := by
  have hname : (Site.ofLine l pc (.instr op.name immediates)).name = op.name := rfl
  rw [Op.exec, line, plain, hname, Opcode.ofName?_name]

/-! ## Call frames -/

/-- An action leaves the call frames as they are. -/
def KeepsFrames (x : Exec α) : Prop := ∀ s, (x.stateAfter s).thread.frames = s.thread.frames

theorem StackOnly.keepsFrames {x : Exec α} (h : x.StackOnly) : x.KeepsFrames := by
  intro s
  obtain ⟨cells, hs⟩ := h s
  rw [hs]
  rfl

theorem keepsFrames_bind {x : Exec α} {f : α → Exec β} (hx : KeepsFrames x)
    (hf : ∀ a, KeepsFrames (f a)) : KeepsFrames (x >>= f) :=
  stateAfter_bind (R := fun s t => t.thread.frames = s.thread.frames) (fun h h' => h'.trans h) hx hf

theorem keepsFrames_andNext {action : Exec Unit} (h : KeepsFrames action) :
    KeepsFrames (andNext site action) := by
  intro s
  rw [stateAfter_andNext]
  exact h s

theorem keepsFrames_store (slot : UInt8) : KeepsFrames (store site slot) :=
  keepsFrames_bind (stackOnly_pop _).keepsFrames fun _ _ => rfl

theorem keepsFrames_stores : KeepsFrames (stores site) := by
  refine keepsFrames_bind (stackOnly_pop _).keepsFrames fun c => ?_
  refine keepsFrames_bind (stackOnly_popUint _).keepsFrames fun slot => ?_
  cases slot with
  | none => exact (stackOnly_pure ()).keepsFrames
  | some slot =>
    refine keepsFrames_bind stackOnly_get.keepsFrames fun s => ?_
    cases s.scratch.set? slot.toNat c with
    | none => exact (stackOnly_throw _).keepsFrames
    | some t => exact fun _ => rfl

/-! ## Where control goes -/

/-- Whenever an action succeeds its result satisfies `P`. -/
def Ensures (x : Exec α) (P : α → Prop) : Prop := ∀ s a t, x.run s = .ok a t → P a

theorem ensures_pure {P : α → Prop} {a : α} (h : P a) : Ensures (pure a) P := by
  rintro s _ _ ⟨⟩
  exact h

theorem ensures_throw (P : α → Prop) (e : Fault) : Ensures (throw e) P := nofun

theorem ensures_bind {P : α → Prop} {Q : β → Prop} {x : Exec α} {f : α → Exec β}
    (hx : x.Ensures P) (hf : ∀ a, P a → (f a).Ensures Q) : (x >>= f).Ensures Q := by
  intro s b u h
  rw [EStateM.run_bind] at h
  cases hr : x.run s with
  | ok a t =>
    rw [hr] at h
    exact hf a (hx s a t hr) t b u h
  | error e t =>
    rw [hr] at h
    cases h

/-- Where nothing need be known of the first result. -/
theorem ensures_seq {Q : β → Prop} (x : Exec α) {f : α → Exec β} (hf : ∀ a, (f a).Ensures Q) :
    (x >>= f).Ensures Q :=
  ensures_bind (P := fun _ => True) (fun _ _ _ _ => trivial) fun a _ => hf a

theorem ensures_resolve (l : Listing) (id : LabelId) :
    (resolve l id).Ensures fun i => l.target? id = some i := by
  unfold resolve
  split
  · rename_i pc h
    exact ensures_pure h
  · exact ensures_throw _ _

theorem ensures_resolveAll (l : Listing) (ids : List LabelId) :
    (resolveAll l ids).Ensures fun is => ∀ i ∈ is, ∃ id ∈ ids, l.target? id = some i := by
  induction ids with
  | nil => exact ensures_pure nofun
  | cons id ids ih =>
    refine ensures_bind (ensures_resolve l id) fun pc hpc => ensures_bind ih fun pcs hpcs => ?_
    refine ensures_pure fun i hi => ?_
    rcases List.mem_cons.1 hi with rfl | hi
    · exact ⟨id, List.mem_cons_self, hpc⟩
    · obtain ⟨id', hid, h⟩ := hpcs i hi
      exact ⟨id', List.mem_cons_of_mem id hid, h⟩

end Exec

namespace Op

variable {ι : Type}

/-- The instructions that may write to scratch space. -/
def writesScratch : Op ι → Bool
  | .store _ => true
  | .instr name _ => name == Opcode.stores.name
  | _ => false

/-- The instructions that change the call frames. -/
def changesFrames : Op ι → Bool
  | .callsub _ | .proto _ _ | .retsub => true
  | _ => false

end Op

section Exec
variable (l : Listing) (catalog : Catalog) (pc : Nat)

open Exec in
theorem stackOnly_exec {op : Op LabelId} (hscratch : op.writesScratch = false)
    (hframes : op.changesFrames = false) : (op.exec l catalog pc).StackOnly := by
  unfold Op.exec
  cases op with
  | store => cases hscratch
  | callsub | proto | retsub => cases hframes
  | instr name immediates =>
    refine stackOnly_andNext (stackOnly_plain catalog immediates ?_)
    simpa [Op.writesScratch, Site.ofLine, Op.mnemonic?] using hscratch
  | branch kind target =>
    cases kind <;> simp only [line, branch] <;> grind
  | switch | matchCases | ret =>
    simp only [line, switch, matchCases]
    grind
  | load | frameDig | frameBury =>
    simp only [line, load, frameDig, frameBury]
    grind
  | comment | empty | pragma | label | int | bytes | err =>
    simp only [line]
    grind

open Exec in
theorem keepsFrames_exec {op : Op LabelId} (h : op.changesFrames = false) :
    (op.exec l catalog pc).KeepsFrames := by
  cases hscratch : op.writesScratch with
  | false => exact (stackOnly_exec l catalog pc hscratch h).keepsFrames
  | true =>
    unfold Op.exec
    cases op with
    | store slot => exact keepsFrames_andNext (keepsFrames_store slot)
    | instr name immediates =>
      have hname : name = Opcode.stores.name := by simpa [Op.writesScratch] using hscratch
      subst hname
      refine keepsFrames_andNext ?_
      simp only [plain, Site.ofLine, Op.mnemonic?, Option.getD_some, Opcode.ofName?_name]
      exact keepsFrames_stores
    | _ => cases hscratch

end Exec

/-- An instruction may send control to line `i` without a return: that is the next line, unless it
ends the flow, or the line of a label it refers to. -/
def Op.Reaches (l : Listing) (pc : Nat) (op : Op LabelId) (i : Nat) : Prop :=
  (op.endsFlow = false ∧ i = pc + 1) ∨ ∃ id ∈ op.targets, l.target? id = some i

/-- The effect of an instruction that leaves the call frames alone: control goes to lines that it
reaches, or the program ends. -/
def Effect.Continues (l : Listing) (pc : Nat) (op : Op LabelId) (e : Effect) : Prop :=
  (op = .ret ∧ ∃ verdict, e = .halt verdict) ∨ e.lines ≠ [] ∧ ∀ i ∈ e.lines, op.Reaches l pc i

section Continues
variable {l : Listing} {pc : Nat} {op : Op LabelId}

theorem continues_goto {i : Nat} (h : op.Reaches l pc i) : (Effect.goto i).Continues l pc op := by
  refine .inr ⟨nofun, fun j hj => ?_⟩
  cases List.mem_singleton.1 hj
  exact h

theorem continues_fork (hflow : op.endsFlow = false) {targets : List Nat}
    (h : ∀ i ∈ targets, op.Reaches l pc i) :
    (Effect.fork (pc + 1) targets).Continues l pc op := by
  refine .inr ⟨nofun, fun j hj => ?_⟩
  rcases List.mem_cons.1 hj with rfl | hj
  · exact .inl ⟨hflow, rfl⟩
  · exact h j hj

open Exec

theorem ensures_andNext (hop : op.endsFlow = false) (site : Site) (action : Exec Unit) :
    (andNext site action).Ensures fun e => e.Continues l site.pc op :=
  ensures_seq action fun _ => ensures_pure (continues_goto (.inl ⟨hop, rfl⟩))

theorem ensures_branch (site : Site) {kind : BranchKind} {target : LabelId} {i : Nat}
    (hi : l.target? target = some i) :
    (branch site kind i).Ensures fun e => e.Continues l site.pc (.branch kind target) := by
  have htarget : (Op.branch kind target).Reaches l site.pc i :=
    .inr ⟨target, List.mem_singleton_self target, hi⟩
  have hnext : (Op.branch kind target).endsFlow = false →
      (Op.branch kind target).Reaches l site.pc (site.pc + 1) := fun hflow => .inl ⟨hflow, rfl⟩
  have hfork : (Op.branch kind target).endsFlow = false →
      (Effect.fork (site.pc + 1) [i]).Continues l site.pc (.branch kind target) := by
    intro hflow
    refine continues_fork hflow fun j hj => ?_
    cases List.mem_singleton.1 hj
    exact htarget
  cases kind with
  | always => exact ensures_pure (continues_goto htarget)
  | ifZero | ifNonZero =>
    refine ensures_seq _ fun n => ?_
    cases n with
    | none => exact ensures_pure (hfork rfl)
    | some n =>
      have hnext := hnext rfl
      refine ensures_pure (continues_goto ?_)
      split <;> assumption

theorem ensures_switch (site : Site) (hflow : op.endsFlow = false) {targets : List Nat}
    (h : ∀ i ∈ targets, op.Reaches l site.pc i) :
    (switch site targets).Ensures fun e => e.Continues l site.pc op := by
  refine ensures_seq _ fun n => ?_
  cases n with
  | none => exact ensures_pure (continues_fork hflow h)
  | some n =>
    refine ensures_pure (continues_goto ?_)
    cases hn : targets[n.toNat]? with
    | none => exact .inl ⟨hflow, rfl⟩
    | some i => exact h i (List.mem_of_getElem? hn)

theorem ensures_matchCases (site : Site) (hflow : op.endsFlow = false) {targets : List Nat}
    (h : ∀ i ∈ targets, op.Reaches l site.pc i) :
    (matchCases site targets).Ensures fun e => e.Continues l site.pc op := by
  refine ensures_seq _ fun needle => ensures_seq _ fun popped => ?_
  split
  · exact ensures_pure (continues_fork hflow h)
  · refine ensures_pure (continues_goto ?_)
    have hhit := Comparison.hit_mem popped.reverse targets needle.value (site.pc + 1)
    rcases List.mem_cons.1 hhit with hnext | hmem
    · exact .inl ⟨hflow, hnext⟩
    · exact h _ hmem

theorem ensures_exec (catalog : Catalog) (h : op.changesFrames = false) :
    (op.exec l catalog pc).Ensures fun e => e.Continues l pc op := by
  unfold Op.exec
  cases op with
  | callsub | proto | retsub => cases h
  | branch kind target =>
    exact ensures_bind (ensures_resolve l target) fun i hi => ensures_branch _ hi
  | switch targets =>
    exact ensures_bind (ensures_resolveAll l targets) fun is his =>
      ensures_switch _ rfl fun i hi => .inr (his i hi)
  | matchCases targets =>
    exact ensures_bind (ensures_resolveAll l targets) fun is his =>
      ensures_matchCases _ rfl fun i hi => .inr (his i hi)
  | ret => exact ensures_seq _ fun v => ensures_pure (.inl ⟨rfl, _, rfl⟩)
  | err => exact ensures_throw _ _
  | _ => exact ensures_andNext rfl _ _

end Continues

/-! ## Outcomes -/

/-- What an instruction can come to in a state. -/
inductive Op.Outcome (l : Listing) (pc : Nat) (s : State) :
    Op LabelId → EStateM.Result Fault State Effect → Prop
  /-- A call opens a frame that remembers the next line and the height of the stack. -/
  | calls {target line} : l.target? target = some line →
      Outcome l pc s (.callsub target) (.ok (.goto line) (s.withFrames
        ({ returnPc := pc + 1, sp := s.thread.stack.length } :: s.thread.frames)))
  /-- The arguments and results of the frame are declared that the call just before opened. -/
  | declares {args results : UInt8} {frame rest} : s.thread.frames = frame :: rest →
      s.thread.afterCall = true → frame.declared = false → args.toNat ≤ frame.sp →
      Outcome l pc s (.proto args results) (.ok (.goto (pc + 1)) (s.withFrames
        ({ frame with args := args.toNat, results := results.toNat, declared := true } :: rest)))
  /-- A return closes a frame that is not declared. -/
  | returns {frame rest} : s.thread.frames = frame :: rest → frame.declared = false →
      Outcome l pc s .retsub (.ok (.goto frame.returnPc) (s.withFrames rest))
  /-- The results of a declared frame take the place of its arguments. -/
  | yields {frame rest} : s.thread.frames = frame :: rest → frame.declared = true →
      frame.sp - frame.args + frame.results ≤ s.thread.stack.length →
      Outcome l pc s .retsub (.ok (.goto frame.returnPc) ((s.withFrames rest).withStack
        (s.thread.stack.take frame.results ++
          s.thread.stack.drop (s.thread.stack.length - (frame.sp - frame.args)))))
  /-- The results are missing; the frame is closed all the same. -/
  | lacks {frame rest} : s.thread.frames = frame :: rest →
      Outcome l pc s .retsub (.error (.stackUnderflow "retsub") (s.withFrames rest))
  /-- The instruction fails, and leaves the frames as they are. -/
  | fails {op f t} : t.thread.frames = s.thread.frames →
      (op.changesFrames = true → t = s) → Outcome l pc s op (.error f t)
  /-- Any other instruction leaves the frames as they are. -/
  | works {op e t} : op.changesFrames = false → t.thread.frames = s.thread.frames →
      e.Continues l pc op → Outcome l pc s op (.ok e t)

section Outcome
variable (l : Listing) (catalog : Catalog) (pc : Nat) (s : State)

theorem callsub_outcome (target : LabelId) :
    (Op.callsub target).Outcome l pc s (((Op.callsub target).exec l catalog pc).run s) := by
  simp only [Op.exec, Exec.line, Exec.resolve]
  cases h : l.target? target with
  | some line => exact .calls h
  | none => exact .fails rfl fun _ => rfl

theorem proto_outcome (args results : UInt8) :
    (Op.proto args results).Outcome l pc s (((Op.proto args results).exec l catalog pc).run s) := by
  obtain ⟨⟨cells, frames, afterCall⟩, scratch⟩ := s
  cases frames with
  | nil => exact .fails rfl fun _ => rfl
  | cons frame rest =>
    have hrun : ((Op.proto args results : Op LabelId).exec l catalog pc).run
        ⟨⟨cells, frame :: rest, afterCall⟩, scratch⟩ =
        (if afterCall && !frame.declared then
          if frame.sp < args.toNat then throw (.stackUnderflow "proto")
          else do
            Exec.setFrames ({ frame with
              args := args.toNat, results := results.toNat, declared := true } :: rest)
            return .goto (pc + 1)
        else throw .protoWithoutCallsub : Exec Effect).run
          ⟨⟨cells, frame :: rest, afterCall⟩, scratch⟩ := rfl
    rw [hrun]
    split
    · rename_i hopen
      simp only [Bool.and_eq_true, Bool.not_eq_true'] at hopen
      split
      · exact .fails rfl fun _ => rfl
      · rename_i hargs
        exact .declares rfl hopen.1 hopen.2 (Nat.le_of_not_lt hargs)
    · exact .fails rfl fun _ => rfl

theorem retsub_outcome : Op.Outcome l pc s .retsub ((Op.exec l catalog pc .retsub).run s) := by
  obtain ⟨⟨cells, frames, afterCall⟩, scratch⟩ := s
  rcases frames with _ | ⟨⟨returnPc, sp, args, results, declared⟩, rest⟩
  · exact .fails rfl fun _ => rfl
  · cases declared with
    | false => exact .returns rfl rfl
    | true =>
      have hrun : ((Op.retsub : Op LabelId).exec l catalog pc).run
          ⟨⟨cells, ⟨returnPc, sp, args, results, true⟩ :: rest, afterCall⟩, scratch⟩ =
          (do
            if cells.length < sp - args + results then throw (.stackUnderflow "retsub")
            else Exec.setStack (cells.take results ++ cells.drop (cells.length - (sp - args)))
            return .goto returnPc : Exec Effect).run ⟨⟨cells, rest, afterCall⟩, scratch⟩ := rfl
      rw [hrun]
      split
      · exact .lacks rfl
      · rename_i hresults
        exact @Op.Outcome.yields l pc _ ⟨returnPc, sp, args, results, true⟩ rest rfl rfl
          (Nat.le_of_not_lt hresults)

theorem exec_outcome (op : Op LabelId) : op.Outcome l pc s ((op.exec l catalog pc).run s) := by
  cases hop : op.changesFrames with
  | true =>
    cases op with
    | callsub target => exact callsub_outcome l catalog pc s target
    | proto args results => exact proto_outcome l catalog pc s args results
    | retsub => exact retsub_outcome l catalog pc s
    | _ => cases hop
  | false =>
    have hframes := keepsFrames_exec l catalog pc hop s
    have heffect := @ensures_exec l pc op catalog hop s
    unfold Exec.stateAfter at hframes
    cases hr : (op.exec l catalog pc).run s with
    | ok e t =>
      rw [hr] at hframes
      exact .works hop hframes (heffect e t hr)
    | error f t =>
      rw [hr] at hframes
      exact .fails hframes fun h => by cases hop.symm.trans h

end Outcome

/-- Only a return sends control elsewhere than to the next line or to a label. -/
theorem Op.Outcome.continues {l : Listing} {pc : Nat} {s t : State} {op : Op LabelId} {e : Effect}
    (h : op.Outcome l pc s (.ok e t)) (hop : op ≠ .retsub) : e.Continues l pc op := by
  cases h with
  | calls hline => exact continues_goto (.inr ⟨_, List.mem_singleton_self _, hline⟩)
  | declares => exact continues_goto (.inl ⟨rfl, rfl⟩)
  | returns => exact absurd rfl hop
  | yields => exact absurd rfl hop
  | works _ _ he => exact he

/-! ## Turns -/

/-- What one turn of a branch can come to. -/
inductive Branch.TurnCases (l : Listing) (catalog : Catalog) (traced : Bool) (scratch : Scratch)
    (b : Branch) : Turn → Prop
  /-- There is no budget for another line. -/
  | spent : b.budget = 0 →
      TurnCases l catalog traced scratch b { branch := b, scratch, halt := some .exhausted }
  /-- There is no line left. -/
  | left : l.fetch? b.pc = none →
      TurnCases l catalog traced scratch b { branch := b, scratch, halt := some (.terminated none) }
  /-- The line fails. -/
  | fails {pc op fault s} : l.fetch? b.pc = some (pc, op) →
      op.Outcome l pc ⟨b.thread, scratch⟩ (.error fault s) →
      TurnCases l catalog traced scratch b
        { branch := b.charge catalog traced pc op s.thread, scratch := s.scratch
          executed := some pc, halt := some (.faulted fault) }
  /-- The line ends the program. -/
  | ends {pc op approved s} : l.fetch? b.pc = some (pc, op) →
      op.Outcome l pc ⟨b.thread, scratch⟩ (.ok (.halt approved) s) →
      TurnCases l catalog traced scratch b
        { branch := b.charge catalog traced pc op s.thread, scratch := s.scratch
          executed := some pc, halt := some (.terminated approved) }
  /-- Control goes on, perhaps several ways. -/
  | goes {pc op e s next others} : l.fetch? b.pc = some (pc, op) →
      op.Outcome l pc ⟨b.thread, scratch⟩ (.ok e s) → e.lines = next :: others →
      TurnCases l catalog traced scratch b
        ((b.charge catalog traced pc op s.thread).goOn s.scratch pc next others)

theorem Branch.turn_cases (l : Listing) (catalog : Catalog) (traced : Bool) (scratch : Scratch)
    (b : Branch) :
    b.TurnCases l catalog traced scratch (b.turn l catalog traced scratch) := by
  unfold turn
  split
  · rename_i hbudget
    exact .spent hbudget
  · split
    · rename_i hfetch
      exact .left hfetch
    · rename_i pc op hfetch
      have hout := exec_outcome l catalog pc ⟨b.thread, scratch⟩ op
      split <;> rename_i hs <;> rw [hs] at hout
      · exact .fails hfetch hout
      · exact .ends hfetch hout
      · exact .goes hfetch hout rfl
      · exact .goes hfetch hout rfl

/-- A turn keeps the number of its branch and its parent. -/
theorem Branch.TurnCases.same {l : Listing} {catalog : Catalog} {traced : Bool} {scratch : Scratch}
    {b : Branch} {t : Turn} (h : b.TurnCases l catalog traced scratch t) :
    t.branch.id = b.id ∧ t.branch.parent = b.parent ∧ t.branch.halt = b.halt := by
  cases h <;> exact ⟨rfl, rfl, rfl⟩

/-- A branch that has no budget is stopped at its turn. -/
theorem Branch.turn_of_spent {l : Listing} {b : Branch} (hzero : b.budget = 0) (catalog : Catalog)
    (traced : Bool) (scratch : Scratch) :
    b.turn l catalog traced scratch = { branch := b, scratch, halt := some .exhausted } :=
  if_pos hzero

/-! ## The exit -/

namespace Branch

variable {b : Branch}

/-- A turn does not bring its branch to the exit; retirement does. -/
theorem TurnCases.inside {l : Listing} {catalog : Catalog} {traced : Bool} {scratch : Scratch}
    {t : Turn} (h : b.TurnCases l catalog traced scratch t) (hb : b.line? = some b.pc) :
    t.branch.line? = some t.branch.pc := by
  refine line?_of_same ?_ hb
  cases h <;> rfl

/-- The branch once its turn has come to `halt`: it is retired if it has stopped. -/
def settle (b : Branch) (halt : Option Halt) : Branch :=
  { b with halt, atExit := halt.elim b.atExit fun h => (b.retire h).atExit }

theorem settle_none (h : b.halt = none) : b.settle none = b := by
  cases b
  cases h
  rfl

end Branch

end Teal
