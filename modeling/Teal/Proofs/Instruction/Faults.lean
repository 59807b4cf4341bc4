import Teal.Proofs.Instruction
/-!
# What a fault says of its line

Most faults come from the values that an instruction finds. Three of them say what is wrong with the
line: it refers to a label that is nowhere declared, it names an opcode that nobody knows, or it is
a `proto`. `Fault.Fits` tells which lines these faults can come from, and `failsOnly_exec` that no
others have them: all other actions are `Exec.Blameless`, by the actions that they are made of.
-/

namespace Teal

/-- Whether a fault says what is wrong with the line. -/
@[grind]
def Fault.blamesLine : Fault → Bool
  | .missingLabel _ | .unknownOpcode _ | .protoWithoutCallsub => true
  | _ => false

/-- What a fault says of the line that it comes from is so. -/
def Fault.Fits (l : Listing) (catalog : Catalog) (op : Op LabelId) : Fault → Prop
  | .missingLabel name => ∃ id ∈ op.targets, l.target? id = none ∧ name = l.labels.name id
  | .unknownOpcode name =>
    (∃ immediates, op = .instr name immediates) ∧ catalog.contains name = false
  | .protoWithoutCallsub => ∃ args results, op = .proto args results
  | _ => True

theorem Fault.fits_of_blameless {f : Fault} (h : f.blamesLine = false) (l : Listing)
    (catalog : Catalog) (op : Op LabelId) : f.Fits l catalog op := by
  cases f with
  | missingLabel | unknownOpcode | protoWithoutCallsub => cases h
  | _ => exact trivial

namespace Exec

/-- An action fails with faults in `P` only. -/
def FailsOnly {α : Type} (P : Fault → Prop) (x : Exec α) : Prop :=
  ∀ s f t, x.run s = .error f t → P f

/-- An action fails only with faults that do not blame the line. -/
def Blameless {α : Type} (x : Exec α) : Prop := x.FailsOnly fun f => f.blamesLine = false

variable {α β : Type} {P : Fault → Prop} {site : Site}

theorem failsOnly_pure (a : α) : (pure a : Exec α).FailsOnly P := by
  rintro _ _ _ ⟨⟩

theorem failsOnly_throw {e : Fault} (h : P e) : (throw e : Exec α).FailsOnly P := by
  rintro s _ _ ⟨⟩
  exact h

theorem failsOnly_bind {x : Exec α} {f : α → Exec β} (hx : x.FailsOnly P)
    (hf : ∀ a, (f a).FailsOnly P) : (x >>= f).FailsOnly P := by
  intro s e t h
  rw [EStateM.run_bind] at h
  cases hr : x.run s with
  | ok a u =>
    rw [hr] at h
    exact hf a u e t h
  | error e' u =>
    rw [hr] at h
    cases h
    exact hx s e t hr

@[grind ←]
theorem blameless_pure (a : α) : (pure a : Exec α).Blameless := failsOnly_pure a

@[grind ←]
theorem blameless_throw {e : Fault} (h : e.blamesLine = false) : (throw e : Exec α).Blameless :=
  failsOnly_throw h

@[grind ←]
theorem blameless_bind {x : Exec α} {f : α → Exec β} (hx : x.Blameless)
    (hf : ∀ a, (f a).Blameless) : (x >>= f).Blameless :=
  failsOnly_bind hx hf

/-! ## State and stack -/

@[grind ←]
theorem blameless_get : Blameless get := by
  rintro _ _ _ ⟨⟩

@[grind ←]
theorem blameless_modify (f : State → State) : Blameless (modify f) := by
  rintro _ _ _ ⟨⟩

@[grind ←]
theorem blameless_stack : Blameless stack := by
  rintro _ _ _ ⟨⟩

@[grind ←]
theorem blameless_setStack (cells : List Cell) : Blameless (setStack cells) := by
  rintro _ _ _ ⟨⟩

@[grind ←]
theorem blameless_setFrames (frames : List Frame) : Blameless (setFrames frames) := by
  rintro _ _ _ ⟨⟩

@[grind ←]
theorem blameless_pushCell (c : Cell) : Blameless (pushCell c) := by
  rintro _ _ _ ⟨⟩

@[grind ←]
theorem blameless_push (v : Value) : Blameless (push site v) := by
  rintro _ _ _ ⟨⟩

@[grind ←]
theorem blameless_pop (name : String) : Blameless (pop name) := by
  unfold pop
  grind

@[grind ←]
theorem blameless_popMany (name : String) (n : Nat) : Blameless (popMany name n) := by
  induction n with
  | zero => exact blameless_pure _
  | succ n ih =>
    unfold popMany
    grind

@[grind ←]
theorem blameless_popUint (name : String) : Blameless (popUint name) := by
  refine blameless_bind (blameless_pop name) fun ⟨v, origin⟩ => ?_
  cases v with
  | uint | unknown => exact blameless_pure _
  | bytes | absent => exact blameless_throw rfl

@[grind ←]
theorem blameless_popBytes (name : String) : Blameless (popBytes name) := by
  refine blameless_bind (blameless_pop name) fun ⟨v, origin⟩ => ?_
  cases v with
  | bytes | unknown => exact blameless_pure _
  | uint | absent => exact blameless_throw rfl

/-! ## Opcodes -/

@[grind ←]
theorem blameless_immediate (immediates : List String) (i : Nat) :
    Blameless (immediate site immediates i) := by
  unfold immediate
  grind

@[grind ←]
theorem blameless_pushMap (f : α → Value) (a : Option α) : Blameless (pushMap site f a) := by
  cases a <;> exact blameless_push _

@[grind ←]
theorem blameless_pushAll (read? : List Char → Option Value) (immediates : List String) :
    Blameless (pushAll site read? immediates) := by
  induction immediates with
  | nil => exact blameless_pure _
  | cons raw rest ih =>
    unfold pushAll
    grind

theorem binary_apply_blameless {op : BinaryOp} {a b : UInt64} {f : Fault}
    (h : op.apply a b = .error f) : f.blamesLine = false := by
  cases op <;> grind [BinaryOp.apply]

@[grind ←]
theorem blameless_compute (immediates : List String) (op : Opcode) :
    Blameless (compute site immediates op) := by
  cases op with
  | binary op =>
    simp only [compute, binary]
    grind [binary_apply_blameless]
  | equal | notEqual =>
    simp only [compute, Exec.compare]
    grind
  | btoi | concat | select | assert =>
    simp only [compute, btoi, concat, select, Exec.assert]
    grind
  | loads | stores =>
    simp only [compute, loads, stores]
    grind
  | substring | extract =>
    simp only [compute, slice]
    grind
  | dig | cover | uncover | bury | dupn =>
    simp only [compute, dig, cover, uncover, bury, dupn]
    grind
  | not | complement | len | itob | pop | dup | dup2 | swap | popn | pushints | pushbytess =>
    simp only [compute]
    grind

@[grind ←]
theorem blameless_popTyped (types : List StackType) : Blameless (popTyped site types) := by
  induction types with
  | nil => exact blameless_pure _
  | cons expected rest ih =>
    unfold popTyped
    grind

@[grind ←]
theorem blameless_pushUnknown (n : Nat) : Blameless (pushUnknown site n) := by
  induction n with
  | zero => exact blameless_pure _
  | succ n ih => exact blameless_bind (blameless_push _) fun _ => ih

/-! ## Lines -/

@[grind ←]
theorem blameless_branch (kind : BranchKind) (target : Nat) :
    Blameless (branch site kind target) := by
  cases kind <;> simp only [branch] <;> grind

@[grind ←]
theorem blameless_callsub (target : Nat) : Blameless (callsub site target) := by
  rintro _ _ _ ⟨⟩

@[grind ←]
theorem blameless_switch (targets : List Nat) : Blameless (switch site targets) := by
  unfold switch
  grind

@[grind ←]
theorem blameless_matchCases (targets : List Nat) : Blameless (matchCases site targets) := by
  unfold matchCases
  grind

@[grind ←]
theorem blameless_retsub : Blameless retsub := by
  unfold retsub
  grind

@[grind ←]
theorem blameless_frameIndex (offset : Int8) : Blameless (frameIndex site offset) := by
  unfold frameIndex
  grind

@[grind ←]
theorem blameless_andNext {action : Exec Unit} (h : Blameless action) :
    Blameless (andNext site action) :=
  blameless_bind h fun _ => blameless_pure _

variable {l : Listing} {catalog : Catalog} {op : Op LabelId}

theorem Blameless.fits {x : Exec α} (h : x.Blameless) : x.FailsOnly (Fault.Fits l catalog op) :=
  fun s f t hf => Fault.fits_of_blameless (h s f t hf) l catalog op

theorem failsOnly_resolve {id : LabelId} (hid : id ∈ op.targets) :
    (resolve l id).FailsOnly (Fault.Fits l catalog op) := by
  unfold resolve
  split
  · exact failsOnly_pure _
  · rename_i hnone
    exact failsOnly_throw ⟨id, hid, hnone, rfl⟩

theorem failsOnly_resolveAll {ids : List LabelId} (hids : ids ⊆ op.targets) :
    (resolveAll l ids).FailsOnly (Fault.Fits l catalog op) := by
  induction ids with
  | nil => exact failsOnly_pure _
  | cons id ids ih =>
    obtain ⟨hid, hids⟩ := List.cons_subset.1 hids
    refine failsOnly_bind (failsOnly_resolve hid) fun pc => ?_
    exact failsOnly_bind (ih hids) fun pcs => failsOnly_pure _

/-- An opcode that is computed need not be in the catalog; one that is not has to be. -/
theorem failsOnly_plain (immediates : List String) :
    (plain site catalog immediates).FailsOnly
      (Fault.Fits l catalog (.instr site.name immediates)) := by
  unfold plain
  split
  · exact (blameless_compute immediates _).fits
  · unfold symbolic
    split
    · refine Blameless.fits ?_
      grind
    · rename_i hnone
      refine failsOnly_throw ⟨⟨immediates, rfl⟩, ?_⟩
      rw [Catalog.contains, hnone]
      rfl

theorem failsOnly_proto (args results : UInt8) (taken given : Nat) :
    (proto site taken given).FailsOnly (Fault.Fits l catalog (.proto args results)) := by
  have hmisplaced : (throw .protoWithoutCallsub : Exec Effect).FailsOnly
      (Fault.Fits l catalog (.proto args results)) :=
    failsOnly_throw ⟨args, results, rfl⟩
  refine failsOnly_bind blameless_get.fits fun s => ?_
  dsimp only
  split
  · split
    · refine Blameless.fits ?_
      grind
    · exact hmisplaced
  · exact hmisplaced

end Exec

open Exec in
theorem failsOnly_exec (l : Listing) (catalog : Catalog) (pc : Nat) (op : Op LabelId) :
    (op.exec l catalog pc).FailsOnly (Fault.Fits l catalog op) := by
  unfold Op.exec
  cases op with
  | branch kind target =>
    refine failsOnly_bind (failsOnly_resolve List.mem_cons_self) fun i => ?_
    exact (blameless_branch kind i).fits
  | callsub target =>
    refine failsOnly_bind (failsOnly_resolve List.mem_cons_self) fun i => ?_
    exact (blameless_callsub i).fits
  | switch targets =>
    refine failsOnly_bind (failsOnly_resolveAll (List.Subset.refl _)) fun is => ?_
    exact (blameless_switch is).fits
  | matchCases targets =>
    refine failsOnly_bind (failsOnly_resolveAll (List.Subset.refl _)) fun is => ?_
    exact (blameless_matchCases is).fits
  | proto args results =>
    exact failsOnly_proto args results _ _
  | instr name immediates =>
    exact failsOnly_bind (failsOnly_plain immediates) fun _ => failsOnly_pure _
  | comment | empty | label | pragma | int | bytes | err | ret | load | store | frameDig
  | frameBury | retsub =>
    refine Blameless.fits ?_
    simp only [line, load, store, frameDig, frameBury]
    grind

end Teal
