import Teal.Machine.Branch
import Teal.Proofs.Flow
import Teal.Proofs.Instruction
/-!
# What is written to scratch space

Branches share scratch space, so what a turn writes there is all that it does to other branches.
Only `store` and `stores` write, and only to the slot they address: `Op.slot?`. Of every other
instruction `Exec.KeepsScratch` says so: it works on the stack alone, or on the call frames.
-/

namespace Teal

namespace Exec

/-- An action does not write to scratch space. -/
def KeepsScratch {α : Type} (x : Exec α) : Prop := ∀ s, (x.stateAfter s).scratch = s.scratch

theorem StackOnly.keepsScratch {α : Type} {x : Exec α} (h : x.StackOnly) : x.KeepsScratch := by
  intro s
  obtain ⟨cells, hs⟩ := h s
  rw [hs]
  rfl

end Exec

namespace Op

variable {ι : Type}

/-- The scratch slot that an instruction addresses for writing, given the stack before it. -/
def slot? (stack : List Cell) : Op ι → Option Nat
  | .store slot => some slot.toNat
  | .instr name _ =>
    if name = Opcode.stores.name then
      match stack with
      | _ :: { value := .uint slot, .. } :: _ => some slot.toNat
      | _ => none
    else none
  | _ => none

theorem slot?_eq_none {op : Op ι} (h : op.writesScratch = false) (stack : List Cell) :
    op.slot? stack = none := by
  cases op <;> simp_all [writesScratch, slot?]

end Op

theorem keepsScratch_exec (l : Listing) (catalog : Catalog) (pc : Nat) {op : Op LabelId}
    (h : op.writesScratch = false) : (op.exec l catalog pc).KeepsScratch := by
  cases hframes : op.changesFrames with
  | false => exact (stackOnly_exec l catalog pc h hframes).keepsScratch
  | true =>
    intro s
    have hout := exec_outcome l catalog pc s op
    unfold Exec.stateAfter
    generalize (op.exec l catalog pc).run s = r at hout
    cases hout with
    | calls | declares | returns | yields | lacks => rfl
    | fails _ hsame => rw [hsame hframes]
    | works hop => cases hframes.symm.trans hop

/-! ## What is written -/

namespace Scratch

variable {s t : Scratch} {slot : Nat} {c : Cell}

theorem set?_toNat (s : Scratch) (slot : UInt8) (c : Cell) :
    s.set? slot.toNat c = some (s.write slot c) :=
  dif_pos slot.toNat_lt

theorem get?_set?_ne (h : s.set? slot c = some t) {i : Nat} (hne : i ≠ slot) :
    t.get? i = s.get? i := by
  unfold set? at h
  split at h
  · cases h
    simp [get?, Ne.symm hne]
  · cases h

end Scratch

/-- Scratch space `t` is `s` with at most the given slot overwritten. -/
def Scratch.WrittenAt (s t : Scratch) (slot : Option Nat) : Prop :=
  t = s ∨ ∃ i c, slot = some i ∧ s.set? i c = some t

theorem stores_writtenAt (site : Site) (s : State) (immediates : List String) :
    s.scratch.WrittenAt ((Exec.stores site).stateAfter s).scratch
      ((Op.instr (ι := LabelId) Opcode.stores.name immediates).slot? s.thread.stack) := by
  obtain ⟨⟨cells, frames, afterCall⟩, scratch⟩ := s
  rcases cells with _ | ⟨c, _ | ⟨⟨v, origin⟩, rest⟩⟩
  · exact .inl rfl
  · exact .inl rfl
  · cases v with
    | absent | unknown | bytes => exact .inl rfl
    | uint slot =>
      have hpop : (Exec.pop site.name).run
          ⟨⟨c :: ⟨.uint slot, origin⟩ :: rest, frames, afterCall⟩, scratch⟩ =
          .ok c ⟨⟨⟨.uint slot, origin⟩ :: rest, frames, afterCall⟩, scratch⟩ := rfl
      have hslot : (Exec.popUint site.name).run
          ⟨⟨⟨.uint slot, origin⟩ :: rest, frames, afterCall⟩, scratch⟩ =
          .ok (some slot) ⟨⟨rest, frames, afterCall⟩, scratch⟩ := rfl
      simp only [Exec.stateAfter, Exec.stores, EStateM.run_bind, hpop, hslot, EStateM.run_get]
      cases hset : scratch.set? slot.toNat c with
      | some t => exact .inr ⟨slot.toNat, c, rfl, hset⟩
      | none => exact .inl rfl

/-- An instruction writes at most the slot that it addresses. -/
theorem exec_writtenAt (l : Listing) (catalog : Catalog) (pc : Nat) (op : Op LabelId) (s : State) :
    s.scratch.WrittenAt ((op.exec l catalog pc).stateAfter s).scratch
      (op.slot? s.thread.stack) := by
  cases hop : op.writesScratch with
  | false => exact .inl (keepsScratch_exec l catalog pc hop s)
  | true =>
    unfold Op.exec
    cases op with
    | store slot =>
      obtain ⟨⟨cells, frames, afterCall⟩, scratch⟩ := s
      cases cells with
      | nil => exact .inl rfl
      | cons c rest => exact .inr ⟨slot.toNat, c, rfl, scratch.set?_toNat slot c⟩
    | instr name immediates =>
      have hname : name = Opcode.stores.name := by simpa [Op.writesScratch] using hop
      subst hname
      rw [Exec.line, Exec.stateAfter_andNext]
      simp only [Exec.plain, Site.ofLine, Op.mnemonic?, Option.getD_some, Opcode.ofName?_name]
      exact stores_writtenAt _ s immediates
    | _ => cases hop

/-- A turn writes at most the slot that the executed instruction addresses. -/
theorem Branch.turn_writtenAt (l : Listing) (catalog : Catalog) (traced : Bool) (scratch : Scratch)
    (b : Branch) :
    let t := b.turn l catalog traced scratch
    t.scratch = scratch ∨ ∃ pc op slot c, t.executed = some pc ∧ l.fetch? b.pc = some (pc, op) ∧
      op.slot? b.thread.stack = some slot ∧ scratch.set? slot c = some t.scratch := by
  unfold Branch.turn
  split
  · exact .inl rfl
  · split
    · exact .inl rfl
    · rename_i pc op hf
      have hw := exec_writtenAt l catalog pc op ⟨b.thread, scratch⟩
      unfold Exec.stateAfter at hw
      split <;> rename_i hs <;> rw [hs] at hw
      all_goals
        rcases hw with hw | ⟨slot, c, hslot, hset⟩
        · exact .inl hw
        · exact .inr ⟨pc, op, slot, c, rfl, hf, hslot, hset⟩

/-- No line may write to scratch space. -/
def Listing.Quiet (l : Listing) : Prop := ∀ op ∈ l.ops, op.writesScratch = false

instance (l : Listing) : Decidable l.Quiet :=
  inferInstanceAs (Decidable (∀ op ∈ l.ops, op.writesScratch = false))

theorem Branch.turn_scratch {l : Listing} (hl : l.Quiet) (catalog : Catalog) (traced : Bool)
    (scratch : Scratch) (b : Branch) : (b.turn l catalog traced scratch).scratch = scratch := by
  rcases b.turn_writtenAt l catalog traced scratch with h | ⟨pc, op, slot, c, -, hf, hslot, -⟩
  · exact h
  · have hop := List.mem_of_getElem? (Listing.getElem?_of_fetch? hf)
    rw [Op.slot?_eq_none (hl op hop)] at hslot
    cases hslot

end Teal
