import Teal.Machine.Branch
import Teal.Proofs.Comparison.Instruction
import Teal.Proofs.Flow
/-!
# Where control goes

An instruction sends control on to the next line, to a label it refers to, or back to a saved return
address. So control stays among lines `P` as long as these are in `P`: the comparison of an
execution with itself, where only such lines correspond to each other, says so of every instruction
at once. With the lines of the listing and its end for `P`, control stays in the listing.
-/

namespace Teal

/-- Every call that has not returned will return to a line in `P`. -/
def Thread.ReturnsTo (P : Nat → Prop) (t : Thread) : Prop := ∀ f ∈ t.frames, P f.returnPc

/-- Every call that has not returned will return into the listing or to its end. -/
def Thread.Within (size : Nat) (t : Thread) : Prop := ∀ f ∈ t.frames, f.returnPc ≤ size

/-- An execution beside itself, with control among the lines in `P`. -/
def Comparison.along (P : Nat → Prop) : Comparison where
  blurred := False
  line i j := i = j ∧ P i
  call := Eq
  excused _ := False
  excused_of_blurred := False.elim
  call_cases h := .inl h

section Along
variable {P : Nat → Prop}

theorem stateRel_along {s : State} :
    (Comparison.along P).StateRel s s ↔ s.thread.ReturnsTo P := by
  refine ⟨fun h f hf => ?_, fun h => ⟨?_, ?_, rfl, fun _ _ => Comparison.cellRel_refl _⟩⟩
  · exact (List.forall₂_same.1 h.frames f hf).line.2
  · exact List.forall₂_same.2 fun c _ => Comparison.cellRel_refl c
  · exact List.forall₂_same.2 fun f hf => ⟨⟨rfl, h f hf⟩, rfl, rfl, rfl, rfl⟩

theorem lines_along {e : Effect} (h : (Comparison.along P).EffectRel e e) : ∀ i ∈ e.lines, P i := by
  intro i hi
  cases h with
  | goto hij =>
    cases List.mem_singleton.1 hi
    exact hij.2
  | fork hlines => exact (List.forall₂_same.1 hlines i hi).2
  | halt => exact absurd hi List.not_mem_nil

variable {l : Listing} {catalog : Catalog} {op : Op LabelId} {pc : Nat} {s s' : State}

theorem exec_rel_self (catalog : Catalog) (hnext : op.endsFlow = false → P (pc + 1))
    (htargets : ∀ id ∈ op.targets, ∀ i, l.target? id = some i → P i)
    (hs : s.thread.ReturnsTo P) :
    (Comparison.along P).ResultRel (Comparison.along P).EffectRel
      ((op.exec l catalog pc).run s) ((op.exec l catalog pc).run s) := by
  have hlabels : ∀ id ∈ op.targets, (Comparison.along P).LabelRel l l id id := by
    intro id hid
    cases ht : l.target? id with
    | some i => exact .inl ⟨i, i, ht, ht, rfl, htargets id hid i ht⟩
    | none => exact .inr ⟨ht, ht, rfl⟩
  have hrel : (Comparison.along P).ResultRel (Comparison.along P).EffectRel
      ((op.exec l catalog pc).run s) (((op.retarget id).exec l catalog pc).run s) :=
    Comparison.exec_rel catalog (stateRel_along.2 hs) (fun h => ⟨rfl, hnext h⟩) hlabels False.elim
  rwa [Op.retarget_id] at hrel

/-- Where an instruction sends control, and the calls it leaves open. -/
theorem exec_ok_along (hnext : op.endsFlow = false → P (pc + 1))
    (htargets : ∀ id ∈ op.targets, ∀ i, l.target? id = some i → P i)
    (hs : s.thread.ReturnsTo P) {e : Effect} (h : (op.exec l catalog pc).run s = .ok e s') :
    (∀ i ∈ e.lines, P i) ∧ s'.thread.ReturnsTo P := by
  have hrel := exec_rel_self catalog hnext htargets hs
  rw [h] at hrel
  cases hrel with
  | ok heffect hst => exact ⟨lines_along heffect, stateRel_along.1 hst⟩

theorem exec_error_along (hnext : op.endsFlow = false → P (pc + 1))
    (htargets : ∀ id ∈ op.targets, ∀ i, l.target? id = some i → P i)
    (hs : s.thread.ReturnsTo P) {f : Fault} (h : (op.exec l catalog pc).run s = .error f s') :
    s'.thread.ReturnsTo P := by
  have hrel := exec_rel_self catalog hnext htargets hs
  rw [h] at hrel
  cases hrel with
  | error hst => exact stateRel_along.1 hst
  | excused he => exact he.elim

end Along

/-! ## Control stays in the listing -/

theorem Listing.fetch?_lt {l : Listing} {i pc : Nat} {op : Op LabelId}
    (h : l.fetch? i = some (pc, op)) : pc < l.size := by
  rcases l.fetch?_cases i with ⟨-, hf⟩ | ⟨pc', op', -, hf, -, hdrop⟩
  · cases hf.symm.trans h
  · cases hf.symm.trans h
    have hne : l.ops.drop pc ≠ [] := by simp [hdrop]
    exact Nat.lt_of_not_le fun hle => hne (List.drop_eq_nil_of_le hle)

section Exec
variable {l : Listing} {catalog : Catalog} {op : Op LabelId} {pc : Nat} {s s' : State}

theorem exec_ok_within (hpc : pc < l.size) (hs : s.thread.Within l.size) {e : Effect}
    (h : (op.exec l catalog pc).run s = .ok e s') :
    (∀ i ∈ e.lines, i ≤ l.size) ∧ s'.thread.Within l.size :=
  exec_ok_along (P := (· ≤ l.size)) (fun _ => hpc) (fun _ _ _ hi => place?_le hi) hs h

theorem exec_error_within (hpc : pc < l.size) (hs : s.thread.Within l.size) {f : Fault}
    (h : (op.exec l catalog pc).run s = .error f s') : s'.thread.Within l.size :=
  exec_error_along (P := (· ≤ l.size)) (fun _ => hpc) (fun _ _ _ hi => place?_le hi) hs h

end Exec

/-- What a turn of a branch keeps and where it leaves control. -/
structure Turn.Follows (l : Listing) (b : Branch) (t : Turn) : Prop where
  id : t.branch.id = b.id
  parent : t.branch.parent = b.parent
  running : t.branch.halt = b.halt
  inside : t.branch.atExit = b.atExit
  calls : t.branch.thread.Within l.size
  goesOn : t.halt = none → t.branch.pc ≤ l.size
  others : ∀ pc ∈ t.others, pc ≤ l.size
  failed : ∀ f, t.halt = some (.faulted f) → t.branch.pc < l.size

theorem Branch.turn_follows {l : Listing} {b : Branch} (hcalls : b.thread.Within l.size)
    (catalog : Catalog) (traced : Bool) (scratch : Scratch) :
    (b.turn l catalog traced scratch).Follows l b := by
  unfold Branch.turn
  split
  · -- The budget is spent.
    exact ⟨rfl, rfl, rfl, rfl, hcalls, nofun, nofun, nofun⟩
  · split
    · -- Control has left the listing.
      exact ⟨rfl, rfl, rfl, rfl, hcalls, nofun, nofun, nofun⟩
    · rename_i pc op hf
      have hlt := Listing.fetch?_lt hf
      split
      · rename_i fault s hs
        exact ⟨rfl, rfl, rfl, rfl, exec_error_within hlt hcalls hs, nofun,
          nofun, fun _ _ => hlt⟩
      · rename_i approved s hs
        exact ⟨rfl, rfl, rfl, rfl, (exec_ok_within hlt hcalls hs).2, nofun,
          nofun, nofun⟩
      · rename_i next s hs
        obtain ⟨hlines, hthread⟩ := exec_ok_within hlt hcalls hs
        refine ⟨rfl, rfl, rfl, rfl, hthread, fun _ => hlines next List.mem_cons_self,
          nofun, fun f hf => ?_⟩
        simp only [goOn] at hf
        split at hf <;> cases hf
      · rename_i next others s hs
        obtain ⟨hlines, hthread⟩ := exec_ok_within hlt hcalls hs
        refine ⟨rfl, rfl, rfl, rfl, hthread, fun _ => hlines next List.mem_cons_self,
          fun pc h => hlines pc (List.mem_cons_of_mem next h), fun f hf => ?_⟩
        simp only [goOn] at hf
        split at hf <;> cases hf

end Teal
