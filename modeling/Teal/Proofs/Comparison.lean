import Mathlib.Data.List.Forall2
import Teal.Machine.Exec
/-!
# Comparing two executions

Several properties of the machine say that one execution goes like another: on an optimized listing
as on the original one, or on a state that knows less as on the real one. A `Comparison` says what
"like" means, and `Comparison.Agree` says it of two actions. What each elementary action does to
compared states is proved once here; everything built from them follows by `Agree.bind`.

An execution on the left that fails with an excused fault promises nothing about the right side.
Otherwise the right side succeeds where the left one does and fails where it does, with the same
fault.
-/

namespace Teal

/-- How two executions are compared. -/
structure Comparison where
  /-- Whether the right side may know less of a value than the left side. -/
  blurred : Prop
  /-- Which lines of the two listings correspond to each other. -/
  line : Nat → Nat → Prop
  /-- How the marks for a call just before correspond to each other. -/
  call : Bool → Bool → Prop
  /-- The faults of the left side after which nothing is said about the right side. -/
  excused : Fault → Prop
  excused_of_blurred : blurred → ∀ f, excused f
  /-- Only a missing mark on the left may differ, and only where `proto` may fail for it. -/
  call_cases : ∀ {a b}, call a b → a = b ∨ a = false ∧ excused .protoWithoutCallsub

namespace Comparison

variable (k : Comparison)

/-! ## Compared data -/

/-- The same value, or one that is not known on the right. -/
def ValueRel (v w : Value) : Prop := v = w ∨ k.blurred ∧ w = .unknown

/-- Cells are compared by their values; where a value came from does not matter. -/
def CellRel (c d : Cell) : Prop := k.ValueRel c.value d.value

/-- The same result of popping a number or byte string, or one that is not known on the right. -/
def PoppedRel {α : Type} (a b : Option α) : Prop := a = b ∨ k.blurred ∧ b = none

/-- Frames of corresponding calls. -/
structure FrameRel (f g : Frame) : Prop where
  line : k.line f.returnPc g.returnPc
  sp : f.sp = g.sp
  args : f.args = g.args
  results : f.results = g.results
  declared : f.declared = g.declared

/-- Scratch spaces are compared slot by slot. -/
def ScratchRel (s t : Scratch) : Prop := ∀ i (_ : i < 256), k.CellRel s.slots[i] t.slots[i]

/-- States that instructions act on, compared part by part. -/
structure StateRel (s t : State) : Prop where
  stack : List.Forall₂ k.CellRel s.thread.stack t.thread.stack
  frames : List.Forall₂ k.FrameRel s.thread.frames t.thread.frames
  call : k.call s.thread.afterCall t.thread.afterCall
  scratch : k.ScratchRel s.scratch t.scratch

/-- The results of two actions, where `Q` compares the values they return. -/
inductive ResultRel {α β : Type} (Q : α → β → Prop) :
    EStateM.Result Fault State α → EStateM.Result Fault State β → Prop
  | ok {a b s t} : Q a b → k.StateRel s t → ResultRel Q (.ok a s) (.ok b t)
  | error {e s t} : k.StateRel s t → ResultRel Q (.error e s) (.error e t)
  | excused {e s r} : k.excused e → ResultRel Q (.error e s) r

/-- Two actions agree if they have compared results on compared states. -/
def Agree {α β : Type} (x : Exec α) (y : Exec β) (Q : α → β → Prop) : Prop :=
  ∀ ⦃s t⦄, k.StateRel s t → k.ResultRel Q (x.run s) (y.run t)

/-- Two actions without result agree. -/
abbrev Acts (x y : Exec Unit) : Prop := k.Agree x y fun _ _ => True

variable {k} {α β γ δ : Type} {Q : α → β → Prop} {R : γ → δ → Prop}

@[simp]
theorem valueRel_refl (v : Value) : k.ValueRel v v := .inl rfl

theorem cellRel_refl (c : Cell) : k.CellRel c c := valueRel_refl _

theorem CellRel.known {c d : Cell} (h : k.CellRel c d) (hd : d.isUnknown = false) :
    c.value = d.value := by
  rcases h with h | ⟨-, h⟩
  · exact h
  · simp [Cell.isUnknown, h] at hd

/-- Compared values are the same, or one of them is unknown on the right: then on the left as well,
or the comparison is blurred. -/
theorem unknown_cases {cs ds : List Cell} (h : List.Forall₂ k.CellRel cs ds) :
    (cs.any Cell.isUnknown = true ∨ k.blurred) ∧ ds.any Cell.isUnknown = true ∨
      List.Forall₂ (·.value = ·.value) cs ds ∧ ds.any Cell.isUnknown = false := by
  induction h with
  | nil => exact .inr ⟨.nil, rfl⟩
  | @cons c d cs ds hcd _ ih =>
    simp only [List.any_cons, Bool.or_eq_true, Bool.or_eq_false_iff]
    rcases ih with ⟨hl, hr⟩ | ⟨hs, hr⟩
    · exact .inl ⟨hl.imp_left .inr, .inr hr⟩
    · rcases hcd with h | ⟨hb, h⟩
      · cases hd : d.isUnknown with
        | true => exact .inl ⟨.inl (.inl (by rwa [Cell.isUnknown, h])), .inl rfl⟩
        | false => exact .inr ⟨.cons h hs, rfl, hr⟩
      · exact .inl ⟨.inr hb, .inl (by simp [Cell.isUnknown, h])⟩

theorem any_isUnknown_congr {cs ds : List Cell} (h : List.Forall₂ (·.value = ·.value) cs ds) :
    cs.any Cell.isUnknown = ds.any Cell.isUnknown := by
  induction h with
  | nil => rfl
  | cons hcd _ ih => simp only [List.any_cons, ih, Cell.isUnknown, hcd]

/-! ## Sequencing -/

theorem agree_pure {a : α} {b : β} (h : Q a b) : k.Agree (pure a) (pure b) Q :=
  fun _ _ hst => .ok h hst

theorem resultRel_bind {x : Exec α} {y : Exec β} {f : α → Exec γ} {g : β → Exec δ} {s t : State}
    (hx : k.ResultRel Q (x.run s) (y.run t)) (hf : ∀ a b, Q a b → k.Agree (f a) (g b) R) :
    k.ResultRel R ((x >>= f).run s) ((y >>= g).run t) := by
  simp only [EStateM.run_bind]
  generalize x.run s = r, y.run t = r' at hx ⊢
  cases hx with
  | ok hab hst => exact hf _ _ hab hst
  | error hst => exact .error hst
  | excused he => exact .excused he

theorem agree_bind {x : Exec α} {y : Exec β} {f : α → Exec γ} {g : β → Exec δ}
    (hx : k.Agree x y Q) (hf : ∀ a b, Q a b → k.Agree (f a) (g b) R) :
    k.Agree (x >>= f) (y >>= g) R :=
  fun _ _ hst => resultRel_bind (hx hst) hf

theorem agree_throw (e : Fault) : k.Agree (throw e : Exec α) (throw e : Exec β) Q :=
  fun _ _ hst => .error hst

/-- An action that fails with an excused fault agrees with every action. -/
theorem agree_excused {e : Fault} {y : Exec β} (he : k.excused e) :
    k.Agree (throw e : Exec α) y Q :=
  fun _ _ _ => .excused he

/-! ## Stack, frames and scratch space -/

theorem agree_get : k.Agree get get k.StateRel :=
  fun _ _ hst => .ok hst hst

theorem agree_get_left {f : State → Exec α} {y : Exec β} (h : ∀ s, k.Agree (f s) y Q) :
    k.Agree (get >>= f) y Q :=
  fun s _ hst => h s hst

theorem agree_stack : k.Agree Exec.stack Exec.stack (List.Forall₂ k.CellRel) :=
  fun _ _ hst => .ok hst.stack hst

theorem agree_setStack {cs ds : List Cell} (h : List.Forall₂ k.CellRel cs ds) :
    k.Acts (Exec.setStack cs) (Exec.setStack ds) :=
  fun _ _ hst => .ok trivial { hst with stack := h }

theorem agree_setFrames {fs gs : List Frame} (h : List.Forall₂ k.FrameRel fs gs) :
    k.Acts (Exec.setFrames fs) (Exec.setFrames gs) :=
  fun _ _ hst => .ok trivial { hst with frames := h }

theorem agree_setScratch {u v : Scratch} (h : k.ScratchRel u v) :
    k.Acts (modify ({ · with scratch := u })) (modify ({ · with scratch := v })) :=
  fun _ _ hst => .ok trivial { hst with scratch := h }

theorem agree_pushCell {c d : Cell} (h : k.CellRel c d) :
    k.Acts (Exec.pushCell c) (Exec.pushCell d) :=
  agree_bind agree_stack fun _ _ hs => agree_setStack (.cons h hs)

theorem agree_push {v w : Value} (site site' : Site) (h : k.ValueRel v w) :
    k.Acts (Exec.push site v) (Exec.push site' w) :=
  agree_pushCell h

theorem agree_pop (name : String) : k.Agree (Exec.pop name) (Exec.pop name) k.CellRel := by
  refine agree_bind agree_stack fun cs ds hs => ?_
  cases hs with
  | nil => exact agree_throw _
  | cons hc hs => exact agree_bind (agree_setStack hs) fun _ _ _ => agree_pure hc

theorem agree_popMany (name : String) (n : Nat) :
    k.Agree (Exec.popMany name n) (Exec.popMany name n) (List.Forall₂ k.CellRel) := by
  induction n with
  | zero => exact agree_pure .nil
  | succ n ih =>
    refine agree_bind (agree_pop name) fun _ _ hc => ?_
    exact agree_bind ih fun _ _ hs => agree_pure (.cons hc hs)

theorem agree_popUint (name : String) :
    k.Agree (Exec.popUint name) (Exec.popUint name) k.PoppedRel := by
  refine agree_bind (agree_pop name) fun c d hcd => ?_
  rcases hcd with h | ⟨hb, h⟩
  · rw [h]
    cases d.value with
    | uint n => exact agree_pure (.inl rfl)
    | unknown => exact agree_pure (.inl rfl)
    | absent => exact agree_throw _
    | bytes b => exact agree_throw _
  · -- The right side pops an unknown value and goes on, also where the left side fails.
    rw [h]
    cases c.value with
    | uint n => exact agree_pure (.inr ⟨hb, rfl⟩)
    | unknown => exact agree_pure (.inr ⟨hb, rfl⟩)
    | absent => exact agree_excused (k.excused_of_blurred hb _)
    | bytes b => exact agree_excused (k.excused_of_blurred hb _)

theorem agree_popBytes (name : String) :
    k.Agree (Exec.popBytes name) (Exec.popBytes name) k.PoppedRel := by
  refine agree_bind (agree_pop name) fun c d hcd => ?_
  rcases hcd with h | ⟨hb, h⟩
  · rw [h]
    cases d.value with
    | bytes b => exact agree_pure (.inl rfl)
    | unknown => exact agree_pure (.inl rfl)
    | absent => exact agree_throw _
    | uint n => exact agree_throw _
  · rw [h]
    cases c.value with
    | bytes b => exact agree_pure (.inr ⟨hb, rfl⟩)
    | unknown => exact agree_pure (.inr ⟨hb, rfl⟩)
    | absent => exact agree_excused (k.excused_of_blurred hb _)
    | uint n => exact agree_excused (k.excused_of_blurred hb _)

end Comparison

end Teal
