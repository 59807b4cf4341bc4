import Teal.Proofs.Instruction.Values
import Teal.Proofs.Machine.Reachable
/-!
# Values stay well formed

All branches of a machine share its scratch space, so a value may come to the stack of a branch from
any other one. `Machine.WellFormed` is therefore a property of the whole machine: every value on a
stack, of a running or a stopped branch, and in scratch space is well formed. A turn keeps it
because its instruction does, and `Reachable.wellFormed` says it of everything that can be reached.
-/

namespace Teal

theorem Branch.turn_wellFormed {l : Listing} {scratch : Scratch} {b : Branch}
    (h : State.WellFormed l { thread := b.thread, scratch }) (catalog : Catalog) (traced : Bool) :
    let t := b.turn l catalog traced scratch
    State.WellFormed l { thread := t.branch.thread, scratch := t.scratch } := by
  unfold turn
  split
  · exact h
  · split
    · exact h
    · rename_i pc op hfetch
      have hkeeps := keeps_exec catalog (Listing.getElem?_of_fetch? hfetch) _ h
      -- Paying for the line changes neither the values nor what is shared.
      split <;> rename_i heq <;> rw [heq] at hkeeps
      · exact ⟨hkeeps.stack, hkeeps.scratch⟩
      all_goals exact ⟨hkeeps.1.stack, hkeeps.1.scratch⟩

namespace Machine

/-- Every value of a machine is well formed. -/
structure WellFormed (m : Machine) : Prop where
  stack : ∀ b ∈ m.live ++ m.retired, ∀ c ∈ b.thread.stack, c.WellFormed m.listing
  scratch : ∀ c ∈ m.scratch.slots, c.WellFormed m.listing

variable {l : Listing} {catalog : Catalog} {config : Config} {m : Machine}

theorem start_wellFormed (l : Listing) (catalog : Catalog) (config : Config) :
    (start l catalog config).WellFormed where
  stack b hb := by
    cases List.mem_singleton.1 hb
    exact nofun
  scratch c hc := by
    cases Vector.eq_of_mem_replicate hc
    exact wellFormed_initial l

theorem WellFormed.stepAt (hm : m.WellFormed) (i : Fin m.live.length) :
    (m.stepAt i).1.WellFormed := by
  have hstate : State.WellFormed m.listing
      { thread := (m.live.get i).thread, scratch := m.scratch } :=
    ⟨hm.stack _ (List.mem_append_left _ (List.get_mem _ _)), hm.scratch⟩
  have hturn := Branch.turn_wellFormed hstate m.catalog m.config.trace
  refine ⟨fun b hb => ?_, hturn.scratch⟩
  rcases mem_of_mem_stepAt hb with hb | (rfl | ⟨halt, rfl⟩) | ⟨id, pc, rfl, -⟩
  · exact hm.stack b hb
  · exact hturn.stack
  · exact hturn.stack
  · exact hturn.stack

theorem WellFormed.copy (hm : m.WellFormed) (i : Fin m.live.length) : (m.copy i).WellFormed := by
  refine ⟨fun b hb => ?_, hm.scratch⟩
  simp only [Machine.copy, List.mem_append, List.mem_singleton] at hb
  rcases hb with (hb | rfl) | hb
  · exact hm.stack b (List.mem_append_left _ hb)
  · exact hm.stack (m.live.get i) (List.mem_append_left _ (List.get_mem _ _))
  · exact hm.stack b (List.mem_append_right _ hb)

theorem Reachable.wellFormed (h : Reachable l catalog config m) : m.WellFormed := by
  induction h with
  | start => exact start_wellFormed l catalog config
  | act _ hact ih =>
    cases hact with
    | turn i => exact ih.stepAt i
    | copy i => exact ih.copy i
    | view => exact ⟨ih.stack, ih.scratch⟩

/-- Every value on the stack of a running or stopped branch, and in every scratch slot, is well
formed: there is a value; a byte string is no longer than what is computed may be, or than the
longest one written in the listing; and it comes from a line of the listing, whose text it carries,
or is the zero that scratch space holds at first. The machines that commands lead to are
reachable. -/
theorem values_wellFormed (l : Listing) (catalog : Catalog) (config : Config) :
    (∀ commands, Reachable l catalog config ((start l catalog config).performAll commands)) ∧
    ∀ m, Reachable l catalog config m →
      (∀ b ∈ m.live ++ m.retired, ∀ c ∈ b.thread.stack, c.WellFormed l) ∧
      ∀ c ∈ m.scratch.slots, c.WellFormed l := by
  refine ⟨reachable_performAll l catalog config, fun m h => ?_⟩
  obtain ⟨hstack, hscratch⟩ := h.wellFormed
  rw [h.runs.listing] at hstack hscratch
  exact ⟨hstack, hscratch⟩

/-- One branch stores a byte string that the other one loads. -/
def handOver : Listing :=
  { ops := [.instr "txn" ["Fee"], .branch .ifNonZero 0, .bytes .pseudo [1, 2], .store 5, .ret,
      .label 0, .load 5, .load 6, .instr "concat" []]
    labels := .ofList ["reader"] }

/-- A value that came from another branch carries the line that produced it, and the next one, from
a slot that nothing was stored in, carries none. -/
theorem values_wellFormed_handOver :
    let m := (start handOver .standard {}).performAll
      [.step, .step, .step, .step, .switch 1, .step, .step]
    ∃ b ∈ m.live, b.id = 1 ∧
      b.thread.stack = [{ value := .uint 0 },
        { value := .bytes [1, 2], origin := some { pc := 2, source := "byte 0x0102" } }] ∧
      ∀ c ∈ b.thread.stack, c.WellFormed handOver := by
  intro m
  obtain ⟨hreachable, hvalues⟩ := values_wellFormed handOver .standard {}
  let b := m.live.get ⟨1, by decide +kernel⟩
  have hb : b ∈ m.live := List.get_mem _ _
  exact ⟨b, hb, by decide +kernel, by decide +kernel,
    (hvalues m (hreachable _)).1 b (List.mem_append_left _ hb)⟩

end Machine

end Teal
