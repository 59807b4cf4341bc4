import Teal.Proofs.Machine.History
/-!
# Reachable machines

A machine is reachable if it comes about from the start by turns of any live branches, by copies of
them and by changes to where commands act, in any order. Machines between commands are reachable,
and so are the machines that a run goes through.

`Reachable.branches` is the induction that all facts about single branches go by: what the root
satisfies, and turns and copies hand on, every branch satisfies, running or stopped.
-/

namespace Teal.Machine

/-- A machine that comes about from the start by single acts. -/
inductive Reachable (l : Listing) (catalog : Catalog) (config : Config) : Machine → Prop
  | start : Reachable l catalog config (start l catalog config)
  | act {m m'} : Reachable l catalog config m → Act m m' → Reachable l catalog config m'

variable {l : Listing} {catalog : Catalog} {config : Config} {m : Machine}

theorem reachable_performAll (l : Listing) (catalog : Catalog) (config : Config)
    (commands : List Command) :
    Reachable l catalog config ((Machine.start l catalog config).performAll commands) := by
  have hI : Invariant (Reachable l catalog config) :=
    ⟨fun i hm => hm.act (.turn i), fun current paused breakpoints hm =>
      hm.act (.view current paused breakpoints)⟩
  exact hI.performAll (fun i hm => hm.act (.copy i)) .start commands

theorem Reachable.runs (h : Reachable l catalog config m) : Runs l config m := by
  induction h with
  | start =>
    have hroot : History l catalog config _ _ _ := .root
    exact hroot.runs
  | act _ hact ih => exact ih.act hact

theorem Reachable.catalog_eq (h : Reachable l catalog config m) : m.catalog = catalog := by
  induction h with
  | start => rfl
  | act _ hact ih => cases hact <;> exact ih

theorem Reachable.branches {P : Branch → Prop} (hroot : P { budget := config.budget })
    (hturn : ∀ b scratch, b.halt = none → P b →
      let t := b.turn l catalog config.trace scratch
      P (t.branch.settle t.halt) ∧ ∀ id, ∀ pc ∈ t.others, P (t.branch.child id pc))
    (hcopy : ∀ b id, b.halt = none → P b → P (b.child id b.pc))
    (h : Reachable l catalog config m) :
    ∀ b ∈ m.live ++ m.retired, P b := by
  induction h with
  | start =>
    intro b hb
    cases List.mem_singleton.1 hb
    exact hroot
  | @act m m' hm hact ih =>
    have hruns := hm.runs
    intro b hb
    cases hact with
    | turn i =>
      have hmem := List.get_mem m.live i
      have hleft := hturn _ m.scratch (hruns.live _ hmem) (ih _ (List.mem_append_left _ hmem))
      rw [← hruns.listing, ← hm.catalog_eq, ← hruns.config] at hleft
      rcases mem_stepAt_cases hruns hb with hb | hb
      · exact ih b hb
      · rcases Turn.mem_leaves hb with rfl | ⟨id, pc, hpc, rfl⟩
        · exact hleft.1
        · exact hleft.2 id pc hpc
    | copy i =>
      simp only [copy, List.mem_append, List.mem_singleton] at hb
      rcases hb with (hb | rfl) | hb
      · exact ih b (List.mem_append_left _ hb)
      · have hmem := List.get_mem m.live i
        exact hcopy _ _ (hruns.live _ hmem) (ih _ (List.mem_append_left _ hmem))
      · exact ih b (List.mem_append_right _ hb)
    | view => exact ih b hb

end Teal.Machine
