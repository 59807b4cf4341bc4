import Mathlib.Data.List.Nodup
import Teal.Proofs.Machine.Loop
/-!
# A branch and what is forked from it

`Machine.Offspring` are the numbers of the branches that come of one branch: its own, and those of
the branches forked since from it or from one of these. What a turn keeps of a branch and hands on
to the branches that it forks off, `Hereditary`, holds of them all, whatever commands are given.
-/

namespace Teal.Machine

/-- The numbers of the branch `root` and of the branches that come of it, as far as they have the
number `since` or a later one. -/
inductive Offspring (branches : List Branch) (since : Nat) (root : BranchId) : BranchId → Prop
  | self : Offspring branches since root root
  | forked {c p} : c ∈ branches → c.parent = some p → since ≤ c.id →
      Offspring branches since root p → Offspring branches since root c.id

/-- Live branches keep `P` and hand it on to the branches forked from them, and a branch that stops
satisfies `Q`. -/
structure Hereditary (l : Listing) (P Q : Branch → Prop) : Prop where
  turn {b : Branch} {catalog : Catalog} {traced : Bool} {scratch : Scratch} {t : Turn} : P b →
    b.TurnCases l catalog traced scratch t →
    (t.halt = none → P t.branch) ∧ (∀ h, t.halt = some h → Q (t.branch.retire h)) ∧
      ∀ id, ∀ pc ∈ t.others, P (t.branch.child id pc)
  copy {b : Branch} (id : BranchId) : P b → P (b.child id b.pc)

/-- Something was done to the branch `b` of `m`: the others are as they were, and new branches are
forked from `b`. -/
structure Breeds (P Q : Branch → Prop) (m m' : Machine) (b : Branch) : Prop where
  listing : m'.listing = m.listing
  nextId : m.nextId ≤ m'.nextId
  live : ∀ c ∈ m'.live, c ∈ m.live ∨ (c.id = b.id ∧ c.parent = b.parent ∧ (P b → P c)) ∨
    (m.nextId ≤ c.id ∧ c.id < m'.nextId ∧ c.parent = some b.id ∧ (P b → P c))
  retired : ∀ c ∈ m'.retired, c ∈ m.retired ∨ (c.id = b.id ∧ c.parent = b.parent ∧ (P b → Q c))

/-- The offspring of `root` satisfies `P` while it is live, and `Q` once it has stopped. -/
structure Family (l : Listing) (P Q : Branch → Prop) (since : Nat) (root : BranchId) (m : Machine) :
    Prop where
  listing : m.listing = l
  since_le : since ≤ m.nextId
  root_lt : root < since
  known : ∀ c ∈ m.live ++ m.retired, c.id < m.nextId ∧ ∀ p, c.parent = some p → p < c.id
  live : ∀ c ∈ m.live, Offspring (m.live ++ m.retired) since root c.id → P c
  retired : ∀ c ∈ m.retired, Offspring (m.live ++ m.retired) since root c.id → Q c

variable {l : Listing} {P Q : Branch → Prop} {since : Nat} {root : BranchId} {m m' : Machine}
  {b : Branch}

/-! ## What one turn does to a family -/

theorem lt_of_mem_children {c : Branch} {pcs : List Nat} (h : c ∈ m.children b pcs) :
    c.id < m.nextId + (m.children b pcs).length := by
  have hid := List.mem_map_of_mem (f := Branch.id) h
  rw [children_ids, List.mem_range'_1] at hid
  exact hid.2

theorem breeds_stepAt (hP : Hereditary m.listing P Q) (i : Fin m.live.length) :
    Breeds P Q m (m.stepAt i).1 (m.live.get i) := by
  have hturn := m.turnAt_cases i
  obtain ⟨hid, hparent, -⟩ := hturn.same
  refine ⟨rfl, Nat.le_add_right _ _, ?_, ?_⟩
  · intro c hc
    rcases mem_live_stepAt hc with hc | ⟨hhalt, rfl⟩ | hc
    · exact .inl hc
    · exact .inr (.inl ⟨hid, hparent, fun hb => (hP.turn hb hturn).1 hhalt⟩)
    · have hlt := lt_of_mem_children hc
      obtain ⟨id, pc, rfl, hle, hpc⟩ := mem_children hc
      exact .inr (.inr ⟨hle, hlt, congrArg some hid,
        fun hb => (hP.turn hb hturn).2.2 id pc hpc⟩)
  · intro c hc
    rcases mem_retired_stepAt hc with hc | ⟨halt, hhalt, rfl⟩
    · exact .inl hc
    · exact .inr ⟨hid, hparent, fun hb => (hP.turn hb hturn).2.1 halt hhalt⟩

theorem breeds_copy (hP : Hereditary l P Q) (i : Fin m.live.length) :
    Breeds P Q m (m.copy i) (m.live.get i) := by
  refine ⟨rfl, Nat.le_succ _, ?_, fun c hc => .inl hc⟩
  intro c hc
  rcases List.mem_append.1 hc with hc | hc
  · exact .inl hc
  · cases List.mem_singleton.1 hc
    exact .inr (.inr ⟨Nat.le_refl _, Nat.lt_succ_self _, rfl, hP.copy _⟩)

section Breeds
variable (h : Breeds P Q m m' b) (hb : b ∈ m.live)
include h hb

/-- A branch was there before, with the parent it has, or is a new one and forked from `b`. -/
theorem Breeds.origin {c : Branch} (hc : c ∈ m'.live ++ m'.retired) :
    (∃ c₀ ∈ m.live ++ m.retired, c₀.id = c.id ∧ c₀.parent = c.parent) ∨
      m.nextId ≤ c.id ∧ c.id < m'.nextId ∧ c.parent = some b.id := by
  rcases List.mem_append.1 hc with hc | hc
  · rcases h.live c hc with hc | ⟨hid, hparent, -⟩ | ⟨hle, hlt, hparent, -⟩
    · exact .inl ⟨c, List.mem_append_left _ hc, rfl, rfl⟩
    · exact .inl ⟨b, List.mem_append_left _ hb, hid.symm, hparent.symm⟩
    · exact .inr ⟨hle, hlt, hparent⟩
  · rcases h.retired c hc with hc | ⟨hid, hparent, -⟩
    · exact .inl ⟨c, List.mem_append_right _ hc, rfl, rfl⟩
    · exact .inl ⟨b, List.mem_append_left _ hb, hid.symm, hparent.symm⟩

variable (hm : Family l P Q since root m)
include hm

/-- What was there before and is offspring now was so before. -/
theorem Breeds.offspring {id : BranchId} (hoff : Offspring (m'.live ++ m'.retired) since root id)
    (hid : id < m.nextId) : Offspring (m.live ++ m.retired) since root id := by
  -- By induction along the parents, which have lower numbers and so were there before too.
  induction hoff with
  | self => exact .self
  | forked hc hparent hsince _ ih =>
    rcases h.origin hb hc with ⟨c₀, hc₀, hid₀, hparent₀⟩ | ⟨hle, -⟩
    · rw [hparent] at hparent₀
      rw [← hid₀] at hsince hid ⊢
      have hlt := (hm.known c₀ hc₀).2 _ hparent₀
      exact .forked hc₀ hparent₀ hsince (ih (Nat.lt_trans hlt hid))
    · exact absurd hid (Nat.not_lt.2 hle)

/-- A new branch is offspring only if `b` is. -/
theorem Breeds.offspring_new {id : BranchId}
    (hoff : Offspring (m'.live ++ m'.retired) since root id) (hid : m.nextId ≤ id) :
    Offspring (m.live ++ m.retired) since root b.id := by
  cases hoff with
  | self => exact absurd hid (Nat.not_le.2 (Nat.lt_of_lt_of_le hm.root_lt hm.since_le))
  | forked hc hparent _ hp =>
    rcases h.origin hb hc with ⟨c₀, hc₀, hid₀, -⟩ | ⟨-, -, hnew⟩
    · exact absurd (hm.known c₀ hc₀).1 (Nat.not_lt.2 (hid₀ ▸ hid))
    · cases hparent.symm.trans hnew
      exact h.offspring hb hm hp (hm.known b (List.mem_append_left _ hb)).1

theorem Breeds.family : Family l P Q since root m' where
  listing := h.listing.trans hm.listing
  since_le := Nat.le_trans hm.since_le h.nextId
  root_lt := hm.root_lt
  known := by
    intro c hc
    rcases h.origin hb hc with ⟨c₀, hc₀, hid₀, hparent₀⟩ | ⟨hle, hlt, hparent⟩
    · rw [← hid₀, ← hparent₀]
      exact ⟨Nat.lt_of_lt_of_le (hm.known c₀ hc₀).1 h.nextId, (hm.known c₀ hc₀).2⟩
    · refine ⟨hlt, fun p hp => ?_⟩
      cases hp.symm.trans hparent
      exact Nat.lt_of_lt_of_le (hm.known b (List.mem_append_left _ hb)).1 hle
  live := by
    intro c hc hoff
    rcases h.live c hc with hc | ⟨hid, -, hP⟩ | ⟨hle, -, -, hP⟩
    · exact hm.live c hc (h.offspring hb hm hoff (hm.known c (List.mem_append_left _ hc)).1)
    · rw [hid] at hoff
      exact hP (hm.live b hb (h.offspring hb hm hoff (hm.known b (List.mem_append_left _ hb)).1))
    · exact hP (hm.live b hb (h.offspring_new hb hm hoff hle))
  retired := by
    intro c hc hoff
    rcases h.retired c hc with hc | ⟨hid, -, hQ⟩
    · exact hm.retired c hc (h.offspring hb hm hoff (hm.known c (List.mem_append_right _ hc)).1)
    · rw [hid] at hoff
      exact hQ (hm.live b hb (h.offspring hb hm hoff (hm.known b (List.mem_append_left _ hb)).1))

end Breeds

/-! ## What all commands do to a family -/

theorem Consistent.eq_of_id_eq (hm : m.Consistent) {b c : Branch} (hb : b ∈ m.live)
    (hc : c ∈ m.live) (h : b.id = c.id) : b = c := by
  have hnodup : (m.live.map Branch.id).Nodup := hm.order.imp Nat.ne_of_lt
  exact List.inj_on_of_nodup_map hnodup hb hc h

/-- A branch is all of its offspring as long as nothing happens. -/
theorem family_self (hm : m.Consistent) (hb : b ∈ m.live) (hP : P b) :
    Family m.listing P Q m.nextId b.id m := by
  have hself : ∀ c ∈ m.live ++ m.retired,
      Offspring (m.live ++ m.retired) m.nextId b.id c.id → c.id = b.id := by
    intro c hc hoff
    generalize c.id = id at hoff
    cases hoff with
    | self => rfl
    | forked hc _ hle => exact absurd (hm.id_lt hc) (Nat.not_lt.2 hle)
  refine ⟨rfl, Nat.le_refl _, hm.id_lt (List.mem_append_left _ hb), ?_, ?_, ?_⟩
  · intro c hc
    refine ⟨hm.id_lt hc, fun p hp => ?_⟩
    obtain ⟨hroot, hother⟩ := hm.descends c hc
    by_cases hid : c.id = 0
    · cases hp.symm.trans (hroot hid)
    · obtain ⟨p', hp', hlt⟩ := hother hid
      cases hp.symm.trans hp'
      exact hlt
  · intro c hc hoff
    cases hm.eq_of_id_eq hc hb (hself c (List.mem_append_left _ hc) hoff)
    exact hP
  · intro c hc hoff
    exact absurd (hself c (List.mem_append_right _ hc) hoff).symm (not_live_of_retired hm hb hc)

theorem family_invariant (hP : Hereditary l P Q) : Invariant (Family l P Q since root) where
  turn i hm := (breeds_stepAt (hm.listing ▸ hP) i).family (List.get_mem _ _) hm
  view _ _ _ hm := ⟨hm.listing, hm.since_le, hm.root_lt, hm.known, hm.live, hm.retired⟩

/-- What is handed on holds of all offspring after any commands. -/
theorem Hereditary.performAll (hP : Hereditary m.listing P Q) (hm : m.Consistent) (hb : b ∈ m.live)
    (hPb : P b) (commands : List Command) :
    Family m.listing P Q m.nextId b.id (m.performAll commands) :=
  (family_invariant hP).performAll
    (fun i hm => (breeds_copy hP i).family (List.get_mem _ _) hm) (family_self hm hb hPb) commands

end Teal.Machine
