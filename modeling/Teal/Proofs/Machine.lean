import Mathlib.Data.List.Perm.Basic
import Teal.Machine.Run
import Teal.Proofs.Control
/-!
# Machines between commands

Branches are made and retired in the middle of a step, and a run goes through a list of branches
that was made before it. `Machine.Consistent` is what holds all the time, and `Machine.Valid` what
holds between commands: the current branch may be a retired one while a run is going on.

Every command changes the branches in one way: it keeps some of the live branches, retires the
others and appends new ones. `Machine.Change` says this, and that it keeps a machine consistent is
proved once.
-/

namespace Teal

/-! ## The invariant -/

/-- A branch that can go on. -/
structure Branch.Alive (l : Listing) (b : Branch) : Prop where
  running : b.halt = none
  inside : b.line? = some b.pc
  pc : b.pc ≤ l.size
  calls : b.thread.Within l.size

/-- A branch that has stopped: it is at the exit, or stands where it failed. -/
structure Branch.Done (l : Listing) (b : Branch) : Prop where
  halted : b.halt ≠ none
  left : b.fault? = none → b.line? = none
  failed : ∀ f, b.fault? = some f → b.line? = some b.pc ∧ b.pc < l.size

/-- The root has no parent, and every other branch comes after its parent. -/
def Branch.Descends (b : Branch) : Prop :=
  (b.id = 0 → b.parent = none) ∧ (b.id ≠ 0 → ∃ p, b.parent = some p ∧ p < b.id)

namespace Machine

/-- What holds of a machine at all times. -/
structure Consistent (m : Machine) : Prop where
  /-- Each number below `nextId` is that of one branch. -/
  ids : ((m.live ++ m.retired).map Branch.id).Perm (List.range m.nextId)
  order : (m.live.map Branch.id).Pairwise (· < ·)
  nextId_pos : 1 ≤ m.nextId
  nextId_le : m.nextId ≤ max 1 m.config.maxBranches
  live : ∀ b ∈ m.live, b.Alive m.listing
  retired : ∀ b ∈ m.retired, b.Done m.listing
  descends : ∀ b ∈ m.live ++ m.retired, b.Descends

/-- What holds of a machine between commands. -/
structure Valid (m : Machine) : Prop extends m.Consistent where
  current : m.live ≠ [] → ∃ b ∈ m.live, m.current = some b.id
  finished : m.live = [] → m.current = none

/-- The branches of a machine before and after something was done: of the live ones `kept` go on and
`stopped` do not, and `forked` are new. -/
structure Change (m m' : Machine) (kept stopped forked : List Branch) : Prop where
  listing : m'.listing = m.listing
  config : m'.config = m.config
  live : m'.live = kept ++ forked
  retired : m'.retired = m.retired ++ stopped
  nextId : m'.nextId = m.nextId + forked.length
  ids : ((kept ++ stopped).map Branch.id).Perm (m.live.map Branch.id)
  order : (kept.map Branch.id).Sublist (m.live.map Branch.id)
  numbers : forked.map Branch.id = List.range' m.nextId forked.length
  room : m.nextId + forked.length ≤ max 1 m.config.maxBranches
  alive : ∀ b ∈ kept ++ forked, b.Alive m.listing
  done : ∀ b ∈ stopped, b.Done m.listing
  descends : ∀ b ∈ kept ++ stopped ++ forked, b.Descends

variable {m m' : Machine}

theorem Consistent.id_lt (h : m.Consistent) {b : Branch} (hb : b ∈ m.live ++ m.retired) :
    b.id < m.nextId :=
  List.mem_range.1 (h.ids.subset (List.mem_map_of_mem hb))

theorem Change.consistent {kept stopped forked : List Branch}
    (h : Change m m' kept stopped forked) (hm : m.Consistent) : m'.Consistent where
  ids := by
    rw [h.live, h.retired, h.nextId, List.range_eq_range', ← List.range'_append_1, Nat.zero_add,
      ← h.numbers, ← List.range_eq_range']
    have hold : ((kept ++ stopped).map Branch.id ++ m.retired.map Branch.id).Perm
        (List.range m.nextId) := by
      refine (h.ids.append_right _).trans ?_
      rw [← List.map_append]
      exact hm.ids
    refine List.Perm.trans ?_ (hold.append_right (forked.map Branch.id))
    simp only [← List.map_append]
    refine List.Perm.map _ ?_
    -- The new branches come before the retired ones on the left and after them on the right.
    rw [List.append_assoc, List.append_assoc, List.append_assoc]
    refine List.Perm.append_left kept ?_
    have hswap : (forked ++ (m.retired ++ stopped)).Perm (stopped ++ m.retired ++ forked) :=
      List.perm_append_comm.trans (List.perm_append_comm.append_right forked)
    rwa [List.append_assoc stopped] at hswap
  order := by
    rw [h.live, List.map_append, h.numbers, List.pairwise_append]
    refine ⟨hm.order.sublist h.order, List.pairwise_lt_range', fun a ha b hb => ?_⟩
    obtain ⟨c, hc, rfl⟩ := List.mem_map.1 (h.order.subset ha)
    exact Nat.lt_of_lt_of_le (hm.id_lt (List.mem_append_left _ hc)) (List.mem_range'_1.1 hb).1
  nextId_pos := by
    rw [h.nextId]
    exact Nat.le_add_right_of_le hm.nextId_pos
  nextId_le := by
    rw [h.nextId, h.config]
    exact h.room
  live := by
    rw [h.live, h.listing]
    exact h.alive
  retired := by
    rw [h.retired, h.listing]
    intro b hb
    exact (List.mem_append.1 hb).elim (hm.retired b) (h.done b)
  descends := by
    rw [h.live, h.retired]
    intro b hb
    simp only [List.mem_append] at hb
    rcases hb with (hb | hb) | hb | hb
    · exact h.descends b (by simp [hb])
    · exact h.descends b (by simp [hb])
    · exact hm.descends b (List.mem_append_right _ hb)
    · exact h.descends b (by simp [hb])

theorem start_valid (l : Listing) (catalog : Catalog) (config : Config) :
    (start l catalog config).Valid where
  ids := List.Perm.refl _
  order := List.pairwise_singleton _ _
  nextId_pos := Nat.le_refl 1
  nextId_le := Nat.le_max_left 1 _
  live b hb := by
    cases List.mem_singleton.1 hb
    exact ⟨rfl, rfl, Nat.zero_le _, nofun⟩
  retired := nofun
  descends b hb := by
    cases List.mem_singleton.1 hb
    exact ⟨fun _ => rfl, fun h => absurd rfl h⟩
  current _ := ⟨_, List.mem_cons_self, rfl⟩
  finished := nofun

/-! ## One turn -/

theorem le_max_of_le_room {n k limit : Nat} (hn : n ≤ max 1 limit) (hk : k ≤ limit - n) :
    n + k ≤ max 1 limit := by
  omega

theorem id_of_indexOf? {id : BranchId} {i : Fin m.live.length} (h : m.indexOf? id = some i) :
    (m.live.get i).id = id := by
  simpa using (List.findFinIdx?_eq_some_iff.1 h).1

theorem children_ids (m : Machine) (b : Branch) (pcs : List Nat) :
    (m.children b pcs).map Branch.id = List.range' m.nextId (m.children b pcs).length := by
  have hid : (Branch.id ∘ fun (pc, id) => b.child id pc) = Prod.snd := rfl
  rw [children, List.map_map, hid, List.zipIdx_map_snd, List.length_map, List.length_zipIdx]

theorem mem_children {b c : Branch} {pcs : List Nat} (h : c ∈ m.children b pcs) :
    ∃ id pc, c = b.child id pc ∧ m.nextId ≤ id ∧ pc ∈ pcs := by
  obtain ⟨⟨pc, id⟩, hmem, rfl⟩ := List.mem_map.1 h
  refine ⟨id, pc, rfl, List.le_snd_of_mem_zipIdx hmem, ?_⟩
  exact List.mem_of_mem_take (List.fst_mem_of_mem_zipIdx hmem)

theorem alive_of_mem_children {b c : Branch} {pcs : List Nat} (hhalt : b.halt = none)
    (hinside : b.line? = some b.pc) (hcalls : b.thread.Within m.listing.size)
    (hpcs : ∀ pc ∈ pcs, pc ≤ m.listing.size)
    (h : c ∈ m.children b pcs) : c.Alive m.listing := by
  obtain ⟨id, pc, rfl, -, hpc⟩ := mem_children h
  exact ⟨hhalt, Branch.line?_child hinside id pc, hpcs pc hpc, hcalls⟩

theorem descends_child {b : Branch} {id : BranchId} (pc : Nat) (h : b.id < id) :
    (b.child id pc).Descends :=
  ⟨fun hid => absurd hid (Nat.ne_of_gt (Nat.zero_lt_of_lt h)), fun _ => ⟨b.id, rfl, h⟩⟩

theorem done_of_retire {l : Listing} {b : Branch} {h : Halt} (hinside : b.line? = some b.pc)
    (hfault : ∀ f, h = .faulted f → b.pc < l.size) : (b.retire h).Done l := by
  refine ⟨nofun, Branch.line?_retire h, fun f hf => ?_⟩
  cases h with
  | faulted f => exact ⟨(b.line?_retire_faulted f).trans hinside, hfault f rfl⟩
  | exhausted | terminated => cases hf

section Turn
variable {i : Fin m.live.length} {t : Turn}

theorem descends_of_turn (hm : m.Consistent) (ht : t.Follows m.listing (m.live.get i)) :
    t.branch.Descends := by
  rw [Branch.Descends, ht.id, ht.parent]
  exact hm.descends _ (List.mem_append_left m.retired (List.get_mem _ _))

/-- The branches that a turn forks off. -/
theorem forked_of_turn (hm : m.Consistent) (ht : t.Follows m.listing (m.live.get i)) :
    ∀ c ∈ m.children t.branch t.others, c.Alive m.listing ∧ c.Descends := by
  have hmem : m.live.get i ∈ m.live := List.get_mem _ _
  have hhalt : t.branch.halt = none := ht.running.trans (hm.live _ hmem).running
  have hinside := Branch.line?_of_same ht.inside (hm.live _ hmem).inside
  have hid := hm.id_lt (List.mem_append_left m.retired hmem)
  intro c hc
  refine ⟨alive_of_mem_children hhalt hinside ht.calls ht.others hc, ?_⟩
  obtain ⟨id, pc, rfl, hle, -⟩ := mem_children hc
  exact descends_child pc (Nat.lt_of_lt_of_le (ht.id ▸ hid) hle)

/-- A branch that goes on keeps its place and its number. -/
theorem change_of_goesOn (hm : m.Consistent) (ht : t.Follows m.listing (m.live.get i))
    (hh : t.halt = none) (hlisting : m'.listing = m.listing) (hconfig : m'.config = m.config)
    (hlive : m'.live = m.live.set i t.branch ++ m.children t.branch t.others)
    (hretired : m'.retired = m.retired ++ [])
    (hnext : m'.nextId = m.nextId + (m.children t.branch t.others).length) :
    Change m m' (m.live.set i t.branch) [] (m.children t.branch t.others) := by
  have halive := hm.live _ (List.get_mem m.live i)
  have hforked := forked_of_turn hm ht
  have hids : (m.live.set i t.branch).map Branch.id = m.live.map Branch.id := by
    have hi : (i : Nat) < (m.live.map Branch.id).length := by simp
    have hself := List.set_getElem_self hi
    rwa [List.getElem_map, ← List.get_eq_getElem, ← ht.id, ← List.map_set] at hself
  exact {
    listing := hlisting
    config := hconfig
    live := hlive
    retired := hretired
    nextId := hnext
    ids := by rw [List.append_nil, hids]
    order := by rw [hids]
    numbers := m.children_ids t.branch t.others
    room := le_max_of_le_room hm.nextId_le (m.length_children_le t.branch t.others)
    alive := by
      intro b hb
      rcases List.mem_append.1 hb with hb | hb
      · rcases List.mem_or_eq_of_mem_set hb with hb | rfl
        · exact hm.live b hb
        · exact ⟨ht.running.trans halive.running, Branch.line?_of_same ht.inside halive.inside,
            ht.goesOn hh, ht.calls⟩
      · exact (hforked b hb).1
    done := nofun
    descends := by
      intro b hb
      rw [List.append_nil] at hb
      rcases List.mem_append.1 hb with hb | hb
      · rcases List.mem_or_eq_of_mem_set hb with hb | rfl
        · exact hm.descends b (List.mem_append_left _ hb)
        · exact descends_of_turn hm ht
      · exact (hforked b hb).2 }

/-- A branch that stops takes its number along to the retired ones. -/
theorem change_of_stops (hm : m.Consistent) (ht : t.Follows m.listing (m.live.get i)) {h : Halt}
    (hh : t.halt = some h) (hlisting : m'.listing = m.listing) (hconfig : m'.config = m.config)
    (hlive : m'.live = m.live.eraseIdx i ++ m.children t.branch t.others)
    (hretired : m'.retired = m.retired ++ [t.branch.retire h])
    (hnext : m'.nextId = m.nextId + (m.children t.branch t.others).length) :
    Change m m' (m.live.eraseIdx i) [t.branch.retire h]
      (m.children t.branch t.others) := by
  have hforked := forked_of_turn hm ht
  have hperm : (m.live.eraseIdx i ++ [m.live.get i]).Perm m.live :=
    (List.perm_append_singleton _ _).trans (List.getElem_cons_eraseIdx_perm i.isLt)
  exact {
    listing := hlisting
    config := hconfig
    live := hlive
    retired := hretired
    nextId := hnext
    ids := by
      have hids := hperm.map Branch.id
      rw [List.map_append, List.map_singleton] at hids ⊢
      rwa [← ht.id] at hids
    order := (List.eraseIdx_sublist _ _).map _
    numbers := m.children_ids t.branch t.others
    room := le_max_of_le_room hm.nextId_le (m.length_children_le t.branch t.others)
    alive := by
      intro b hb
      rcases List.mem_append.1 hb with hb | hb
      · exact hm.live b (List.mem_of_mem_eraseIdx hb)
      · exact (hforked b hb).1
    done := by
      intro b hb
      cases List.mem_singleton.1 hb
      have hinside := (hm.live _ (List.get_mem m.live i)).inside
      exact done_of_retire (Branch.line?_of_same ht.inside hinside)
        fun f hf => ht.failed f (hf ▸ hh)
    descends := by
      intro b hb
      rcases List.mem_append.1 hb with hb | hb
      · rcases List.mem_append.1 hb with hb | hb
        · exact hm.descends b (List.mem_append_left _ (List.mem_of_mem_eraseIdx hb))
        · cases List.mem_singleton.1 hb
          exact descends_of_turn hm ht
      · exact (hforked b hb).2 }

end Turn

/-- What one turn does to the branches. -/
theorem stepAt_change (hm : m.Consistent) (i : Fin m.live.length) :
    ∃ kept stopped forked, Change m (m.stepAt i).1 kept stopped forked := by
  have hcalls := (hm.live _ (List.get_mem m.live i)).calls
  have ht := Branch.turn_follows hcalls m.catalog m.config.trace m.scratch
  simp only [stepAt]
  generalize (m.live.get i).turn m.listing m.catalog m.config.trace m.scratch = t at ht ⊢
  cases hh : t.halt with
  | none => exact ⟨_, _, _, change_of_goesOn hm ht hh rfl rfl rfl rfl rfl⟩
  | some h => exact ⟨_, _, _, change_of_stops hm ht hh rfl rfl rfl rfl rfl⟩

/-- A live branch that does not stop in its turn stays live. -/
theorem live_of_stepAt (hm : m.Consistent) (i : Fin m.live.length)
    (h : (m.stepAt i).2.halted = none) :
    ∃ b ∈ (m.stepAt i).1.live, b.id = (m.stepAt i).2.branch := by
  have hturn := Branch.turn_follows (hm.live _ (List.get_mem m.live i)).calls m.catalog
    m.config.trace m.scratch
  simp only [stepAt] at h ⊢
  rw [h]
  exact ⟨_, List.mem_append_left _ (List.mem_set i.isLt _), hturn.id⟩

/-! ## What no command undoes -/

/-- The machine `m'` comes after `m`, which was consistent. -/
structure Leads (m m' : Machine) : Prop where
  listing : m'.listing = m.listing
  config : m'.config = m.config
  retired : m.retired <+: m'.retired
  consistent : m'.Consistent

theorem Leads.refl (hm : m.Consistent) : Leads m m := ⟨rfl, rfl, List.prefix_rfl, hm⟩

theorem Leads.trans {m₁ m₂ m₃ : Machine} (h : Leads m₁ m₂) (h' : Leads m₂ m₃) : Leads m₁ m₃ :=
  ⟨h'.listing.trans h.listing, h'.config.trans h.config, h.retired.trans h'.retired, h'.consistent⟩

theorem Change.leads {kept stopped forked : List Branch} (h : Change m m' kept stopped forked)
    (hm : m.Consistent) : Leads m m' :=
  ⟨h.listing, h.config, h.retired ▸ List.prefix_append _ _, h.consistent hm⟩

theorem stepAt_leads (hm : m.Consistent) (i : Fin m.live.length) : Leads m (m.stepAt i).1 := by
  obtain ⟨kept, stopped, forked, h⟩ := stepAt_change hm i
  exact h.leads hm

/-- Where a machine is current does not matter for its consistency. -/
theorem Consistent.focus (hm : m.Consistent) (current : Option BranchId)
    (paused : Option (BranchId × Nat)) : ({ m with current, paused } : Machine).Consistent :=
  ⟨hm.ids, hm.order, hm.nextId_pos, hm.nextId_le, hm.live, hm.retired, hm.descends⟩

/-- A round goes on as turns do, and stops only before a live branch. -/
theorem round_leads (hm : m.Consistent) (ids : List BranchId) :
    Leads m (m.round ids).1 ∧
      ∀ id line, (m.round ids).2 = some (id, line) → ∃ b ∈ (m.round ids).1.live, b.id = id := by
  induction ids generalizing m with
  | nil => exact ⟨.refl hm, nofun⟩
  | cons id ids ih =>
    unfold round
    split
    · -- The branch was retired earlier in the round.
      exact ih hm
    · rename_i i hi
      split
      · -- It stands before a breakpoint, and is live.
        refine ⟨.refl hm, fun id' line h => ?_⟩
        cases h
        exact ⟨_, List.get_mem m.live i, id_of_indexOf? hi⟩
      · have hstep := stepAt_leads hm i
        obtain ⟨hleads, hlive⟩ := ih hstep.consistent
        exact ⟨hstep.trans hleads, hlive⟩

/-- A run makes rounds until no branch is left or one stands before a breakpoint. -/
theorem run_leads (hm : m.Consistent) : Leads m m.run.1 ∧ m.run.1.Valid := by
  -- Each round takes some of the effort that the machine is still good for.
  induction hn : m.effort using Nat.strongRecOn generalizing m with
  | ind n ih =>
    have hround := round_leads hm (m.live.map (·.id))
    rw [run]
    split
    · rename_i hlive
      have hm' := hm.focus none m.paused
      exact ⟨⟨rfl, rfl, List.prefix_rfl, hm'⟩, { hm' with
        current := fun h => absurd hlive h
        finished := fun _ => rfl }⟩
    · rename_i hlive
      split
      · rename_i next id line h
        rw [h] at hround
        obtain ⟨b, hb, hid⟩ := hround.2 id line rfl
        have hm' := hround.1.consistent.focus (some id) (some (id, line))
        exact ⟨⟨hround.1.listing, hround.1.config, hround.1.retired, hm'⟩, { hm' with
          current := fun _ => ⟨b, hb, by rw [hid]⟩
          finished := fun h => absurd hb (by rw [h]; exact List.not_mem_nil) }⟩
      · rename_i next h
        have hlt := round_effort_lt hlive (by rw [h])
        rw [h] at hround hlt
        obtain ⟨hleads, hvalid⟩ := ih next.effort (hn ▸ hlt) hround.1.consistent rfl
        exact ⟨hround.1.trans hleads, hvalid⟩

end Machine

end Teal
