import Teal.Lint.Flow
import Teal.Proofs.Machine.Offspring
/-!
# Nothing leaves an infinite loop

The rule `infinite-loop` looks at a range of lines that ends in a jump back to its first line. It
flags the jump if no line of the range ends the program or returns, and every label that they refer
to is declared in the range and nowhere else. So an instruction of the range sends control to a line
of the range, from where it comes to an instruction of the range: the last line is one. A branch
that has got there stays there, and so do the branches forked from it, until they fail or their
budget is spent.
-/

namespace Teal.Lint

/-- Control at `pc` comes to an instruction in the lines from `first` to `last`. -/
def Confined (l : Listing) (first last pc : Nat) : Prop :=
  ∃ line, l.nextExecutable pc = some line ∧ first ≤ line ∧ line ≤ last

/-- The lines from `first` to `last` are a loop that nothing leaves. -/
structure Endless (l : Listing) (first last : Nat) : Prop where
  back : ∃ target, l.ops[last]? = some (.branch .always target) ∧ l.target? target = some first
  closed : escapes l first last = false

section Listing
variable {l : Listing} {first last : Nat}

theorem endless_of_mem (h : (first, last) ∈ infiniteLoops l) : Endless l first last := by
  unfold infiniteLoops at h
  rw [List.mem_filterMap] at h
  obtain ⟨⟨op, line⟩, hmem, hflag⟩ := h
  have hop : l.ops[line]? = some op := List.mem_zipIdx_iff_getElem?.1 hmem
  cases op with
  | branch kind target =>
    cases kind with
    | always =>
      cases htarget : l.target? target with
      | none => simp [htarget] at hflag
      | some start =>
        simp only [htarget, Option.ite_none_right_eq_some, Bool.and_eq_true, Bool.not_eq_true',
          Option.some.injEq, Prod.mk.injEq] at hflag
        obtain ⟨⟨-, hclosed⟩, rfl, rfl⟩ := hflag
        exact ⟨⟨target, hop, htarget⟩, hclosed⟩
    | _ => cases hflag
  | _ => cases hflag

/-- The first declaration of a label is one of its declarations. -/
theorem mem_declarations {id : LabelId} {i : Nat} (h : l.target? id = some i) :
    i ∈ l.declarations id :=
  List.mem_of_mem_head? (l.target?_eq_head? id ▸ h)

variable {op : Op LabelId} {line : Nat}

/-- What the rule has checked of every line of the range. -/
theorem Endless.checked (hl : Endless l first last) (hfirst : first ≤ line) (hlast : line ≤ last)
    (hop : l.ops[line]? = some op) :
    op.isTerminator = false ∧
      ∀ id ∈ op.targets, ∀ i, l.target? id = some i → first ≤ i ∧ i ≤ last := by
  have hclosed := hl.closed
  unfold escapes at hclosed
  rw [List.any_eq_false] at hclosed
  have hmem : op ∈ (l.ops.take (last + 1)).drop first := by
    refine List.mem_of_getElem? (i := line - first) ?_
    rw [List.getElem?_drop, List.getElem?_take]
    rw [if_pos (by omega), Nat.add_sub_cancel' hfirst, hop]
  have hcheck := hclosed op hmem
  simp only [Bool.or_eq_true, not_or, Bool.not_eq_true, List.any_eq_false] at hcheck
  refine ⟨hcheck.1, fun id hid i hi => ?_⟩
  have hsite := (hcheck.2 id hid).2 i (mem_declarations hi)
  simp only [decide_eq_false_iff_not, Nat.not_lt] at hsite
  exact hsite

/-- Control in the range comes to an instruction of the range. -/
theorem Endless.confined (hl : Endless l first last) {pc : Nat} (hfirst : first ≤ pc)
    (hlast : pc ≤ last) : Confined l first last pc := by
  obtain ⟨target, hback, -⟩ := hl.back
  have hget : (l.ops.drop pc)[last - pc]? = some (.branch .always target) := by
    rw [List.getElem?_drop, Nat.add_sub_cancel' hlast, hback]
  unfold Confined Listing.nextExecutable Listing.nextWhere
  cases hn : (l.ops.drop pc).findIdx? Op.isExecutable with
  | none =>
    have hskip := List.findIdx?_eq_none_iff.1 hn _ (List.mem_of_getElem? hget)
    cases hskip
  | some n =>
    obtain ⟨_, _, hbefore⟩ := List.findIdx?_eq_some_iff_getElem.1 hn
    -- The search does not go past the last line, which executes.
    have hle : n ≤ last - pc := by
      apply Nat.le_of_not_lt
      intro hlt
      have hskip := hbefore (last - pc) hlt
      obtain ⟨hbound, hop⟩ := List.getElem?_eq_some_iff.1 hget
      rw [hop] at hskip
      exact hskip rfl
    exact ⟨pc + n, rfl, by omega, by omega⟩

/-- An instruction of the range sends control to a line of the range. -/
theorem Endless.reaches (hl : Endless l first last) (hfirst : first ≤ line) (hlast : line ≤ last)
    (hop : l.ops[line]? = some op) {i : Nat} (h : op.Reaches l line i) :
    Confined l first last i := by
  rcases h with ⟨hflow, rfl⟩ | ⟨id, hid, hi⟩
  · -- Control does not fall through the jump in the last line.
    have hne : line ≠ last := by
      rintro rfl
      obtain ⟨target, hback, -⟩ := hl.back
      cases hop.symm.trans hback
      cases hflow
    exact hl.confined (by omega) (by omega)
  · obtain ⟨hle, hge⟩ := (hl.checked hfirst hlast hop).2 id hid i hi
    exact hl.confined hle hge

end Listing

/-! ## Turns -/

/-- A branch that has stopped without leaving the listing or a verdict. -/
def Broken (b : Branch) : Prop :=
  b.halt = some .exhausted ∨ ∃ f, b.halt = some (.faulted f)

theorem Endless.turn {l : Listing} {first last : Nat} (hl : Endless l first last) {b : Branch}
    {catalog : Catalog} {traced : Bool} {scratch : Scratch} {t : Turn}
    (hb : Confined l first last b.pc) (ht : b.TurnCases l catalog traced scratch t) :
    (t.halt = none → Confined l first last t.branch.pc) ∧
      (∀ h, t.halt = some h → Broken (t.branch.retire h)) ∧
      ∀ pc ∈ t.others, Confined l first last pc := by
  obtain ⟨line, hnext, hfirst, hlast⟩ := hb
  obtain ⟨op, hfetch⟩ := Listing.fetch?_of_nextExecutable hnext
  have hop := Listing.getElem?_of_fetch? hfetch
  have hterm := (hl.checked hfirst hlast hop).1
  have hne : op ≠ .retsub := by
    rintro rfl
    cases hterm
  cases ht with
  | spent =>
    refine ⟨nofun, ?_, nofun⟩
    rintro _ ⟨⟩
    exact .inl rfl
  | left hnone => cases hfetch.symm.trans hnone
  | fails =>
    refine ⟨nofun, ?_, nofun⟩
    rintro _ ⟨⟩
    exact .inr ⟨_, rfl⟩
  | ends hsome hout =>
    -- Only a terminator ends the program, and there is none in the range.
    cases hfetch.symm.trans hsome
    rcases hout.continues hne with ⟨rfl, -⟩ | ⟨hlines, -⟩
    · cases hterm
    · exact absurd rfl hlines
  | @goes _ _ _ _ next others hsome hout hlines =>
    cases hfetch.symm.trans hsome
    rcases hout.continues hne with ⟨rfl, -⟩ | ⟨-, hreach⟩
    · cases hterm
    · rw [hlines] at hreach
      have hconfined : ∀ pc ∈ next :: others, Confined l first last pc :=
        fun pc hpc => hl.reaches hfirst hlast hop (hreach pc hpc)
      refine ⟨fun _ => hconfined next List.mem_cons_self, ?_, ?_⟩
      · intro h hh
        simp only [Branch.goOn] at hh
        split at hh
        · cases hh
          exact .inl rfl
        · cases hh
      · intro pc hpc
        exact hconfined pc (List.mem_cons_of_mem next hpc)

theorem Endless.hereditary {l : Listing} {first last : Nat} (hl : Endless l first last) :
    Machine.Hereditary l (fun b => Confined l first last b.pc) Broken where
  turn hb ht := by
    obtain ⟨hself, hhalt, hothers⟩ := hl.turn hb ht
    exact ⟨hself, hhalt, fun _ => hothers⟩
  copy _ hb := hb

/-- Once a live branch has got into a loop that the rule `infinite-loop` flags, it stays there with
all branches that are forked from it, whatever commands are given, and none of them stops otherwise
than by a fault or for want of budget. -/
theorem infinite_loop_never_left (c : Context) (catalog : Catalog) (config : Machine.Config)
    (commands later : List Machine.Command) :
    let m := (Machine.start c.listing catalog config).performAll commands
    let m' := m.performAll later
    ∃ flagged, infiniteLoop.check c = some flagged ∧ ∀ d ∈ flagged,
      ∃ target first, c.listing.ops[d.line]? = some (.branch .always target) ∧
        c.listing.target? target = some first ∧
        ∀ b ∈ m.live, Confined c.listing first d.line b.pc →
          ∀ b', Machine.Offspring (m'.live ++ m'.retired) m.nextId b.id b'.id →
            (b' ∈ m'.live → Confined c.listing first d.line b'.pc) ∧
              (b' ∈ m'.retired → Broken b') := by
  intro m m'
  have hstart := Machine.start_valid c.listing catalog config
  obtain ⟨hleads, hvalid⟩ := Machine.performAll_leads hstart commands
  have hlisting : m.listing = c.listing := hleads.listing
  refine ⟨_, rfl, fun d hd => ?_⟩
  obtain ⟨⟨first, last⟩, hloop, rfl⟩ := List.mem_map.1 hd
  have hl := endless_of_mem hloop
  obtain ⟨target, hop, htarget⟩ := hl.back
  refine ⟨target, first, hop, htarget, fun b hb hconfined b' hoff => ?_⟩
  have hP := hl.hereditary
  rw [← hlisting] at hP hconfined ⊢
  have hfamily := hP.performAll hvalid.toConsistent hb hconfined later
  exact ⟨fun h => hfamily.live b' h hoff, fun h => hfamily.retired b' h hoff⟩

example :
    infiniteLoops { ops := [.label 0, .instr "txn" ["Fee"], .branch .ifZero 0, .err, .label 1,
      .branch .ifNonZero 2, .label 2, .branch .always 1] } = [(4, 7)] := by
  decide

end Teal.Lint
