import Teal.Catalog.Standard
import Teal.Proofs.Instruction.Checked
/-!
# Shuffling the stack

Six opcodes move, copy and drop values by their place in the stack alone. `Shuffles` says by rules
what each of them makes of a stack.

Three facts settle an opcode. What a rule says is what it does (`Shuffles.run`); a rule applies to
every stack that holds the values the opcode needs (`exists_shuffles`); and on any other stack it
fails (`Shuffle.run_of_short`). `cover` and `uncover` are one rule read both ways
(`cover_iff_uncover`), which is why each undoes the other.
-/

namespace Teal

/-- The opcodes that shuffle the stack. Each has a one-byte operand. -/
inductive Shuffle where
  | dig | cover | uncover | bury | popn | dupn
deriving DecidableEq, Repr

namespace Shuffle

/-- The opcode. -/
def opcode : Shuffle → Opcode
  | dig => .dig
  | cover => .cover
  | uncover => .uncover
  | bury => .bury
  | popn => .popn
  | dupn => .dupn

/-- A line with the opcode. -/
def line (op : Shuffle) (immediates : List String) : Op LabelId :=
  .instr op.opcode.name immediates

/-- How many values the opcode needs on the stack. -/
def needs : Shuffle → Nat → Nat
  | dig, n | cover, n | uncover, n | bury, n => n + 1
  | popn, n => n
  | dupn, _ => 1

/-- What the opcode does once its operand has been read. -/
def action : Shuffle → Site → Nat → Exec Unit
  | dig, site, n => Exec.dig site n
  | cover, site, n => Exec.cover site n
  | uncover, site, n => Exec.uncover site n
  | bury, site, n => Exec.bury site n
  | popn, site, n => do
    let _ ← Exec.popMany site.name n
  | dupn, site, n => Exec.dupn site n

end Shuffle

/-- What an opcode with the operand `n` makes of a stack, the top first. The value `n` below the top
is the one behind `n` others. -/
inductive Shuffles (n : Nat) : Shuffle → List Cell → List Cell → Prop
  /-- The value `n` below the top is pushed once more. -/
  | dig {above c below} : above.length = n →
      Shuffles n .dig (above ++ c :: below) (c :: (above ++ c :: below))
  /-- The top goes below the `n` values under it. -/
  | cover {above c below} : above.length = n →
      Shuffles n .cover (c :: (above ++ below)) (above ++ c :: below)
  /-- The value `n` below the top goes to the top. -/
  | uncover {above c below} : above.length = n →
      Shuffles n .uncover (above ++ c :: below) (c :: (above ++ below))
  /-- The top takes the place of the value `n` below it. -/
  | bury {above c d below} : above.length + 1 = n →
      Shuffles n .bury (c :: (above ++ d :: below)) (above ++ c :: below)
  /-- The `n` values on top are dropped. -/
  | popn {above below} : above.length = n → Shuffles n .popn (above ++ below) below
  /-- The top is pushed `n` more times. -/
  | dupn {c below} : Shuffles n .dupn (c :: below) (List.replicate n c ++ c :: below)

/-! ## The rules -/

section Rules
variable {n : Nat} {op : Shuffle} {cells cells' : List Cell}

/-- `cover` and `uncover` are one rule read both ways. -/
theorem cover_iff_uncover :
    Shuffles n .cover cells cells' ↔ Shuffles n .uncover cells' cells := by
  constructor
  · intro h
    cases h with
    | cover hn => exact .uncover hn
  · intro h
    cases h with
    | uncover hn => exact .cover hn

theorem exists_split (h : n < cells.length) :
    ∃ above c below, cells = above ++ c :: below ∧ above.length = n :=
  ⟨cells.take n, cells.get ⟨n, h⟩, cells.drop (n + 1), by simp,
    List.length_take_of_le (Nat.le_of_lt h)⟩

/-- A rule applies to every stack that holds enough values. -/
theorem exists_shuffles (hbury : op = .bury → n ≠ 0) (h : op.needs n ≤ cells.length) :
    ∃ cells', Shuffles n op cells cells' := by
  cases op with
  | dig =>
    obtain ⟨above, c, below, rfl, hn⟩ := exists_split h
    exact ⟨_, .dig hn⟩
  | uncover =>
    obtain ⟨above, c, below, rfl, hn⟩ := exists_split h
    exact ⟨_, .uncover hn⟩
  | cover =>
    obtain ⟨c, rest, rfl⟩ := List.exists_cons_of_length_pos (Nat.zero_lt_of_lt h)
    have hn : (rest.take n).length = n := List.length_take_of_le (Nat.le_of_succ_le_succ h)
    rw [← rest.take_append_drop n]
    exact ⟨_, .cover hn⟩
  | bury =>
    obtain ⟨c, rest, rfl⟩ := List.exists_cons_of_length_pos (Nat.zero_lt_of_lt h)
    have hpos : 0 < n := Nat.pos_of_ne_zero (hbury rfl)
    have hlt : n - 1 < rest.length := by
      simp only [Shuffle.needs, List.length_cons] at h
      omega
    obtain ⟨above, d, below, rfl, hn⟩ := exists_split hlt
    exact ⟨_, .bury (by omega)⟩
  | popn =>
    have hn : (cells.take n).length = n := List.length_take_of_le h
    rw [← cells.take_append_drop n]
    exact ⟨_, .popn hn⟩
  | dupn =>
    obtain ⟨c, rest, rfl⟩ := List.exists_cons_of_length_pos h
    exact ⟨_, .dupn⟩

end Rules

/-! ## What the opcodes do -/

theorem State.stack_withStack (s : State) (cells : List Cell) :
    (s.withStack cells).thread.stack = cells := rfl

namespace Exec

variable {s : State}

theorem run_pop_bind {β : Type} (name : String) (c : Cell) (rest : List Cell) (f : Cell → Exec β) :
    (pop name >>= f).run (s.withStack (c :: rest)) = (f c).run (s.withStack rest) := rfl

theorem run_popMany (name : String) (above below : List Cell) :
    (popMany name above.length).run (s.withStack (above ++ below)) =
      .ok above (s.withStack below) := by
  induction above with
  | nil => rfl
  | cons c above ih =>
    rw [List.length_cons, popMany, List.cons_append, run_pop_bind, EStateM.run_bind, ih]
    rfl

/-- Where there are too few values all of them are taken before it fails. -/
theorem run_popMany_short {n : Nat} {cells : List Cell} (name : String) (h : cells.length < n) :
    (popMany name n).run (s.withStack cells) = .error (.stackUnderflow name) (s.withStack []) := by
  obtain ⟨n, rfl⟩ := Nat.exists_eq_succ_of_ne_zero (Nat.ne_zero_of_lt h)
  induction cells generalizing n with
  | nil => rfl
  | cons c cells ih =>
    have hrest : cells.length < n := Nat.lt_of_succ_lt_succ h
    obtain ⟨m, rfl⟩ := Nat.exists_eq_succ_of_ne_zero (Nat.ne_zero_of_lt hrest)
    rw [popMany, run_pop_bind, EStateM.run_bind, ih m hrest]

end Exec

open Checked (run_stack_bind)
open State (stack_withStack)

/-- What a rule says is what the opcode does. -/
theorem Shuffles.run {n : Nat} {op : Shuffle} {cells cells' : List Cell}
    (h : Shuffles n op cells cells') (site : Site) (s : State) :
    (op.action site n).run (s.withStack cells) = .ok () (s.withStack cells') := by
  cases h with
  | @dig above c below hn =>
    have hget : (above ++ c :: below)[n]? = some c := by simp [← hn]
    rw [Shuffle.action, Exec.dig, run_stack_bind, stack_withStack, hget]
    rfl
  | @cover above c below hn =>
    have hle : ¬ n > (above ++ below).length := by
      rw [List.length_append]
      omega
    rw [Shuffle.action, Exec.cover, Exec.run_pop_bind, run_stack_bind, stack_withStack, if_neg hle,
      List.take_left' hn, List.drop_left' hn]
    rfl
  | @uncover above c below hn =>
    have hget : (above ++ c :: below)[n]? = some c := by simp [← hn]
    have herase : (above ++ c :: below).eraseIdx n = above ++ below := by
      rw [List.eraseIdx_append_of_length_le (Nat.le_of_eq hn), hn, Nat.sub_self,
        List.eraseIdx_cons_zero]
    rw [Shuffle.action, Exec.uncover, run_stack_bind, stack_withStack, hget, herase]
    rfl
  | @bury above c d below hn =>
    have hlt : n - 1 < (above ++ d :: below).length := by
      rw [List.length_append, List.length_cons]
      omega
    have hset : (above ++ d :: below).set (n - 1) c = above ++ c :: below := by simp [← hn]
    rw [Shuffle.action, Exec.bury, if_neg (by omega), Exec.run_pop_bind, run_stack_bind,
      stack_withStack, if_pos hlt, hset]
    rfl
  | popn hn =>
    subst hn
    rw [Shuffle.action, EStateM.run_bind, Exec.run_popMany]
    rfl
  | @dupn c below =>
    have hcopies : List.replicate (n + 1) c ++ below = List.replicate n c ++ c :: below := by
      rw [List.replicate_succ', List.append_assoc, List.singleton_append]
    rw [Shuffle.action, Exec.dupn, Exec.run_pop_bind, run_stack_bind, stack_withStack, hcopies]
    rfl

/-- On a stack that holds too few values the opcode fails. -/
theorem Shuffle.run_of_short {n : Nat} {op : Shuffle} {cells : List Cell}
    (hbury : op = .bury → n ≠ 0) (h : cells.length < op.needs n) (site : Site) (s : State) :
    ∃ t, (op.action site n).run (s.withStack cells) = .error (.stackUnderflow site.name) t := by
  cases op with
  | dig =>
    have hget : cells[n]? = none := List.getElem?_eq_none (Nat.le_of_lt_succ h)
    rw [action, Exec.dig, run_stack_bind, stack_withStack, hget]
    exact ⟨_, rfl⟩
  | uncover =>
    have hget : cells[n]? = none := List.getElem?_eq_none (Nat.le_of_lt_succ h)
    rw [action, Exec.uncover, run_stack_bind, stack_withStack, hget]
    exact ⟨_, rfl⟩
  | cover =>
    -- The top is taken first, so there are two ways to be short of a value.
    cases cells with
    | nil => exact ⟨_, rfl⟩
    | cons c rest =>
      have hgt : n > rest.length := Nat.lt_of_succ_lt_succ h
      rw [action, Exec.cover, Exec.run_pop_bind, run_stack_bind, stack_withStack, if_pos hgt]
      exact ⟨_, rfl⟩
  | bury =>
    rw [action, Exec.bury, if_neg (hbury rfl)]
    cases cells with
    | nil => exact ⟨_, rfl⟩
    | cons c rest =>
      have hge : ¬ n - 1 < rest.length := by
        simp only [needs, List.length_cons] at h
        omega
      rw [Exec.run_pop_bind, run_stack_bind, stack_withStack, if_neg hge]
      exact ⟨_, rfl⟩
  | popn =>
    have hshort := Exec.run_popMany_short (s := s) site.name (show cells.length < n from h)
    rw [action, EStateM.run_bind, hshort]
    exact ⟨_, rfl⟩
  | dupn =>
    obtain rfl : cells = [] := List.length_eq_zero_iff.1 (Nat.lt_one_iff.1 h)
    exact ⟨_, rfl⟩

/-! ## Lines -/

/-- The first operand of a line is the numeral of a byte. -/
def Operand (immediates : List String) (n : UInt8) : Prop :=
  ∃ raw rest, immediates = raw :: rest ∧ Text.Numeral.byte? raw.toList = some n

theorem Operand.run {immediates : List String} {n : UInt8} (h : Operand immediates n) (site : Site)
    (s : State) : (Exec.immediate site immediates 0).run s = .ok n.toNat s := by
  obtain ⟨raw, rest, rfl, hraw⟩ := h
  simp only [Exec.immediate, List.getElem?_cons_zero, Option.bind_some, hraw]
  rfl

theorem Shuffle.compute_eq (op : Shuffle) (site : Site) (immediates : List String) :
    Exec.compute site immediates op.opcode =
      Exec.immediate site immediates 0 >>= op.action site := by
  cases op <;> rfl

section Lines
variable {immediates : List String} {n : UInt8} {op : Shuffle}

theorem Shuffle.exec_line (h : Operand immediates n) (op : Shuffle) (l : Listing)
    (catalog : Catalog) (pc : Nat) (s : State) :
    ((op.line immediates).exec l catalog pc).run s =
      (Exec.andNext (.ofLine l pc (op.line immediates))
        (op.action (.ofLine l pc (op.line immediates)) n.toNat)).run s := by
  rw [line, Exec.exec_opcode, compute_eq]
  simp only [Exec.andNext, EStateM.run_bind, h.run]

theorem Shuffles.exec_line (h : Operand immediates n) {s : State} {cells : List Cell}
    (hcells : Shuffles n.toNat op s.thread.stack cells) (l : Listing) (catalog : Catalog)
    (pc : Nat) :
    ((op.line immediates).exec l catalog pc).run s = .ok (.goto (pc + 1)) (s.withStack cells) := by
  rw [Shuffle.exec_line h]
  exact Exec.run_andNext_ok (hcells.run _ s)

theorem Shuffle.exec_short (h : Operand immediates n) (hbury : op = .bury → n.toNat ≠ 0)
    {s : State} (hs : s.thread.stack.length < op.needs n.toNat) (l : Listing) (catalog : Catalog)
    (pc : Nat) :
    ∃ t, ((op.line immediates).exec l catalog pc).run s =
      .error (.stackUnderflow op.opcode.name) t := by
  obtain ⟨t, ht⟩ := run_of_short hbury hs (.ofLine l pc (op.line immediates)) s
  rw [exec_line h]
  exact ⟨t, Exec.run_andNext_error ht⟩

/-- A line has one outcome, so what it comes to is what the rule says. -/
theorem Shuffles.of_exec_line (h : Operand immediates n) (hbury : op = .bury → n.toNat ≠ 0)
    {s : State} {cells : List Cell} {l : Listing} {catalog : Catalog} {pc : Nat}
    (hrun : ((op.line immediates).exec l catalog pc).run s =
      .ok (.goto (pc + 1)) (s.withStack cells)) :
    Shuffles n.toNat op s.thread.stack cells := by
  obtain hshort | henough := Nat.lt_or_ge s.thread.stack.length (op.needs n.toNat)
  · obtain ⟨t, ht⟩ := Shuffle.exec_short h hbury hshort l catalog pc
    rw [ht] at hrun
    cases hrun
  · obtain ⟨cells', hcells'⟩ := exists_shuffles hbury henough
    rw [hcells'.exec_line h] at hrun
    injection hrun with _ hstate
    obtain rfl : cells' = cells := congrArg (·.thread.stack) hstate
    exact hcells'

/-- A shuffling opcode that undoes another one takes the stack back to where it was. -/
theorem Shuffles.exec_back {back : Shuffle} {immediates' : List String} (h : Operand immediates n)
    (h' : Operand immediates' n) {s : State} {cells : List Cell}
    (hcells : Shuffles n.toNat op s.thread.stack cells)
    (hback : Shuffles n.toNat back cells s.thread.stack) (l : Listing) (catalog : Catalog)
    (pc pc' : Nat) :
    ((op.line immediates).exec l catalog pc >>= fun _ =>
      (back.line immediates').exec l catalog pc').run s = .ok (.goto (pc' + 1)) s := by
  rw [EStateM.run_bind, hcells.exec_line h]
  exact Shuffles.exec_line (s := s.withStack cells) h' hback l catalog pc'

end Lines

/-- A shuffling opcode goes on at the next line with a stack exactly if its rule says so, and only
the stack changes. Its rule applies to every stack that holds the values it needs; on any other it
fails for want of values. On a stack with more than `n` values `cover` and `uncover` undo each
other. -/
theorem shuffles_by_rule (l : Listing) (catalog : Catalog) (pc pc' : Nat)
    {immediates immediates' : List String} {n : UInt8} (hn : Operand immediates n)
    (hn' : Operand immediates' n) (s : State) :
    (∀ op : Shuffle, (op = .bury → n ≠ 0) →
      (∀ cells, ((op.line immediates).exec l catalog pc).run s =
          .ok (.goto (pc + 1)) (s.withStack cells) ↔
        Shuffles n.toNat op s.thread.stack cells) ∧
      (op.needs n.toNat ≤ s.thread.stack.length →
        ∃ cells, Shuffles n.toNat op s.thread.stack cells) ∧
      (s.thread.stack.length < op.needs n.toNat →
        ∃ t, ((op.line immediates).exec l catalog pc).run s =
          .error (.stackUnderflow op.opcode.name) t)) ∧
    (n.toNat < s.thread.stack.length →
      ((Shuffle.cover.line immediates).exec l catalog pc >>= fun _ =>
        (Shuffle.uncover.line immediates').exec l catalog pc').run s = .ok (.goto (pc' + 1)) s ∧
      ((Shuffle.uncover.line immediates).exec l catalog pc >>= fun _ =>
        (Shuffle.cover.line immediates').exec l catalog pc').run s = .ok (.goto (pc' + 1)) s) := by
  refine ⟨fun op hbury => ?_, fun h => ?_⟩
  · have hbury : op = .bury → n.toNat ≠ 0 := fun h hz => hbury h (UInt8.toNat_inj.1 hz)
    exact ⟨fun cells => ⟨fun h => .of_exec_line hn hbury h, fun h => h.exec_line hn l catalog pc⟩,
      exists_shuffles hbury, fun h => Shuffle.exec_short hn hbury h l catalog pc⟩
  · obtain ⟨covered, hcovered⟩ : ∃ cells, Shuffles n.toNat .cover s.thread.stack cells :=
      exists_shuffles nofun h
    obtain ⟨uncovered, huncovered⟩ : ∃ cells, Shuffles n.toNat .uncover s.thread.stack cells :=
      exists_shuffles nofun h
    exact ⟨hcovered.exec_back hn hn' (cover_iff_uncover.1 hcovered) l catalog pc pc',
      huncovered.exec_back hn hn' (cover_iff_uncover.2 huncovered) l catalog pc pc'⟩

/-- Three values are just enough for `cover 2`, `uncover 2` and `bury 2`, and one too few for
`dig 3`. -/
theorem shuffles_by_rule_three :
    let l : Listing := { ops := [.instr "cover" ["2"], .instr "uncover" ["+2"]] }
    let s : State := { thread := { stack := [3, 2, 1].map fun n => { value := .uint n } } }
    ((Shuffle.cover.line ["2"]).exec l .standard 0 >>= fun _ =>
      (Shuffle.uncover.line ["+2"]).exec l .standard 1).run s = .ok (.goto 2) s ∧
    ((Shuffle.bury.line ["2"]).exec l .standard 0).run s =
      .ok (.goto 1) (s.withStack ([2, 3].map fun n => { value := .uint n })) ∧
    ∃ t, ((Shuffle.dig.line ["3"]).exec l .standard 0).run s =
      .error (.stackUnderflow "dig") t := by
  intro l s
  have htwo : Operand ["2"] 2 := ⟨"2", [], rfl, by decide⟩
  have hplus : Operand ["+2"] 2 := ⟨"+2", [], rfl, by decide⟩
  have hthree : Operand ["3"] 3 := ⟨"3", [], rfl, by decide⟩
  have hbury : Shuffles 2 .bury s.thread.stack ([2, 3].map fun n => { value := .uint n }) :=
    .bury (show [({ value := .uint 2 } : Cell)].length + 1 = 2 from rfl)
  have henough := shuffles_by_rule l .standard 0 1 htwo hplus s
  have hshort := shuffles_by_rule l .standard 0 1 hthree hthree s
  exact ⟨(henough.2 (by decide)).1, ((henough.1 .bury (by decide)).1 _).2 hbury,
    (hshort.1 .dig nofun).2.2 (by decide)⟩

end Teal
