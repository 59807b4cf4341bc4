import Teal.Proofs.Instruction
/-!
# Instructions that check every access

Some instructions compute a position and then use it: they index the stack, split it, insert into
it, cut a slice out of a byte string or look up a target, and they subtract to get there. `Checked`
is the monad of actions that have no result at all where such an access is out of its bounds.
`Op.checked` executes a line with all of them checked: positions count from the bottom of the stack,
a subtraction must not go below zero, and `frame_dig` and `frame_bury` must stay at or above the
arguments of the innermost frame.

`Op.checked_agrees` is the main result: where no call takes more arguments than there were values
at the call, every access is within its bounds, and the checks change nothing.
-/

namespace Teal

/-- An action that has no result where an access is out of its bounds. -/
def Checked (α : Type) := State → Option (EStateM.Result Fault State α)

namespace Checked

instance : Monad Checked where
  pure a := fun s => some (.ok a s)
  bind x f := fun s =>
    match x s with
    | some (.ok a t) => f a t
    | some (.error e t) => some (.error e t)
    | none => none

instance : MonadLift (EStateM Fault State) Checked where
  monadLift x := fun s => some (x.run s)

instance : MonadLift Option Checked where
  monadLift a := fun s => a.map (.ok · s)

/-- The action that fails. -/
def fail {α : Type} (fault : Fault) : Checked α := fun s => some (.error fault s)

/-! ## Accesses -/

section Access
variable {α : Type}

/-- A difference that must not be negative. -/
def minus? (a b : Nat) : Option Nat :=
  if b ≤ a then some (a - b) else none

/-- What comes before a position and what from there on. -/
def splitAt? (xs : List α) (i : Nat) : Option (List α × List α) :=
  if i ≤ xs.length then some (xs.take i, xs.drop i) else none

/-- The list with another value at a position. -/
def set? (xs : List α) (i : Nat) (x : α) : Option (List α) :=
  if i < xs.length then some (xs.set i x) else none

/-- The list with one more value at a position. -/
def insert? (xs : List α) (i : Nat) (x : α) : Option (List α) :=
  if i ≤ xs.length then some (xs.take i ++ x :: xs.drop i) else none

/-- The value at a position and the list without it. -/
def remove? (xs : List α) (i : Nat) : Option (α × List α) :=
  xs[i]?.map fun x => (x, xs.eraseIdx i)

/-- The values from one position to another. -/
def slice? (xs : List α) (start stop : Nat) : Option (List α) :=
  if start ≤ stop ∧ stop ≤ xs.length then some ((xs.drop start).take (stop - start)) else none

end Access

/-- The call frames, the innermost first. -/
def frames : Exec (List Frame) := do
  return (← get).thread.frames

/-- The values on the stack, the bottom first. -/
def bottomUp : Exec (List Cell) := do
  return (← Exec.stack).reverse

/-- Replaces the stack, the bottom first. -/
def setBottomUp (cells : List Cell) : Exec Unit :=
  Exec.setStack cells.reverse

/-- The position where the arguments of the innermost frame start. -/
def floor : Checked Nat := do
  match ← frames with
  | frame :: _ => minus? frame.sp frame.args
  | [] => none

/-! ## Instructions -/

variable (site : Site)

/-- Puts the results of a frame where its arguments were. -/
def giveBack (frame : Frame) : Checked Unit := do
  let base ← minus? frame.sp frame.args
  let cells ← bottomUp
  if cells.length < base + frame.results then fail (.stackUnderflow "retsub")
  else
    let top ← minus? cells.length frame.results
    let (below, results) ← splitAt? cells top
    setBottomUp (below.take base ++ results)

/-- `retsub`. -/
def retsub : Checked Effect := do
  match ← frames with
  | frame :: rest =>
    Exec.setFrames rest
    if frame.declared then giveBack frame else pure ()
    return .goto frame.returnPc
  | [] => fail .retsubWithoutFrame

/-- `match`. -/
def matchCases (targets : List Nat) : Checked Effect := do
  let needle ← Exec.pop site.name
  let popped ← Exec.popMany site.name targets.length
  if needle.isUnknown || popped.any Cell.isUnknown then
    return .fork (site.pc + 1) targets
  else
    match popped.reverse.findIdx? fun c => c.value == needle.value with
    | some i =>
      let target ← targets[i]?
      return .goto target
    | none => return .goto (site.pc + 1)

/-- `frame_dig`. -/
def frameDig (offset : Int8) : Checked Unit := do
  let index ← Exec.frameIndex site offset
  let cells ← bottomUp
  if cells.length ≤ index then fail (.outOfRange site.name offset.toInt)
  else
    let low ← floor
    let c ← if low ≤ index then cells[index]? else none
    Exec.pushCell c

/-- `frame_bury`. -/
def frameBury (offset : Int8) : Checked Unit := do
  let c ← Exec.pop site.name
  let index ← Exec.frameIndex site offset
  let cells ← bottomUp
  if cells.length ≤ index then fail (.outOfRange site.name offset.toInt)
  else
    let low ← floor
    let cells ← if low ≤ index then set? cells index c else none
    setBottomUp cells

/-- The bytes from `start` to `stop`, where `stop` may depend on the length of the byte string. -/
def slice (start : Nat) (stop : Nat → Nat) : Checked Unit := do
  match ← Exec.popBytes site.name with
  | some b =>
    let stop := stop b.length
    if start > stop ∨ stop > b.length then fail (.outOfRange site.name stop)
    else
      let bytes ← slice? b start stop
      Exec.push site (.bytes bytes)
  | none => Exec.push site .unknown

/-- The position of the value `depth` below the top. -/
def indexBelow (depth : Nat) : Checked Nat := do
  let cells ← bottomUp
  if cells.length ≤ depth then fail (.stackUnderflow site.name)
  else
    let top ← minus? cells.length 1
    minus? top depth

/-- `dig`. -/
def dig (depth : Nat) : Checked Unit := do
  let index ← indexBelow site depth
  let cells ← bottomUp
  let c ← cells[index]?
  Exec.pushCell c

/-- `cover`. -/
def cover (depth : Nat) : Checked Unit := do
  let top ← Exec.pop site.name
  let cells ← bottomUp
  if depth > cells.length then fail (.stackUnderflow site.name)
  else
    let index ← minus? cells.length depth
    let cells ← insert? cells index top
    setBottomUp cells

/-- `uncover`. -/
def uncover (depth : Nat) : Checked Unit := do
  let index ← indexBelow site depth
  let cells ← bottomUp
  let (c, rest) ← remove? cells index
  setBottomUp (rest ++ [c])

/-- `bury`. -/
def bury (depth : Nat) : Checked Unit := do
  if depth = 0 then fail (.badImmediate site.name)
  else
    let top ← Exec.pop site.name
    let above ← minus? depth 1
    let index ← indexBelow site above
    let cells ← bottomUp
    let cells ← set? cells index top
    setBottomUp cells

/-- What an opcode does, given its operands as written. -/
def compute (immediates : List String) : Opcode → Checked Unit
  | .substring => do
    let start ← Exec.immediate site immediates 0
    let stop ← Exec.immediate site immediates 1
    slice site start fun _ => stop
  | .extract => do
    let start ← Exec.immediate site immediates 0
    let count ← Exec.immediate site immediates 1
    slice site start fun length => if count = 0 then length else start + count
  | .dig => do dig site (← Exec.immediate site immediates 0)
  | .cover => do cover site (← Exec.immediate site immediates 0)
  | .uncover => do uncover site (← Exec.immediate site immediates 0)
  | .bury => do bury site (← Exec.immediate site immediates 0)
  | op => Exec.compute site immediates op

/-- What a plain opcode does. -/
def plain (catalog : Catalog) (immediates : List String) : Checked Unit :=
  match Opcode.ofName? site.name with
  | some op => compute site immediates op
  | none => Exec.symbolic site catalog

/-- Goes on at the next line after an action. -/
def andNext (action : Checked Unit) : Checked Effect := do
  action
  return .goto (site.pc + 1)

/-- What a line does. -/
def line (l : Listing) (catalog : Catalog) : Op LabelId → Checked Effect
  | .matchCases targets => do matchCases site (← Exec.resolveAll l targets)
  | .retsub => retsub
  | .frameDig offset => andNext site (frameDig site offset)
  | .frameBury offset => andNext site (frameBury site offset)
  | .instr _ immediates => andNext site (plain site catalog immediates)
  | op => Exec.line site l catalog op

end Checked

/-- Executes one line of a listing with every access checked. -/
def Op.checked (l : Listing) (catalog : Catalog) (pc : Nat) (op : Op LabelId) : Checked Effect :=
  Checked.line (Site.ofLine l pc op) l catalog op

namespace Checked

/-! ## Agreement -/

/-- In a state every access of `x` is within its bounds, and `x` comes to what `y` comes to. -/
def Agrees {α : Type} (x : Checked α) (y : Exec α) (s : State) : Prop := x s = some (y.run s)

section Agrees
variable {α β : Type} {s : State}

theorem agrees_lift (y : Exec α) (s : State) : Agrees (liftM y) y s := rfl

theorem agrees_fail (fault : Fault) (s : State) :
    Agrees (fail fault : Checked α) (throw fault) s := rfl

theorem bind_ok {x : Checked α} {a : α} {t : State} (hx : x s = some (.ok a t))
    (f : α → Checked β) : (x >>= f) s = f a t := by
  change (match x s with
    | some (.ok a t) => f a t
    | some (.error e t) => some (.error e t)
    | none => none) = _
  rw [hx]

theorem bind_error {x : Checked α} {e : Fault} {t : State} (hx : x s = some (.error e t))
    {f : α → Checked β} : (x >>= f) s = some (.error e t) := by
  change (match x s with
    | some (.ok a t) => f a t
    | some (.error e t) => some (.error e t)
    | none => none) = _
  rw [hx]

theorem Agrees.bind {x : Checked α} {y : Exec α} {f : α → Checked β} {g : α → Exec β}
    (h : x.Agrees y s) (hf : ∀ a t, y.run s = .ok a t → (f a).Agrees (g a) t) :
    (x >>= f).Agrees (y >>= g) s := by
  unfold Agrees at h ⊢
  rw [EStateM.run_bind]
  cases hr : y.run s with
  | ok a t => exact (bind_ok (h.trans (congrArg some hr)) f).trans (hf a t hr)
  | error e t => exact bind_error (h.trans (congrArg some hr))

/-- An action that is known to succeed and leaves the state as it is. -/
theorem agrees_step {x : Checked α} {a : α} (hx : x s = some (.ok a s)) {f : α → Checked β}
    {y : Exec β} (h : (f a).Agrees y s) : (x >>= f).Agrees y s :=
  (bind_ok hx f).trans h

/-- An access within its bounds. -/
theorem agrees_access {a? : Option α} {a : α} (ha : a? = some a) {f : α → Checked β} {y : Exec β}
    (h : (f a).Agrees y s) : ((liftM a? : Checked α) >>= f).Agrees y s := by
  subst ha
  exact h

theorem run_stack_bind (g : List Cell → Exec β) (s : State) :
    (Exec.stack >>= g).run s = (g s.thread.stack).run s := rfl

theorem agrees_stack {f : List Cell → Checked β} {g : List Cell → Exec β}
    (h : (f s.thread.stack.reverse).Agrees (g s.thread.stack) s) :
    ((liftM bottomUp : Checked (List Cell)) >>= f).Agrees (Exec.stack >>= g) s := h

theorem agrees_setBottomUp {cells cells' : List Cell} (h : cells.reverse = cells') :
    Agrees (liftM (setBottomUp cells)) (Exec.setStack cells') s := by
  subst h
  rfl

end Agrees

theorem minus?_of_le {a b : Nat} (h : b ≤ a) : minus? a b = some (a - b) := if_pos h

/-! ## Stacks from the bottom -/

section Reversed
variable {α : Type} {xs : List α} {i : Nat}

theorem reverse_set (h : i < xs.length) (x : α) :
    (xs.reverse.set (xs.length - 1 - i) x).reverse = xs.set i x := by
  have hi : xs.length - 1 - i < xs.reverse.length := by
    rw [List.length_reverse]
    omega
  have hdrop : xs.length - (xs.length - 1 - i + 1) = i := by omega
  have htake : xs.length - (xs.length - 1 - i) = i + 1 := by omega
  rw [List.set_eq_take_append_cons_drop, if_pos hi, List.set_eq_take_append_cons_drop, if_pos h,
    List.take_reverse, List.drop_reverse, hdrop, htake]
  simp

theorem reverse_eraseIdx (h : i < xs.length) :
    (xs.reverse.eraseIdx (xs.length - 1 - i)).reverse = xs.eraseIdx i := by
  have hdrop : xs.length - (xs.length - 1 - i + 1) = i := by omega
  have htake : xs.length - (xs.length - 1 - i) = i + 1 := by omega
  rw [List.eraseIdx_eq_take_drop_succ, List.eraseIdx_eq_take_drop_succ, List.take_reverse,
    List.drop_reverse, hdrop, htake]
  simp

theorem getElem?_reverse_below (h : i < xs.length) :
    xs.reverse[xs.length - 1 - i]? = some xs[i] := by
  have hi : xs.length - 1 - (xs.length - 1 - i) = i := by omega
  rw [List.getElem?_reverse (by omega), hi, List.getElem?_eq_getElem h]

end Reversed

/-! ## Instructions on the stack -/

section Stack
variable {β : Type} {s : State} {depth : Nat}

theorem indexBelow_eq (site : Site) (depth : Nat) (s : State) :
    indexBelow site depth s =
      if s.thread.stack.length ≤ depth then some (.error (.stackUnderflow site.name) s)
      else some (.ok (s.thread.stack.length - 1 - depth) s) := by
  have hread : indexBelow site depth s =
      (if s.thread.stack.reverse.length ≤ depth then fail (.stackUnderflow site.name)
        else do
          let top ← minus? s.thread.stack.reverse.length 1
          minus? top depth : Checked Nat) s := rfl
  rw [hread, List.length_reverse]
  split
  · rfl
  · have hdepth : depth ≤ s.thread.stack.length - 1 := by omega
    rw [minus?_of_le (by omega), bind_ok rfl, minus?_of_le hdepth]
    rfl

/-- An instruction on the value `depth` below the top: it fails where there is no such value. -/
theorem agrees_indexBelow {site : Site} {f : Nat → Checked β} {y : Exec β}
    (hlt : depth < s.thread.stack.length → (f (s.thread.stack.length - 1 - depth)).Agrees y s)
    (hle : s.thread.stack.length ≤ depth → y.run s = .error (.stackUnderflow site.name) s) :
    (indexBelow site depth >>= f).Agrees y s := by
  have hindex := indexBelow_eq site depth s
  by_cases h : s.thread.stack.length ≤ depth
  · rw [if_pos h] at hindex
    unfold Agrees
    rw [bind_error hindex, hle h]
  · rw [if_neg h] at hindex
    exact agrees_step hindex (hlt (Nat.lt_of_not_le h))

theorem dig_agrees (site : Site) (depth : Nat) (s : State) :
    (dig site depth).Agrees (Exec.dig site depth) s := by
  refine agrees_indexBelow (fun h => ?_) fun h => ?_
  · unfold Agrees
    rw [Exec.dig, run_stack_bind, List.getElem?_eq_getElem h]
    exact agrees_step rfl (agrees_access (getElem?_reverse_below h) (agrees_lift _ s))
  · rw [Exec.dig, run_stack_bind, List.getElem?_eq_none h]
    rfl

theorem uncover_agrees (site : Site) (depth : Nat) (s : State) :
    (uncover site depth).Agrees (Exec.uncover site depth) s := by
  refine agrees_indexBelow (fun h => ?_) fun h => ?_
  · have hremove : remove? s.thread.stack.reverse (s.thread.stack.length - 1 - depth) =
        some (s.thread.stack[depth],
          s.thread.stack.reverse.eraseIdx (s.thread.stack.length - 1 - depth)) := by
      rw [remove?, getElem?_reverse_below h]
      rfl
    unfold Agrees
    rw [Exec.uncover, run_stack_bind, List.getElem?_eq_getElem h]
    refine agrees_step rfl (agrees_access hremove (agrees_setBottomUp ?_))
    rw [List.reverse_append, reverse_eraseIdx h]
    rfl
  · rw [Exec.uncover, run_stack_bind, List.getElem?_eq_none h]
    rfl

theorem cover_agrees (site : Site) (depth : Nat) (s : State) :
    (cover site depth).Agrees (Exec.cover site depth) s := by
  refine (agrees_lift _ s).bind fun top t _ => agrees_stack ?_
  by_cases h : depth > t.thread.stack.length
  · rw [if_pos h, if_pos (by rwa [List.length_reverse])]
    exact agrees_fail _ t
  · have hle : depth ≤ t.thread.stack.length := Nat.le_of_not_lt h
    have hback : t.thread.stack.length - (t.thread.stack.length - depth) = depth := by omega
    rw [if_neg h, if_neg (by rwa [List.length_reverse]), List.length_reverse]
    refine agrees_access (minus?_of_le hle) ?_
    have hinsert : insert? t.thread.stack.reverse (t.thread.stack.length - depth) top =
        some ((t.thread.stack.drop depth).reverse ++
          top :: (t.thread.stack.take depth).reverse) := by
      rw [insert?, if_pos (by rw [List.length_reverse]; omega), List.take_reverse,
        List.drop_reverse, hback]
    refine agrees_access hinsert (agrees_setBottomUp ?_)
    simp

theorem bury_agrees (site : Site) (depth : Nat) (s : State) :
    (bury site depth).Agrees (Exec.bury site depth) s := by
  unfold bury Exec.bury
  by_cases hzero : depth = 0
  · rw [if_pos hzero, if_pos hzero]
    exact agrees_fail _ s
  · rw [if_neg hzero, if_neg hzero]
    refine (agrees_lift _ s).bind fun top t _ => ?_
    refine agrees_access (minus?_of_le (Nat.pos_of_ne_zero hzero)) ?_
    refine agrees_indexBelow (fun h => ?_) fun h => ?_
    · have hset : set? t.thread.stack.reverse (t.thread.stack.length - 1 - (depth - 1)) top =
          some (t.thread.stack.reverse.set (t.thread.stack.length - 1 - (depth - 1)) top) :=
        if_pos (by rw [List.length_reverse]; omega)
      unfold Agrees
      rw [run_stack_bind, if_pos h]
      exact agrees_step rfl (agrees_access hset (agrees_setBottomUp (reverse_set h top)))
    · rw [run_stack_bind, if_neg (Nat.not_lt.2 h)]
      rfl

theorem slice_agrees (site : Site) (start : Nat) (stop : Nat → Nat) (s : State) :
    (slice site start stop).Agrees (Exec.slice site start stop) s := by
  refine (agrees_lift _ s).bind fun bytes t _ => ?_
  cases bytes with
  | none => exact agrees_lift _ t
  | some b =>
    dsimp only
    split
    · exact agrees_fail _ t
    · rename_i h
      rw [not_or, Nat.not_lt, Nat.not_lt] at h
      exact agrees_access (if_pos h) (agrees_lift _ t)

end Stack

theorem compute_agrees (site : Site) (immediates : List String) (op : Opcode) (s : State) :
    (compute site immediates op).Agrees (Exec.compute site immediates op) s := by
  cases op with
  | substring | extract =>
    refine (agrees_lift _ s).bind fun start t _ => (agrees_lift _ t).bind fun second u _ => ?_
    exact slice_agrees site start _ u
  | dig => exact (agrees_lift _ s).bind fun depth t _ => dig_agrees site depth t
  | cover => exact (agrees_lift _ s).bind fun depth t _ => cover_agrees site depth t
  | uncover => exact (agrees_lift _ s).bind fun depth t _ => uncover_agrees site depth t
  | bury => exact (agrees_lift _ s).bind fun depth t _ => bury_agrees site depth t
  | _ => exact agrees_lift _ s

theorem plain_agrees (site : Site) (catalog : Catalog) (immediates : List String) (s : State) :
    (plain site catalog immediates).Agrees (Exec.plain site catalog immediates) s := by
  unfold plain Exec.plain
  cases Opcode.ofName? site.name with
  | some op => exact compute_agrees site immediates op s
  | none => exact agrees_lift _ s

/-! ## Targets of `match` -/

theorem ensures_popMany (name : String) (n : Nat) :
    (Exec.popMany name n).Ensures fun cells => cells.length = n := by
  induction n with
  | zero => exact Exec.ensures_pure rfl
  | succ n ih =>
    refine Exec.ensures_seq _ fun c => Exec.ensures_bind ih fun cells hcells => ?_
    exact Exec.ensures_pure (congrArg (· + 1) hcells)

/-- The first hit in one of two lists of the same length is at a place of the other. -/
theorem find?_zip_eq {α β : Type} (p : α → Bool) {xs : List α} {ys : List β}
    (h : xs.length = ys.length) :
    ((xs.zip ys).find? fun (x, _) => p x).map Prod.snd = (xs.findIdx? p).bind (ys[·]?) := by
  induction xs generalizing ys with
  | nil => rfl
  | cons x xs ih =>
    cases ys with
    | nil => cases h
    | cons y ys =>
      cases hp : p x with
      | true => simp [List.findIdx?_cons, hp]
      | false =>
        simp only [List.zip_cons_cons, List.find?_cons, hp, ih (Nat.succ.inj h),
          List.findIdx?_cons, Bool.false_eq_true, if_false, Option.bind_map, Function.comp_def,
          List.getElem?_cons_succ]

theorem matchCases_agrees (site : Site) (targets : List Nat) (s : State) :
    (matchCases site targets).Agrees (Exec.matchCases site targets) s := by
  refine (agrees_lift _ s).bind fun needle t _ => (agrees_lift _ t).bind fun popped u hpopped => ?_
  have hlen : popped.reverse.length = targets.length := by
    rw [List.length_reverse]
    exact ensures_popMany site.name targets.length t popped u hpopped
  split
  · exact agrees_lift _ u
  · dsimp only
    rw [find?_zip_eq (fun c => c.value == needle.value) hlen]
    cases hi : popped.reverse.findIdx? fun c => c.value == needle.value with
    | none => exact agrees_lift _ u
    | some i =>
      have hlt : i < targets.length := hlen ▸ (List.findIdx?_eq_some_iff_getElem.1 hi).1
      have hget : targets[i]? = some targets[i] := List.getElem?_eq_getElem hlt
      rw [Option.bind_some, hget]
      exact agrees_access hget (agrees_lift _ u)

end Checked

/-- No call that has not returned takes more arguments than there were values at the call. -/
def Thread.Supplied (t : Thread) : Prop := ∀ f ∈ t.frames, f.args ≤ f.sp

namespace Checked

/-! ## Instructions on call frames -/

section Frames
variable {site : Site} {s t : State} {offset : Int8} {index : Nat}

/-- An offset that is not refused means a place at or above the arguments of the frame. -/
theorem frameIndex_ok (h : (Exec.frameIndex site offset).run s = .ok index t) :
    t = s ∧ ∃ frame rest, s.thread.frames = frame :: rest ∧ frame.sp - frame.args ≤ index := by
  obtain ⟨⟨cells, frames, afterCall⟩, scratch⟩ := s
  rcases frames with _ | ⟨⟨returnPc, sp, args, results, declared⟩, rest⟩
  · cases h
  · cases declared with
    | false => cases h
    | true =>
      have hrun : (Exec.frameIndex site offset).run
          ⟨⟨cells, ⟨returnPc, sp, args, results, true⟩ :: rest, afterCall⟩, scratch⟩ =
          (if (sp : Int) + offset.toInt < 0 ∨ (offset.toInt < 0 ∧ -offset.toInt > args) then
            throw (.outOfRange site.name offset.toInt)
          else return ((sp : Int) + offset.toInt).toNat : Exec Nat).run
            ⟨⟨cells, ⟨returnPc, sp, args, results, true⟩ :: rest, afterCall⟩, scratch⟩ := rfl
      rw [hrun] at h
      split at h
      · cases h
      · rename_i hbounds
        cases h
        refine ⟨rfl, _, rest, rfl, ?_⟩
        dsimp only
        omega

theorem floor_eq {frame : Frame} {rest : List Frame} (hframes : s.thread.frames = frame :: rest)
    (hargs : frame.args ≤ frame.sp) : floor s = some (.ok (frame.sp - frame.args) s) := by
  obtain ⟨⟨cells, frames, afterCall⟩, scratch⟩ := s
  cases hframes
  change (minus? frame.sp frame.args).map (EStateM.Result.ok · _) = _
  rw [minus?_of_le hargs]
  rfl

theorem frameDig_agrees (site : Site) (offset : Int8) (hs : s.thread.Supplied) :
    (frameDig site offset).Agrees (Exec.frameDig site offset) s := by
  refine (agrees_lift _ s).bind fun index t hindex => ?_
  obtain ⟨rfl, frame, rest, hframes, hlow⟩ := frameIndex_ok hindex
  have hargs := hs frame (hframes ▸ List.mem_cons_self)
  refine agrees_stack ?_
  by_cases h : index < t.thread.stack.length
  · have hlen : index < t.thread.stack.reverse.length := by rwa [List.length_reverse]
    rw [if_neg (Nat.not_le.2 hlen), dif_pos h]
    refine agrees_step (floor_eq hframes hargs) ?_
    rw [if_pos hlow]
    exact agrees_access (List.getElem?_eq_getElem hlen) (agrees_lift _ t)
  · rw [if_pos (by rw [List.length_reverse]; exact Nat.le_of_not_lt h), dif_neg h]
    exact agrees_fail _ t

theorem frameBury_agrees (site : Site) (offset : Int8) (hs : s.thread.Supplied) :
    (frameBury site offset).Agrees (Exec.frameBury site offset) s := by
  refine (agrees_lift _ s).bind fun c t hpop => (agrees_lift _ t).bind fun index u hindex => ?_
  obtain ⟨rfl, frame, rest, hframes, hlow⟩ := frameIndex_ok hindex
  have hkept : u.thread.frames = s.thread.frames := by
    have hpop' := (Exec.stackOnly_pop site.name).keepsFrames s
    rwa [Exec.stateAfter, hpop] at hpop'
  have hargs := hs frame (hkept ▸ hframes ▸ List.mem_cons_self)
  refine agrees_stack ?_
  by_cases h : index < u.thread.stack.length
  · have hlen : index < u.thread.stack.reverse.length := by rwa [List.length_reverse]
    rw [if_neg (Nat.not_le.2 hlen), if_pos h]
    refine agrees_step (floor_eq hframes hargs) ?_
    rw [if_pos hlow]
    exact agrees_access (if_pos hlen) (agrees_setBottomUp rfl)
  · rw [if_pos (by rw [List.length_reverse]; exact Nat.le_of_not_lt h), if_neg h]
    exact agrees_fail _ u

theorem giveBack_of_lt {frame : Frame} (hargs : frame.args ≤ frame.sp)
    (h : s.thread.stack.length < frame.sp - frame.args + frame.results) :
    giveBack frame s = some (.error (.stackUnderflow "retsub") s) := by
  unfold giveBack
  rw [minus?_of_le hargs, bind_ok rfl, bind_ok rfl, if_pos (by rwa [List.length_reverse])]
  rfl

theorem giveBack_of_le {frame : Frame} (hargs : frame.args ≤ frame.sp)
    (h : frame.sp - frame.args + frame.results ≤ s.thread.stack.length) :
    giveBack frame s = some (.ok () (s.withStack (s.thread.stack.take frame.results ++
      s.thread.stack.drop (s.thread.stack.length - (frame.sp - frame.args))))) := by
  have hresults : frame.results ≤ s.thread.stack.length := by omega
  have htop : s.thread.stack.length - frame.results ≤ s.thread.stack.reverse.length := by
    rw [List.length_reverse]
    omega
  have hback : s.thread.stack.length - (s.thread.stack.length - frame.results) = frame.results := by
    omega
  unfold giveBack
  rw [minus?_of_le hargs, bind_ok rfl, bind_ok rfl,
    if_neg (by rwa [List.length_reverse, Nat.not_lt]), List.length_reverse, minus?_of_le hresults,
    bind_ok rfl, splitAt?, if_pos htop, bind_ok rfl]
  change some (EStateM.Result.ok () (s.withStack _)) = _
  rw [List.reverse_append, List.drop_reverse, List.reverse_reverse, hback, List.take_take,
    Nat.min_eq_left (by omega), List.take_reverse, List.reverse_reverse]

theorem retsub_agrees (hs : s.thread.Supplied) : retsub.Agrees Exec.retsub s := by
  obtain ⟨⟨cells, frames, afterCall⟩, scratch⟩ := s
  rcases frames with _ | ⟨⟨returnPc, sp, args, results, declared⟩, rest⟩
  · rfl
  · cases declared with
    | false => rfl
    | true =>
      have hargs : args ≤ sp := hs _ List.mem_cons_self
      -- Both sides drop the frame first; then the results are moved.
      have hrun : Exec.retsub.run
          ⟨⟨cells, ⟨returnPc, sp, args, results, true⟩ :: rest, afterCall⟩, scratch⟩ =
          (do
            if cells.length < sp - args + results then throw (.stackUnderflow "retsub")
            else Exec.setStack (cells.take results ++ cells.drop (cells.length - (sp - args)))
            return .goto returnPc : Exec Effect).run ⟨⟨cells, rest, afterCall⟩, scratch⟩ := rfl
      unfold Agrees
      rw [hrun]
      split
      · rename_i h
        exact bind_error (@giveBack_of_lt ⟨⟨cells, rest, afterCall⟩, scratch⟩
          ⟨returnPc, sp, args, results, true⟩ hargs h)
      · rename_i h
        exact bind_ok (@giveBack_of_le ⟨⟨cells, rest, afterCall⟩, scratch⟩
          ⟨returnPc, sp, args, results, true⟩ hargs (Nat.le_of_not_lt h)) _

theorem andNext_agrees {x : Checked Unit} {y : Exec Unit} (h : x.Agrees y s) :
    (andNext site x).Agrees (Exec.andNext site y) s :=
  h.bind fun _ t _ => agrees_lift _ t

end Frames

end Checked

/-- Where every call was supplied with its arguments, all accesses of an instruction are within
their bounds, and checking them changes nothing. -/
theorem Op.checked_agrees (l : Listing) (catalog : Catalog) (pc : Nat) (op : Op LabelId) {s : State}
    (hs : s.thread.Supplied) : (op.checked l catalog pc).Agrees (op.exec l catalog pc) s := by
  unfold Op.checked Op.exec
  cases op with
  | matchCases targets =>
    exact (Checked.agrees_lift _ s).bind fun is t _ => Checked.matchCases_agrees _ is t
  | retsub => exact Checked.retsub_agrees hs
  | frameDig offset => exact Checked.andNext_agrees (Checked.frameDig_agrees _ offset hs)
  | frameBury offset => exact Checked.andNext_agrees (Checked.frameBury_agrees _ offset hs)
  | instr name immediates =>
    exact Checked.andNext_agrees (Checked.plain_agrees _ catalog immediates s)
  | _ => exact Checked.agrees_lift _ s

/-- Without its arguments a call cannot return within bounds. -/
example (catalog : Catalog) :
    let frame : Frame := { returnPc := 0, sp := 0, args := 1, declared := true }
    (Op.retsub : Op LabelId).checked {} catalog 0 { thread := { frames := [frame] } } = none :=
  rfl

end Teal
