import Teal.Catalog.Standard
import Teal.Proofs.Machine.Reachable
/-!
# Traces are paths of the listing

The trace of a branch are the lines that it has executed, the last one first. Every line of it is
one that control comes to from the line before: by falling through, by a jump, or by a return to
the call that has not returned yet. Which call that is can be read off the trace, since calls and
returns match like brackets: `Listing.openCalls` are the calls that are still open after the lines
of a trace, and `openCalls_eq_cons_iff` says that these are the calls after which all that was
called has returned.

The call frames of a running branch are those of the open calls of its trace: `Branch.Recorded`.
-/

namespace Teal

/-! ## Calls and returns as brackets -/

namespace Listing

/-- Whether a line is a call. -/
def callsAt (l : Listing) (line : Nat) : Bool :=
  l.ops[line]?.any Op.isCall

/-- Whether a line is a return. -/
def returnsAt (l : Listing) (line : Nat) : Bool :=
  l.ops[line]? = some .retsub

/-- The calls among executed lines that have not returned, the last one first. -/
def openCalls (l : Listing) : List Nat → List Nat
  | [] => []
  | line :: earlier =>
    if l.callsAt line then line :: l.openCalls earlier
    else if l.returnsAt line then (l.openCalls earlier).tail
    else l.openCalls earlier

/-- Executed lines, the last one first, in which every call has returned and every return is from
one of the calls. -/
inductive Balanced (l : Listing) : List Nat → Prop
  | nil : Balanced l []
  | plain {line earlier} : l.callsAt line = false → l.returnsAt line = false →
      Balanced l earlier → Balanced l (line :: earlier)
  | returned {back inner call earlier} : l.returnsAt back = true → l.callsAt call = true →
      Balanced l inner → Balanced l earlier → Balanced l (back :: (inner ++ call :: earlier))

variable {l : Listing} {line call : Nat} {earlier trace calls : List Nat}

theorem callsAt_of_returnsAt (h : l.returnsAt line = true) : l.callsAt line = false := by
  rw [callsAt, of_decide_eq_true h]
  rfl

theorem openCalls_of_callsAt (h : l.callsAt line = true) :
    l.openCalls (line :: earlier) = line :: l.openCalls earlier := by
  rw [openCalls, if_pos h]

theorem openCalls_of_returnsAt (h : l.returnsAt line = true) :
    l.openCalls (line :: earlier) = (l.openCalls earlier).tail := by
  rw [openCalls, callsAt_of_returnsAt h, if_neg Bool.false_ne_true, if_pos h]

theorem openCalls_of_plain (hcall : l.callsAt line = false) (hreturn : l.returnsAt line = false) :
    l.openCalls (line :: earlier) = l.openCalls earlier := by
  rw [openCalls, hcall, hreturn, if_neg Bool.false_ne_true, if_neg Bool.false_ne_true]

theorem Balanced.openCalls_append {inner : List Nat} (h : l.Balanced inner) (earlier : List Nat) :
    l.openCalls (inner ++ earlier) = l.openCalls earlier := by
  induction h generalizing earlier with
  | nil => rfl
  | plain hcall hreturn _ ih => rw [List.cons_append, openCalls_of_plain hcall hreturn, ih]
  | returned hreturn hcall _ _ ihinner ih =>
    rw [List.cons_append, List.append_assoc, List.cons_append, openCalls_of_returnsAt hreturn,
      ihinner, openCalls_of_callsAt hcall, List.tail_cons, ih]

/-- The innermost open call: all that was called after it has returned. -/
theorem exists_of_openCalls (h : l.openCalls trace = call :: calls) :
    ∃ inner earlier, trace = inner ++ call :: earlier ∧ l.callsAt call = true ∧
      l.Balanced inner ∧ l.openCalls earlier = calls := by
  -- A return takes the call before the open one along, so the lines before that are needed too.
  induction hn : trace.length using Nat.strongRecOn generalizing trace call calls with
  | ind n ih =>
    cases trace with
    | nil => cases h
    | cons line earlier =>
      have hlt : earlier.length < n := by simp [← hn]
      by_cases hcall : l.callsAt line = true
      · rw [openCalls_of_callsAt hcall] at h
        cases h
        exact ⟨[], earlier, rfl, hcall, .nil, rfl⟩
      · rw [Bool.not_eq_true] at hcall
        by_cases hreturn : l.returnsAt line = true
        · rw [openCalls_of_returnsAt hreturn] at h
          cases hopen : l.openCalls earlier with
          | nil =>
            rw [hopen] at h
            cases h
          | cons closed rest =>
            rw [hopen, List.tail_cons] at h
            obtain ⟨inner, before, rfl, hclosed, hinner, hbefore⟩ := ih _ hlt hopen rfl
            have hlt' : before.length < n := by
              simp only [List.length_append, List.length_cons] at hlt
              omega
            obtain ⟨inner', before', rfl, hcall', hinner', hrest⟩ := ih _ hlt' (hbefore.trans h) rfl
            refine ⟨line :: (inner ++ closed :: inner'), before', by simp, hcall', ?_, hrest⟩
            exact .returned hreturn hclosed hinner hinner'
        · rw [Bool.not_eq_true] at hreturn
          rw [openCalls_of_plain hcall hreturn] at h
          obtain ⟨inner, before, rfl, hcall', hinner, hrest⟩ := ih _ hlt h rfl
          exact ⟨line :: inner, before, rfl, hcall', .plain hcall hreturn hinner, hrest⟩

theorem openCalls_eq_cons_iff : l.openCalls trace = call :: calls ↔
    ∃ inner earlier, trace = inner ++ call :: earlier ∧ l.callsAt call = true ∧
      l.Balanced inner ∧ l.openCalls earlier = calls := by
  refine ⟨exists_of_openCalls, ?_⟩
  rintro ⟨inner, earlier, rfl, hcall, hinner, rfl⟩
  rw [hinner.openCalls_append, openCalls_of_callsAt hcall]

end Listing

/-! ## Where control goes -/

/-- An executed line sends control to `pc`; the lines executed before it are `earlier`, the last one
first. A return goes behind the call that it matches. -/
def Op.GoesTo (l : Listing) (earlier : List Nat) (line pc : Nat) : Op LabelId → Prop
  | .err | .ret => False
  | .branch .always target | .callsub target => l.target? target = some pc
  | .branch .ifZero target | .branch .ifNonZero target =>
    pc = line + 1 ∨ l.target? target = some pc
  | .switch targets | .matchCases targets =>
    pc = line + 1 ∨ ∃ id ∈ targets, l.target? id = some pc
  | .retsub => ∃ inner call before, earlier = inner ++ call :: before ∧ l.callsAt call = true ∧
      l.Balanced inner ∧ pc = call + 1
  | _ => pc = line + 1

namespace Listing

/-- Control is at `pc` after the lines of a trace. -/
def Arrives (l : Listing) : List Nat → Nat → Prop
  | [], pc => pc = 0
  | line :: earlier, pc => ∃ op, l.ops[line]? = some op ∧ op.GoesTo l earlier line pc

/-- Each line of a trace is the one that control comes to after the lines before. -/
def Path (l : Listing) : List Nat → Prop
  | [] => True
  | line :: earlier =>
    (∃ pc, l.Arrives earlier pc ∧ l.nextExecutable pc = some line) ∧ l.Path earlier

theorem Path.of_append {l : Listing} {later trace : List Nat} (h : l.Path (later ++ trace)) :
    l.Path trace := by
  induction later with
  | nil => exact h
  | cons line later ih => exact ih h.2

end Listing

section Control
variable {l : Listing} {op : Op LabelId} {line pc : Nat} {earlier : List Nat}

/-- An instruction that leaves the call frames alone goes on by itself. -/
theorem Op.Reaches.goesTo (h : op.Reaches l line pc) (hop : op.changesFrames = false) :
    op.GoesTo l earlier line pc := by
  cases op with
  | callsub | proto | retsub => cases hop
  | branch kind target =>
    rcases h with ⟨hflow, hpc⟩ | ⟨id, hid, htarget⟩
    · cases kind with
      | always => cases hflow
      | ifZero | ifNonZero => exact .inl hpc
    · cases List.mem_singleton.1 hid
      cases kind with
      | always => exact htarget
      | ifZero | ifNonZero => exact .inr htarget
  | switch targets | matchCases targets =>
    rcases h with ⟨-, hpc⟩ | htarget
    · exact .inl hpc
    · exact .inr htarget
  | err | ret =>
    rcases h with ⟨hflow, -⟩ | ⟨id, hid, -⟩
    · cases hflow
    · cases hid
  | _ =>
    rcases h with ⟨-, hpc⟩ | ⟨id, hid, -⟩
    · exact hpc
    · cases hid

/-- A line that is neither a call nor a return opens no call and closes none. -/
theorem Listing.openCalls_of_other (hline : l.ops[line]? = some op)
    (hcall : op.isCall = false) (hreturn : op ≠ .retsub) :
    l.openCalls (line :: earlier) = l.openCalls earlier := by
  refine openCalls_of_plain ?_ ?_
  · rw [callsAt, hline]
    exact hcall
  · rw [returnsAt, hline]
    exact decide_eq_false fun h => hreturn (Option.some.inj h)

/-- Where an instruction sends control, and the calls that are open after it. -/
theorem Op.Outcome.goesTo {s t : State} {e : Effect} (h : op.Outcome l line s (.ok e t))
    (hline : l.ops[line]? = some op)
    (hcalls : s.thread.frames.map Frame.returnPc = (l.openCalls earlier).map (· + 1)) :
    (∀ i ∈ e.lines, op.GoesTo l earlier line i) ∧
      t.thread.frames.map Frame.returnPc = (l.openCalls (line :: earlier)).map (· + 1) := by
  -- A return takes the innermost frame, which is that of the innermost open call.
  have hback {frame : Frame} {rest : List Frame} (hop : l.ops[line]? = some .retsub)
      (hframes : s.thread.frames = frame :: rest) :
      (∀ i ∈ (Effect.goto frame.returnPc).lines, Op.GoesTo l earlier line i .retsub) ∧
        rest.map Frame.returnPc = (l.openCalls (line :: earlier)).map (· + 1) := by
    have hreturn : l.returnsAt line = true := decide_eq_true hop
    rw [hframes, List.map_cons] at hcalls
    cases hopen : l.openCalls earlier with
    | nil =>
      rw [hopen] at hcalls
      cases hcalls
    | cons call calls =>
      rw [hopen, List.map_cons] at hcalls
      obtain ⟨hpc, hrest⟩ := List.cons.inj hcalls
      obtain ⟨inner, before, hsplit, hcall, hinner, -⟩ := Listing.openCalls_eq_cons_iff.1 hopen
      refine ⟨fun i hi => ?_, ?_⟩
      · cases List.mem_singleton.1 hi
        exact ⟨inner, call, before, hsplit, hcall, hinner, hpc⟩
      · rw [Listing.openCalls_of_returnsAt hreturn, hopen]
        exact hrest
  cases h with
  | calls htarget =>
    refine ⟨fun i hi => ?_, ?_⟩
    · cases List.mem_singleton.1 hi
      exact htarget
    · have hcall : l.callsAt line = true := by
        rw [Listing.callsAt, hline]
        rfl
      rw [Listing.openCalls_of_callsAt hcall, List.map_cons, ← hcalls]
      rfl
  | declares hframes =>
    refine ⟨fun i hi => ?_, ?_⟩
    · cases List.mem_singleton.1 hi
      rfl
    · rw [Listing.openCalls_of_other hline rfl nofun, ← hcalls, hframes]
      rfl
  | returns hframes => exact hback hline hframes
  | yields hframes => exact hback hline hframes
  | works hop hframes hcontinues =>
    refine ⟨fun i hi => ?_, ?_⟩
    · rcases hcontinues with ⟨-, verdict, rfl⟩ | ⟨-, hreaches⟩
      · cases hi
      · exact (hreaches i hi).goesTo hop
    · have hreturn : op ≠ .retsub := by
        rintro rfl
        cases hop
      rw [Listing.openCalls_of_other hline (Op.isCall_of_changesFrames hop) hreturn,
        hframes, hcalls]

end Control

/-! ## Branches -/

/-- A branch whose trace is a path of the listing. As long as it runs it stands where the path leads
to, and its call frames are those of the open calls. -/
structure Branch.Recorded (l : Listing) (b : Branch) : Prop where
  path : l.Path b.trace
  arrives : b.halt = none → l.Arrives b.trace b.pc
  calls : b.halt = none →
    b.thread.frames.map Frame.returnPc = (l.openCalls b.trace).map (· + 1)

theorem Branch.Recorded.turn {l : Listing} {catalog : Catalog} {scratch : Scratch} {b : Branch}
    {t : Turn} (hb : b.Recorded l) (hrunning : b.halt = none)
    (h : b.TurnCases l catalog true scratch t) :
    (t.branch.settle t.halt).Recorded l ∧
      ∀ id, ∀ pc ∈ t.others, (t.branch.child id pc).Recorded l := by
  have hpath {pc : Nat} {op : Op LabelId} (hfetch : l.fetch? b.pc = some (pc, op)) :
      l.Path (pc :: b.trace) :=
    ⟨⟨b.pc, hb.arrives hrunning, Listing.nextExecutable_of_fetch? hfetch⟩, hb.path⟩
  cases h with
  | spent | left => exact ⟨⟨hb.path, nofun, nofun⟩, fun _ _ h => absurd h List.not_mem_nil⟩
  | fails hfetch | ends hfetch =>
    exact ⟨⟨hpath hfetch, nofun, nofun⟩, fun _ _ h => absurd h List.not_mem_nil⟩
  | goes hfetch hout hlines =>
    have hop := Listing.getElem?_of_fetch? hfetch
    obtain ⟨hgoes, hcalls⟩ := hout.goesTo hop (hb.calls hrunning)
    rw [hlines] at hgoes
    refine ⟨⟨hpath hfetch, fun _ => ?_, fun _ => hcalls⟩, fun id pc hpc => ?_⟩
    · exact ⟨_, hop, hgoes _ List.mem_cons_self⟩
    · have harrives := hgoes pc (List.mem_cons_of_mem _ hpc)
      exact ⟨hpath hfetch, fun _ => ⟨_, hop, harrives⟩, fun _ => hcalls⟩

namespace Machine

variable {l : Listing} {catalog : Catalog} {config : Config} {m : Machine}

theorem Reachable.recorded (h : Reachable l catalog config m) (htrace : config.trace = true) :
    ∀ b ∈ m.live ++ m.retired, b.Recorded l := by
  refine h.branches ⟨trivial, fun _ => rfl, fun _ => rfl⟩ ?_ ?_
  · intro b scratch hrunning hb t
    have hturn := b.turn_cases l catalog config.trace scratch
    rw [htrace] at hturn
    have ht : t = b.turn l catalog true scratch := by rw [← htrace]
    rw [ht]
    exact hb.turn hrunning hturn
  · intro b id hrunning hb
    exact ⟨hb.path, fun _ => hb.arrives hrunning, fun _ => hb.calls hrunning⟩

/-- The trace of every branch of a reachable machine is a path of the listing. It starts with the
first executable line, and each line of it is the one that control comes to from the line before; a
return goes behind the call that matches it. The call frames of a live branch are those of the calls
of its trace that have not returned. The machines that commands lead to are reachable. -/
theorem traces_bracketed (l : Listing) (catalog : Catalog) (config : Config)
    (htrace : config.trace = true) :
    (∀ commands, Reachable l catalog config ((start l catalog config).performAll commands)) ∧
    ∀ m, Reachable l catalog config m →
      (∀ b ∈ m.live ++ m.retired,
        (∀ first, b.trace.getLast? = some first → l.nextExecutable 0 = some first) ∧
        ∀ later next line earlier, b.trace = later ++ next :: line :: earlier →
          ∃ op pc, l.ops[line]? = some op ∧ op.GoesTo l earlier line pc ∧
            l.nextExecutable pc = some next) ∧
      ∀ b ∈ m.live, b.depth = (l.openCalls b.trace).length ∧
        b.thread.frames.map Frame.returnPc = (l.openCalls b.trace).map (· + 1) := by
  refine ⟨reachable_performAll l catalog config, fun m h => ⟨fun b hb => ?_, fun b hb => ?_⟩⟩
  · have hpath := (h.recorded htrace b hb).path
    refine ⟨fun first hfirst => ?_, fun later next line earlier hsplit => ?_⟩
    · obtain ⟨later, hsplit⟩ := List.getLast?_eq_some_iff.1 hfirst
      rw [hsplit] at hpath
      obtain ⟨⟨pc, rfl, hnext⟩, -⟩ := hpath.of_append
      exact hnext
    · rw [hsplit] at hpath
      obtain ⟨⟨pc, ⟨op, hop, hgoes⟩, hnext⟩, -⟩ := hpath.of_append
      exact ⟨op, pc, hop, hgoes, hnext⟩
  · have hcalls := (h.recorded htrace b (List.mem_append_left _ hb)).calls (h.runs.live b hb)
    refine ⟨?_, hcalls⟩
    have hlength := congrArg List.length hcalls
    rwa [List.length_map, List.length_map] at hlength

/-- A subroutine that calls another one. -/
def nestedCalls : Listing :=
  { ops := [.callsub 0, .int .pseudo 1, .ret, .label 0, .callsub 1, .retsub, .label 1, .retsub]
    labels := .ofList ["outer", "inner"] }

/-- Both calls are open in the inner subroutine. The second return is from the first call. -/
theorem traces_bracketed_nested :
    let inside := (start nestedCalls .standard {}).performAll [.step, .step]
    let behind := (start nestedCalls .standard {}).performAll [.step, .step, .step, .step, .step]
    (∃ b ∈ inside.live, b.trace = [4, 0] ∧ b.depth = 2 ∧
      b.thread.frames.map Frame.returnPc = [5, 1]) ∧
    ∃ b ∈ behind.live, b.trace = [1, 5, 7, 4, 0] ∧
      ∃ pc, Op.GoesTo nestedCalls [7, 4, 0] 5 pc .retsub ∧
        nestedCalls.nextExecutable pc = some 1 := by
  intro inside behind
  obtain ⟨hreachable, htraces⟩ := traces_bracketed nestedCalls .standard {} rfl
  constructor
  · let b := inside.live.get ⟨0, by decide +kernel⟩
    have htrace : b.trace = [4, 0] := by decide +kernel
    have hopen : nestedCalls.openCalls [4, 0] = [4, 0] := by decide
    obtain ⟨hdepth, hframes⟩ := (htraces inside (hreachable _)).2 b (List.get_mem _ _)
    rw [htrace, hopen] at hdepth hframes
    exact ⟨b, List.get_mem _ _, htrace, hdepth, hframes⟩
  · let b := behind.live.get ⟨0, by decide +kernel⟩
    have htrace : b.trace = [1, 5, 7, 4, 0] := by decide +kernel
    have hmem : b ∈ behind.live ++ behind.retired := List.mem_append_left _ (List.get_mem _ _)
    obtain ⟨-, hpath⟩ := (htraces behind (hreachable _)).1 b hmem
    obtain ⟨op, pc, hop, hgoes, hnext⟩ := hpath [] 1 5 [7, 4, 0] htrace
    cases hop
    exact ⟨b, List.get_mem _ _, htrace, pc, hgoes, hnext⟩

end Machine

end Teal
