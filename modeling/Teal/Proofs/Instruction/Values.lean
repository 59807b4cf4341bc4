import Teal.Machine.Instruction
/-!
# What values an instruction leaves

`Cell.WellFormed` says what can be relied on of a value and of what it remembers of its origin.
Instructions push values and move them: `Exec.Yields` says of an action that it leaves well-formed
values on the stack and in scratch space, also where it fails, and that what it gives back satisfies
a condition, as a value does that was just popped. Sequencing hands this on, so moving values
asks for nothing, and pushing one only that the value itself is in order: `keeps_push`.

`keeps_exec` says it of every line.
-/

namespace Teal

/-! ## Well-formed values -/

/-- The byte strings that a line pushes as they are written. -/
def Op.byteConstants {ι : Type} : Op ι → List (List UInt8)
  | .bytes _ value => [value]
  | .instr name immediates =>
    if name = Opcode.pushbytess.name then immediates.filterMap (Source.bytes? ·.toList) else []
  | _ => []

/-- The length of the longest byte string that is written in a listing. -/
def Listing.longestConstant (l : Listing) : Nat :=
  ((l.ops.flatMap Op.byteConstants).map List.length).max?.getD 0

/-- The length that no byte string exceeds while a listing is run. -/
def Listing.bytesLimit (l : Listing) : Nat :=
  max maxBytesLength l.longestConstant

/-- What can be relied on of a value while a listing is run. -/
structure Cell.WellFormed (l : Listing) (c : Cell) : Prop where
  present : c.value ≠ .absent
  length : ∀ b, c.value = .bytes b → b.length ≤ l.bytesLimit
  origin : ∀ o, c.origin = some o → o.pc < l.size ∧ o.source = l.renderLine o.pc
  initial : c.origin = none → c.value = .uint 0

/-- Everything that an instruction can get at is well formed. -/
structure State.WellFormed (l : Listing) (s : State) : Prop where
  stack : ∀ c ∈ s.thread.stack, c.WellFormed l
  scratch : ∀ c ∈ s.scratch.slots, c.WellFormed l

/-- A value that may be pushed. -/
def Value.Within (limit : Nat) : Value → Prop
  | .absent => False
  | .unknown | .uint _ => True
  | .bytes b => b.length ≤ limit

/-- The instruction being executed is a line of the listing. -/
def Site.On (l : Listing) (site : Site) : Prop :=
  site.pc < l.size ∧ site.source = l.renderLine site.pc

variable {l : Listing}

theorem wellFormed_initial (l : Listing) : Scratch.initial.WellFormed l where
  present := nofun
  length := nofun
  origin := nofun
  initial _ := rfl

theorem Site.On.wellFormed {site : Site} (hsite : site.On l) {v : Value}
    (hv : v.Within l.bytesLimit) :
    ({ value := v, origin := some { pc := site.pc, source := site.source } } : Cell).WellFormed l
    where
  present h := by subst h; exact hv
  length b h := by subst h; exact hv
  origin o h := by cases h; exact hsite
  initial := nofun

theorem Listing.length_le_bytesLimit {op : Op LabelId} (hop : op ∈ l.ops) {b : List UInt8}
    (hb : b ∈ op.byteConstants) : b.length ≤ l.bytesLimit := by
  have hmem : b.length ∈ (l.ops.flatMap Op.byteConstants).map List.length :=
    List.mem_map_of_mem (List.mem_flatMap.2 ⟨op, hop, hb⟩)
  exact Nat.le_trans (List.le_max?_getD_of_mem hmem) (Nat.le_max_right _ _)

theorem Listing.length_le_bytesLimit_of_le {b : List UInt8} (h : b.length ≤ maxBytesLength) :
    b.length ≤ l.bytesLimit :=
  Nat.le_trans h (Nat.le_max_left _ _)

namespace Exec

/-! ## Actions that keep values well formed -/

/-- An action leaves well-formed values, and what it gives back satisfies `Q`. -/
def Yields {α : Type} (l : Listing) (x : Exec α) (Q : α → Prop) : Prop :=
  ∀ s : State, s.WellFormed l →
    match x.run s with
    | .ok a t => t.WellFormed l ∧ Q a
    | .error _ t => t.WellFormed l

/-- An action leaves well-formed values. -/
def Keeps {α : Type} (l : Listing) (x : Exec α) : Prop := Yields l x fun _ => True

variable {α β : Type} {Q : α → Prop} {R : β → Prop} {x : Exec α} {site : Site}

theorem yields_pure {a : α} (h : Q a) : Yields l (pure a) Q := fun _ hs => ⟨hs, h⟩

theorem yields_throw (e : Fault) : Yields l (throw e) Q := fun _ hs => hs

theorem yields_bind {f : α → Exec β} (hx : Yields l x Q) (hf : ∀ a, Q a → Yields l (f a) R) :
    Yields l (x >>= f) R := by
  intro s hs
  have h := hx s hs
  rw [EStateM.run_bind]
  cases hr : x.run s with
  | ok a t =>
    rw [hr] at h
    exact hf a h.2 t h.1
  | error e t =>
    rw [hr] at h
    exact h

theorem Yields.keeps (h : Yields l x Q) : Keeps l x := by
  intro s hs
  have h := h s hs
  cases hr : x.run s with
  | ok a t =>
    rw [hr] at h
    exact ⟨h.1, trivial⟩
  | error e t =>
    rw [hr] at h
    exact h

theorem keeps_pure (a : α) : Keeps l (pure a : Exec α) := yields_pure trivial

theorem keeps_bind {f : α → Exec β} (hx : Keeps l x) (hf : ∀ a, Yields l (f a) R) :
    Yields l (x >>= f) R :=
  yields_bind hx fun a _ => hf a

/-! ## State and stack -/

theorem yields_get : Yields l get (State.WellFormed l) := fun _ hs => ⟨hs, hs⟩

theorem yields_stack : Yields l stack fun cells => ∀ c ∈ cells, c.WellFormed l :=
  fun _ hs => ⟨hs, hs.stack⟩

theorem keeps_setStack {cells : List Cell} (h : ∀ c ∈ cells, c.WellFormed l) :
    Keeps l (setStack cells) :=
  fun _ hs => ⟨⟨h, hs.scratch⟩, trivial⟩

theorem keeps_setFrames (frames : List Frame) : Keeps l (setFrames frames) :=
  fun _ hs => ⟨⟨hs.stack, hs.scratch⟩, trivial⟩

theorem keeps_setScratch {scratch : Scratch} (h : ∀ c ∈ scratch.slots, c.WellFormed l) :
    Keeps l (modify ({ · with scratch })) :=
  fun _ hs => ⟨⟨hs.stack, h⟩, trivial⟩

theorem keeps_pushCell {c : Cell} (h : c.WellFormed l) : Keeps l (pushCell c) :=
  yields_bind yields_stack fun _ hcells => keeps_setStack (List.forall_mem_cons.2 ⟨h, hcells⟩)

theorem keeps_push (hsite : site.On l) {v : Value} (hv : v.Within l.bytesLimit) :
    Keeps l (push site v) :=
  keeps_pushCell (hsite.wellFormed hv)

theorem yields_pop (name : String) : Yields l (pop name) (Cell.WellFormed l) := by
  refine yields_bind yields_stack fun cells hcells => ?_
  cases cells with
  | nil => exact yields_throw _
  | cons c rest =>
    obtain ⟨hc, hrest⟩ := List.forall_mem_cons.1 hcells
    exact keeps_bind (keeps_setStack hrest) fun _ => yields_pure hc

theorem yields_popMany (name : String) (n : Nat) :
    Yields l (popMany name n) fun cells => ∀ c ∈ cells, c.WellFormed l := by
  induction n with
  | zero => exact yields_pure nofun
  | succ n ih =>
    refine yields_bind (yields_pop name) fun c hc => ?_
    refine yields_bind ih fun cs hcs => ?_
    exact yields_pure (List.forall_mem_cons.2 ⟨hc, hcs⟩)

theorem keeps_popUint (name : String) : Keeps l (popUint name) := by
  refine yields_bind (yields_pop name) fun ⟨v, origin⟩ _ => ?_
  cases v with
  | uint | unknown => exact keeps_pure _
  | bytes | absent => exact yields_throw _

theorem yields_popBytes (name : String) :
    Yields l (popBytes name) fun popped => ∀ b ∈ popped, b.length ≤ l.bytesLimit := by
  refine yields_bind (yields_pop name) fun ⟨v, origin⟩ hc => ?_
  cases v with
  | bytes b =>
    refine yields_pure fun b' hb' => ?_
    cases hb'
    exact hc.length b rfl
  | unknown => exact yields_pure nofun
  | uint | absent => exact yields_throw _

/-! ## Opcodes -/

theorem keeps_immediate (immediates : List String) (i : Nat) :
    Keeps l (immediate site immediates i) := by
  unfold immediate
  split
  · exact keeps_pure _
  · exact yields_throw _

theorem keeps_pushMap (hsite : site.On l) {f : α → Value} (hf : ∀ a, (f a).Within l.bytesLimit)
    (a : Option α) : Keeps l (pushMap site f a) := by
  cases a with
  | none => exact keeps_push hsite trivial
  | some a => exact keeps_push hsite (hf a)

theorem keeps_binary (hsite : site.On l) (op : BinaryOp) : Keeps l (binary site op) := by
  refine keeps_bind (keeps_popUint _) fun b => ?_
  refine keeps_bind (keeps_popUint _) fun a => ?_
  split
  · split
    · exact keeps_push hsite trivial
    · exact yields_throw _
  · exact keeps_push hsite trivial

theorem keeps_compare (hsite : site.On l) (wanted : Bool) : Keeps l (compare site wanted) := by
  refine keeps_bind (yields_pop _).keeps fun b => ?_
  refine keeps_bind (yields_pop _).keeps fun a => ?_
  split
  · exact keeps_push hsite trivial
  · split
    · exact yields_throw _
    · exact keeps_push hsite trivial

theorem keeps_btoi (hsite : site.On l) : Keeps l (btoi site) := by
  refine keeps_bind (yields_popBytes _).keeps fun popped => ?_
  split
  · split
    · exact yields_throw _
    · exact keeps_push hsite trivial
  · exact keeps_push hsite trivial

/-- Two byte strings may be longer together than any value, and are then refused. -/
theorem keeps_concat (hsite : site.On l) : Keeps l (concat site) := by
  refine keeps_bind (yields_popBytes _).keeps fun b => ?_
  refine keeps_bind (yields_popBytes _).keeps fun a => ?_
  split
  · dsimp only
    split
    · exact yields_throw _
    · rename_i hle
      exact keeps_push hsite (Listing.length_le_bytesLimit_of_le (Nat.le_of_not_lt hle))
  · exact keeps_push hsite trivial

/-- A part of a byte string is no longer than the whole. -/
theorem keeps_slice (hsite : site.On l) (start : Nat) (stop : Nat → Nat) :
    Keeps l (slice site start stop) := by
  refine yields_bind (yields_popBytes _) fun popped hpopped => ?_
  cases popped with
  | none => exact keeps_push hsite trivial
  | some b =>
    have hpart : ((b.drop start).take (stop b.length - start)).length ≤ l.bytesLimit := by
      rw [List.length_take, List.length_drop]
      have hb := hpopped b rfl
      omega
    dsimp only
    split
    · exact yields_throw _
    · exact keeps_push hsite hpart

theorem keeps_select (hsite : site.On l) : Keeps l (select site) := by
  refine keeps_bind (keeps_popUint _) fun c => ?_
  refine yields_bind (yields_pop _) fun b hb => ?_
  refine yields_bind (yields_pop _) fun a ha => ?_
  cases c with
  | none => exact keeps_push hsite trivial
  | some n =>
    refine keeps_pushCell ?_
    split
    · exact ha
    · exact hb

theorem keeps_assert : Keeps l (Exec.assert site) := by
  refine keeps_bind (keeps_popUint _) fun c => ?_
  split
  · split
    · exact yields_throw _
    · exact keeps_pure _
  · exact keeps_pure _

theorem keeps_dig (depth : Nat) : Keeps l (dig site depth) := by
  refine yields_bind yields_stack fun cells hcells => ?_
  split
  · rename_i c hc
    exact keeps_pushCell (hcells c (List.mem_of_getElem? hc))
  · exact yields_throw _

theorem keeps_cover (depth : Nat) : Keeps l (cover site depth) := by
  refine yields_bind (yields_pop _) fun top htop => ?_
  refine yields_bind yields_stack fun rest hrest => ?_
  split
  · exact yields_throw _
  · refine keeps_setStack fun c hc => ?_
    rcases List.mem_append.1 hc with hc | hc
    · exact hrest c (List.mem_of_mem_take hc)
    · rcases List.mem_cons.1 hc with rfl | hc
      · exact htop
      · exact hrest c (List.mem_of_mem_drop hc)

theorem keeps_uncover (depth : Nat) : Keeps l (uncover site depth) := by
  refine yields_bind yields_stack fun cells hcells => ?_
  split
  · rename_i c hc
    refine keeps_setStack (List.forall_mem_cons.2 ⟨hcells c (List.mem_of_getElem? hc), ?_⟩)
    exact fun c' hc' => hcells c' (List.mem_of_mem_eraseIdx hc')
  · exact yields_throw _

theorem wellFormed_set {cells : List Cell} (h : ∀ c ∈ cells, c.WellFormed l) {c : Cell}
    (hc : c.WellFormed l) (i : Nat) : ∀ c' ∈ cells.set i c, c'.WellFormed l := by
  intro c' hc'
  rcases List.mem_or_eq_of_mem_set hc' with hc' | rfl
  · exact h c' hc'
  · exact hc

theorem keeps_bury (depth : Nat) : Keeps l (bury site depth) := by
  unfold bury
  split
  · exact yields_throw _
  · refine yields_bind (yields_pop _) fun top htop => ?_
    refine yields_bind yields_stack fun rest hrest => ?_
    split
    · exact keeps_setStack (wellFormed_set hrest htop _)
    · exact yields_throw _

theorem keeps_dupn (count : Nat) : Keeps l (dupn site count) := by
  refine yields_bind (yields_pop _) fun top htop => ?_
  refine yields_bind yields_stack fun rest hrest => ?_
  refine keeps_setStack fun c hc => ?_
  rcases List.mem_append.1 hc with hc | hc
  · exact List.eq_of_mem_replicate hc ▸ htop
  · exact hrest c hc

theorem keeps_loads (hsite : site.On l) : Keeps l (loads site) := by
  refine keeps_bind (keeps_popUint _) fun popped => ?_
  cases popped with
  | none => exact keeps_push hsite trivial
  | some slot =>
    refine yields_bind yields_get fun s hs => ?_
    split
    · rename_i c hc
      exact keeps_pushCell (hs.scratch c (Vector.mem_of_getElem? hc))
    · exact yields_throw _

/-- What a slot holds after one was overwritten was there before, or is what was written. -/
theorem wellFormed_slots_set {s : Scratch} (h : ∀ c ∈ s.slots, c.WellFormed l) {c : Cell}
    (hc : c.WellFormed l) {i : Nat} (hi : i < 256) :
    ∀ c' ∈ s.slots.set i c hi, c'.WellFormed l := by
  intro c' hc'
  rcases Vector.mem_or_eq_of_mem_set hc' with hc' | rfl
  · exact h c' hc'
  · exact hc

theorem keeps_stores : Keeps l (stores site) := by
  refine yields_bind (yields_pop _) fun c hc => ?_
  refine keeps_bind (keeps_popUint _) fun popped => ?_
  cases popped with
  | none => exact keeps_pure _
  | some slot =>
    refine yields_bind yields_get fun s hs => ?_
    split
    · rename_i scratch hset
      unfold Scratch.set? at hset
      split at hset
      · rename_i hslot
        cases hset
        exact keeps_setScratch (wellFormed_slots_set hs.scratch hc hslot)
      · cases hset
    · exact yields_throw _

theorem keeps_pushAll (hsite : site.On l) {read? : List Char → Option Value}
    {immediates : List String}
    (h : ∀ raw ∈ immediates, ∀ v ∈ read? raw.toList, v.Within l.bytesLimit) :
    Keeps l (pushAll site read? immediates) := by
  induction immediates with
  | nil => exact keeps_pure _
  | cons raw rest ih =>
    obtain ⟨hraw, hrest⟩ := List.forall_mem_cons.1 h
    unfold pushAll
    split
    · rename_i v hv
      exact keeps_bind (keeps_push hsite (hraw v hv)) fun _ => ih hrest
    · exact yields_throw _

/-- What a computed opcode does. Only the operands of `pushbytess` can hold long byte strings. -/
theorem keeps_compute (hsite : site.On l) (immediates : List String) (op : Opcode)
    (h : op = .pushbytess → ∀ raw ∈ immediates, ∀ b ∈ Source.bytes? raw.toList,
      b.length ≤ l.bytesLimit) :
    Keeps l (compute site immediates op) := by
  cases op with
  | binary op => exact keeps_binary hsite op
  | not | complement => exact keeps_bind (keeps_popUint _) (keeps_pushMap hsite fun _ => trivial)
  | len => exact keeps_bind (yields_popBytes _).keeps (keeps_pushMap hsite fun _ => trivial)
  | itob =>
    refine keeps_bind (keeps_popUint _) (keeps_pushMap hsite fun n => ?_)
    have hlength : (Opcode.bigEndian n).length ≤ maxBytesLength := by
      change 8 ≤ 4096
      decide
    exact Listing.length_le_bytesLimit_of_le hlength
  | equal | notEqual => exact keeps_compare hsite _
  | btoi => exact keeps_btoi hsite
  | concat => exact keeps_concat hsite
  | substring | extract =>
    refine keeps_bind (keeps_immediate _ _) fun _ => ?_
    exact keeps_bind (keeps_immediate _ _) fun _ => keeps_slice hsite _ _
  | pop => exact keeps_bind (yields_pop _).keeps fun _ => keeps_pure _
  | dup =>
    refine yields_bind (yields_pop _) fun top htop => ?_
    refine yields_bind yields_stack fun rest hrest => ?_
    exact keeps_setStack (by simpa only [List.forall_mem_cons] using ⟨htop, htop, hrest⟩)
  | dup2 =>
    refine yields_bind (yields_pop _) fun b hb => ?_
    refine yields_bind (yields_pop _) fun a ha => ?_
    refine yields_bind yields_stack fun rest hrest => ?_
    exact keeps_setStack (by simpa only [List.forall_mem_cons] using ⟨hb, ha, hb, ha, hrest⟩)
  | swap =>
    refine yields_bind (yields_pop _) fun b hb => ?_
    refine yields_bind (yields_pop _) fun a ha => ?_
    refine yields_bind yields_stack fun rest hrest => ?_
    exact keeps_setStack (by simpa only [List.forall_mem_cons] using ⟨ha, hb, hrest⟩)
  | select => exact keeps_select hsite
  | assert => exact keeps_assert
  | dig => exact keeps_bind (keeps_immediate _ _) keeps_dig
  | cover => exact keeps_bind (keeps_immediate _ _) keeps_cover
  | uncover => exact keeps_bind (keeps_immediate _ _) keeps_uncover
  | bury => exact keeps_bind (keeps_immediate _ _) keeps_bury
  | popn =>
    refine keeps_bind (keeps_immediate _ _) fun n => ?_
    exact keeps_bind (yields_popMany _ n).keeps fun _ => keeps_pure _
  | dupn => exact keeps_bind (keeps_immediate _ _) keeps_dupn
  | loads => exact keeps_loads hsite
  | stores => exact keeps_stores
  | pushints =>
    refine keeps_pushAll hsite fun raw _ v hv => ?_
    obtain ⟨n, -, rfl⟩ := Option.map_eq_some_iff.1 hv
    exact trivial
  | pushbytess =>
    refine keeps_pushAll hsite fun raw hraw v hv => ?_
    obtain ⟨b, hb, rfl⟩ := Option.map_eq_some_iff.1 hv
    exact h rfl raw hraw b hb

theorem keeps_popTyped (types : List StackType) : Keeps l (popTyped site types) := by
  induction types with
  | nil => exact keeps_pure _
  | cons expected rest ih =>
    refine keeps_bind (yields_pop _).keeps fun c => ?_
    split
    · exact ih
    · exact yields_throw _

theorem keeps_pushUnknown (hsite : site.On l) (n : Nat) : Keeps l (pushUnknown site n) := by
  induction n with
  | zero => exact keeps_pure _
  | succ n ih => exact keeps_bind (keeps_push hsite trivial) fun _ => ih

theorem keeps_symbolic (hsite : site.On l) (catalog : Catalog) :
    Keeps l (symbolic site catalog) := by
  unfold symbolic
  split
  · exact keeps_bind (keeps_popTyped _) fun _ => keeps_pushUnknown hsite _
  · exact yields_throw _

theorem keeps_plain (hsite : site.On l) (catalog : Catalog) {immediates : List String}
    (h : ∀ b ∈ (Op.instr (ι := LabelId) site.name immediates).byteConstants,
      b.length ≤ l.bytesLimit) :
    Keeps l (plain site catalog immediates) := by
  unfold plain
  split
  · rename_i op hop
    refine keeps_compute hsite immediates op fun heq raw hraw b hb => h b ?_
    have hname : site.name = Opcode.pushbytess.name := by
      rw [← heq, Opcode.name_of_ofName? hop]
    rw [Op.byteConstants, if_pos hname]
    exact List.mem_filterMap.2 ⟨raw, hraw, hb⟩
  · exact keeps_symbolic hsite catalog

/-! ## Lines -/

theorem keeps_resolve (id : LabelId) : Keeps l (resolve l id) := by
  unfold resolve
  split
  · exact keeps_pure _
  · exact yields_throw _

theorem keeps_resolveAll (ids : List LabelId) : Keeps l (resolveAll l ids) := by
  induction ids with
  | nil => exact keeps_pure _
  | cons id ids ih =>
    exact keeps_bind (keeps_resolve id) fun _ => keeps_bind ih fun _ => keeps_pure _

theorem keeps_branch (kind : BranchKind) (target : Nat) : Keeps l (branch site kind target) := by
  cases kind with
  | always => exact keeps_pure _
  | ifZero | ifNonZero =>
    refine keeps_bind (keeps_popUint _) fun popped => ?_
    cases popped <;> exact keeps_pure _

theorem keeps_callsub (target : Nat) : Keeps l (callsub site target) :=
  keeps_bind yields_get.keeps fun _ => keeps_bind (keeps_setFrames _) fun _ => keeps_pure _

theorem keeps_switch (targets : List Nat) : Keeps l (switch site targets) := by
  refine keeps_bind (keeps_popUint _) fun popped => ?_
  cases popped <;> exact keeps_pure _

theorem keeps_matchCases (targets : List Nat) : Keeps l (matchCases site targets) := by
  refine keeps_bind (yields_pop _).keeps fun needle => ?_
  refine keeps_bind (yields_popMany _ _).keeps fun popped => ?_
  split <;> exact keeps_pure _

theorem keeps_proto (args results : Nat) : Keeps l (proto site args results) := by
  refine keeps_bind yields_get.keeps fun s => ?_
  dsimp only
  split
  · split
    · split
      · exact yields_throw _
      · exact keeps_bind (keeps_setFrames _) fun _ => keeps_pure _
    · exact yields_throw _
  · exact yields_throw _

/-- A return drops values, and what it leaves was on the stack before. -/
theorem keeps_retsub : Keeps l retsub := by
  refine keeps_bind yields_get.keeps fun s => ?_
  split
  · rename_i frame rest _
    refine keeps_bind (keeps_setFrames _) fun _ => ?_
    split
    · refine yields_bind yields_stack fun cells hcells => ?_
      dsimp only
      split
      · exact keeps_bind (yields_throw (Q := fun _ => True) _) fun _ => keeps_pure _
      · refine keeps_bind (keeps_setStack fun c hc => ?_) fun _ => keeps_pure _
        rcases List.mem_append.1 hc with hc | hc
        · exact hcells c (List.mem_of_mem_take hc)
        · exact hcells c (List.mem_of_mem_drop hc)
    · exact keeps_pure _
  · exact yields_throw _

theorem keeps_frameIndex (offset : Int8) : Keeps l (frameIndex site offset) := by
  refine keeps_bind yields_get.keeps fun s => ?_
  split
  · split
    · dsimp only
      split
      · exact yields_throw _
      · exact keeps_pure _
    · exact yields_throw _
  · exact yields_throw _

theorem keeps_frameDig (offset : Int8) : Keeps l (frameDig site offset) := by
  refine keeps_bind (keeps_frameIndex offset) fun index => ?_
  refine yields_bind yields_stack fun cells hcells => ?_
  split
  · exact keeps_pushCell (hcells _ (List.mem_reverse.1 (List.get_mem _ _)))
  · exact yields_throw _

theorem keeps_frameBury (offset : Int8) : Keeps l (frameBury site offset) := by
  refine yields_bind (yields_pop _) fun c hc => ?_
  refine keeps_bind (keeps_frameIndex offset) fun index => ?_
  refine yields_bind yields_stack fun cells hcells => ?_
  split
  · have hreverse : ∀ c ∈ cells.reverse, c.WellFormed l :=
      fun c hc => hcells c (List.mem_reverse.1 hc)
    exact keeps_setStack fun c' hc' => wellFormed_set hreverse hc index c' (List.mem_reverse.1 hc')
  · exact yields_throw _

theorem keeps_load (slot : UInt8) : Keeps l (load slot) :=
  yields_bind yields_get fun _ hs => keeps_pushCell (hs.scratch _ (Vector.getElem_mem _))

theorem keeps_store (slot : UInt8) : Keeps l (store site slot) := by
  refine yields_bind (yields_pop _) fun c hc s hs => ?_
  exact ⟨⟨hs.stack, wellFormed_slots_set hs.scratch hc slot.toNat_lt⟩, trivial⟩

theorem keeps_andNext {action : Exec Unit} (h : Keeps l action) : Keeps l (andNext site action) :=
  keeps_bind h fun _ => keeps_pure _

theorem keeps_line (hsite : site.On l) (catalog : Catalog) {op : Op LabelId}
    (hname : ∀ name immediates, op = .instr name immediates → site.name = name)
    (hconst : ∀ b ∈ op.byteConstants, b.length ≤ l.bytesLimit) :
    Keeps l (line site l catalog op) := by
  cases op with
  | comment | empty | label | pragma => exact keeps_andNext (keeps_pure _)
  | int => exact keeps_andNext (keeps_push hsite trivial)
  | bytes _ value => exact keeps_andNext (keeps_push hsite (hconst value List.mem_cons_self))
  | branch kind target => exact keeps_bind (keeps_resolve target) (keeps_branch kind)
  | callsub target => exact keeps_bind (keeps_resolve target) keeps_callsub
  | switch targets => exact keeps_bind (keeps_resolveAll targets) keeps_switch
  | matchCases targets => exact keeps_bind (keeps_resolveAll targets) keeps_matchCases
  | retsub => exact keeps_retsub
  | proto args results => exact keeps_proto _ _
  | err => exact yields_throw _
  | ret => exact keeps_bind (keeps_popUint _) fun _ => keeps_pure _
  | load slot => exact keeps_andNext (keeps_load slot)
  | store slot => exact keeps_andNext (keeps_store slot)
  | frameDig offset => exact keeps_andNext (keeps_frameDig offset)
  | frameBury offset => exact keeps_andNext (keeps_frameBury offset)
  | instr name immediates =>
    refine keeps_andNext (keeps_plain hsite catalog ?_)
    rwa [hname name immediates rfl]

end Exec

/-- A line of a listing leaves well-formed values. -/
theorem keeps_exec (catalog : Catalog) {pc : Nat} {op : Op LabelId} (hop : l.ops[pc]? = some op) :
    Exec.Keeps l (op.exec l catalog pc) := by
  have hsite : (Site.ofLine l pc op).On l := ⟨(List.getElem?_eq_some_iff.1 hop).1, rfl⟩
  refine Exec.keeps_line hsite catalog ?_ fun b hb => ?_
  · rintro name immediates rfl
    rfl
  · exact Listing.length_le_bytesLimit (List.mem_of_getElem? hop) hb

end Teal
