import Teal.Text.Blank
import Teal.Text.Hex
/-!
# Lines of a program

An `Op` is one line of a program: an instruction, a label, a pragma or a line without effect. It is
generic in how labels are named. A line of source names them by text, `Op String`; a line of a
listing by their number in the label table, `Op LabelId`; `Op.map` goes from one to the other.

`Op.render` writes a line back as source text.
-/

namespace Teal

/-- When a branch instruction jumps. -/
inductive BranchKind where
  /-- `b` always jumps. -/
  | always
  /-- `bz` jumps when the value it pops is zero. -/
  | ifZero
  /-- `bnz` jumps when the value it pops is not zero. -/
  | ifNonZero
deriving DecidableEq, Repr

/-- How a constant is spelled. -/
inductive ConstForm where
  /-- `int` and `byte`. -/
  | pseudo
  /-- `pushint` and `pushbytes`. -/
  | push
deriving DecidableEq, Repr

/-- The mnemonics that have a line form of their own. Every other mnemonic is a plain opcode with
its operands as written. -/
inductive Keyword where
  | int (form : ConstForm)
  | bytes (form : ConstForm)
  | branch (kind : BranchKind)
  | callsub
  | switch
  | matchCases
  | retsub
  | proto
  | err
  | ret
  | load
  | store
  | frameDig
  | frameBury
deriving DecidableEq, Repr

namespace Keyword

/-- The spelling of a keyword. -/
def text : Keyword → String
  | .int .pseudo => "int"
  | .int .push => "pushint"
  | .bytes .pseudo => "byte"
  | .bytes .push => "pushbytes"
  | .branch .always => "b"
  | .branch .ifZero => "bz"
  | .branch .ifNonZero => "bnz"
  | .callsub => "callsub"
  | .switch => "switch"
  | .matchCases => "match"
  | .retsub => "retsub"
  | .proto => "proto"
  | .err => "err"
  | .ret => "return"
  | .load => "load"
  | .store => "store"
  | .frameDig => "frame_dig"
  | .frameBury => "frame_bury"

/-- Every keyword. -/
def all : List Keyword :=
  [.int .pseudo, .int .push, .bytes .pseudo, .bytes .push, .branch .always, .branch .ifZero,
    .branch .ifNonZero, .callsub, .switch, .matchCases, .retsub, .proto, .err, .ret, .load, .store,
    .frameDig, .frameBury]

/-- The keyword with the given spelling. -/
def ofText? (s : String) : Option Keyword :=
  all.find? (·.text == s)

theorem ofText?_text (k : Keyword) : ofText? k.text = some k := by
  cases k with
  | int form => cases form <;> rfl
  | bytes form => cases form <;> rfl
  | branch kind => cases kind <;> rfl
  | _ => rfl

theorem text_of_ofText? {s : String} {k : Keyword} (h : ofText? s = some k) : k.text = s := by
  simpa using List.find?_some h

end Keyword

/-- One line of a program, with labels named by `ι`. -/
inductive Op (ι : Type) where
  /-- A comment, without its two slashes. -/
  | comment (text : String)
  /-- A blank line. -/
  | empty
  /-- The language version of the program. -/
  | pragma (version : UInt8)
  /-- Declares a label at this place. -/
  | label (id : ι)
  /-- Pushes a number. -/
  | int (form : ConstForm) (value : UInt64)
  /-- Pushes a byte string. -/
  | bytes (form : ConstForm) (value : List UInt8)
  /-- Jumps, perhaps on a condition. -/
  | branch (kind : BranchKind) (target : ι)
  /-- Calls the subroutine at a label. -/
  | callsub (target : ι)
  /-- Pops an index into the targets and jumps there. -/
  | switch (targets : List ι)
  /-- Pops a value and one case per target, and jumps to the target of the first equal case. -/
  | matchCases (targets : List ι)
  /-- Returns from a subroutine. -/
  | retsub
  /-- Declares how many values the running subroutine takes and gives back. -/
  | proto (args results : UInt8)
  /-- Fails. -/
  | err
  /-- Ends the program with the popped verdict. -/
  | ret
  /-- Pushes a scratch slot. -/
  | load (slot : UInt8)
  /-- Pops into a scratch slot. -/
  | store (slot : UInt8)
  /-- Pushes a value found relative to the call frame. -/
  | frameDig (offset : Int8)
  /-- Pops into a place relative to the call frame. -/
  | frameBury (offset : Int8)
  /-- Any other opcode, with its operands as written. -/
  | instr (name : String) (immediates : List String)
deriving DecidableEq, Repr

namespace Op

variable {ι κ : Type}

/-- The same line with every label renamed. -/
def map (f : ι → κ) : Op ι → Op κ
  | .comment text => .comment text
  | .empty => .empty
  | .pragma version => .pragma version
  | .label id => .label (f id)
  | .int form value => .int form value
  | .bytes form value => .bytes form value
  | .branch kind target => .branch kind (f target)
  | .callsub target => .callsub (f target)
  | .switch targets => .switch (targets.map f)
  | .matchCases targets => .matchCases (targets.map f)
  | .retsub => .retsub
  | .proto args results => .proto args results
  | .err => .err
  | .ret => .ret
  | .load slot => .load slot
  | .store slot => .store slot
  | .frameDig offset => .frameDig offset
  | .frameBury offset => .frameBury offset
  | .instr name immediates => .instr name immediates

/-- The labels a line refers to, in order. -/
def targets : Op ι → List ι
  | .branch _ target | .callsub target => [target]
  | .switch targets | .matchCases targets => targets
  | _ => []

/-- The label a line declares. -/
def declared? : Op ι → Option ι
  | .label id => some id
  | _ => none

/-- Every label a line mentions, in order. -/
def mentions (op : Op ι) : List ι :=
  op.declared?.toList ++ op.targets

/-- The same line with every reference renamed, a declaration left as it is. -/
def retarget (f : ι → ι) : Op ι → Op ι
  | .branch kind target => .branch kind (f target)
  | .callsub target => .callsub (f target)
  | .switch targets => .switch (targets.map f)
  | .matchCases targets => .matchCases (targets.map f)
  | op => op

/-- Lines without any effect: comments and blank lines. -/
def isNop : Op ι → Bool
  | .comment _ | .empty => true
  | _ => false

/-- Lines that execute: neither without effect nor a label nor a pragma. -/
def isExecutable : Op ι → Bool
  | .comment _ | .empty | .label _ | .pragma _ => false
  | _ => true

/-- Instructions that end the program or the subroutine. -/
def isTerminator : Op ι → Bool
  | .err | .ret | .retsub => true
  | _ => false

/-- The branch that always jumps. -/
def isUnconditionalBranch : Op ι → Bool
  | .branch .always _ => true
  | _ => false

/-- Instructions that control never falls through: the next line is only reached by a label. -/
def endsFlow (op : Op ι) : Bool :=
  op.isTerminator || op.isUnconditionalBranch

/-- Calls of a subroutine. -/
def isCall : Op ι → Bool
  | .callsub _ => true
  | _ => false

/-- The keyword of a line, if it has one. -/
def keyword? : Op ι → Option Keyword
  | .int form _ => some (.int form)
  | .bytes form _ => some (.bytes form)
  | .branch kind _ => some (.branch kind)
  | .callsub _ => some .callsub
  | .switch _ => some .switch
  | .matchCases _ => some .matchCases
  | .retsub => some .retsub
  | .proto _ _ => some .proto
  | .err => some .err
  | .ret => some .ret
  | .load _ => some .load
  | .store _ => some .store
  | .frameDig _ => some .frameDig
  | .frameBury _ => some .frameBury
  | .comment _ | .empty | .pragma _ | .label _ | .instr _ _ => none

/-- The opcode name of a line; none for a line that is not an instruction. -/
def mnemonic? : Op ι → Option String
  | .instr name _ => some name
  | op => op.keyword?.map Keyword.text

/-- The operands of an instruction, as they are written. -/
def operands : Op String → List String
  | .int _ value => [toString value.toNat]
  | .bytes _ value => ["0x" ++ String.ofList (Text.Hex.encode value)]
  | .branch _ target | .callsub target => [target]
  | .switch targets | .matchCases targets => targets
  | .proto args results => [toString args.toNat, toString results.toNat]
  | .load slot | .store slot => [toString slot.toNat]
  | .frameDig offset | .frameBury offset => [toString offset.toInt]
  | .instr _ immediates => immediates
  | _ => []

/-- The line as source text. -/
def render : Op String → String
  | .comment text => "//" ++ text
  | .empty => ""
  | .pragma version => "#pragma version " ++ toString version.toNat
  | .label name => name ++ ":"
  | op =>
    let text := " ".intercalate ((op.mnemonic?.getD "") :: op.operands)
    match op with
    | .switch _ | .matchCases _ => String.ofList (Text.trimEnd text.toList)
    | _ => text

end Op

end Teal
