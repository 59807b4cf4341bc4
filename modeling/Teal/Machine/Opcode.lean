import Teal.Machine.Exec
import Teal.Source.Literal
/-!
# Opcodes the machine computes

The plain opcodes whose results are computed, and what each of them does. All of them go on to the
next line, so an opcode is an action without result. An unknown operand makes an unknown result.
Every other opcode of the catalog is executed by its signature alone, see `Exec.symbolic`.
-/

namespace Teal

/-- Opcodes that take two numbers and push one. -/
inductive BinaryOp where
  | add | sub | mul | div | mod
  | lt | gt | le | ge
  | and | or
  | bitOr | bitAnd | bitXor
deriving DecidableEq, Repr

namespace BinaryOp

/-- The mnemonic of an opcode. -/
def name : BinaryOp → String
  | .add => "+"
  | .sub => "-"
  | .mul => "*"
  | .div => "/"
  | .mod => "%"
  | .lt => "<"
  | .gt => ">"
  | .le => "<="
  | .ge => ">="
  | .and => "&&"
  | .or => "||"
  | .bitOr => "|"
  | .bitAnd => "&"
  | .bitXor => "^"

/-- A truth value as a number. -/
def truth (b : Bool) : UInt64 :=
  if b then 1 else 0

/-- The result on two numbers, the first of which was pushed first. -/
def apply (op : BinaryOp) (a b : UInt64) : Except Fault UInt64 :=
  match op with
  | .add => if a.toNat + b.toNat < UInt64.size then .ok (a + b) else .error (.overflow "+")
  | .sub => if b ≤ a then .ok (a - b) else .error (.overflow "-")
  | .mul => if a.toNat * b.toNat < UInt64.size then .ok (a * b) else .error (.overflow "*")
  | .div => if b = 0 then .error (.divideByZero "/") else .ok (a / b)
  | .mod => if b = 0 then .error (.divideByZero "%") else .ok (a % b)
  | .lt => .ok (truth (a < b))
  | .gt => .ok (truth (b < a))
  | .le => .ok (truth (a ≤ b))
  | .ge => .ok (truth (b ≤ a))
  | .and => .ok (truth (a != 0 && b != 0))
  | .or => .ok (truth (a != 0 || b != 0))
  | .bitOr => .ok (a ||| b)
  | .bitAnd => .ok (a &&& b)
  | .bitXor => .ok (a ^^^ b)

end BinaryOp

/-- The opcodes whose results are computed. -/
inductive Opcode where
  | binary (op : BinaryOp)
  | not | complement
  | equal | notEqual
  | len | itob | btoi | concat | substring | extract
  | pop | dup | dup2 | swap | select | assert
  | dig | cover | uncover | bury | popn | dupn
  | loads | stores
  | pushints | pushbytess
deriving DecidableEq, Repr

namespace Opcode

/-- The mnemonic of an opcode. -/
def name : Opcode → String
  | .binary op => op.name
  | .not => "!"
  | .complement => "~"
  | .equal => "=="
  | .notEqual => "!="
  | .len => "len"
  | .itob => "itob"
  | .btoi => "btoi"
  | .concat => "concat"
  | .substring => "substring"
  | .extract => "extract"
  | .pop => "pop"
  | .dup => "dup"
  | .dup2 => "dup2"
  | .swap => "swap"
  | .select => "select"
  | .assert => "assert"
  | .dig => "dig"
  | .cover => "cover"
  | .uncover => "uncover"
  | .bury => "bury"
  | .popn => "popn"
  | .dupn => "dupn"
  | .loads => "loads"
  | .stores => "stores"
  | .pushints => "pushints"
  | .pushbytess => "pushbytess"

/-- Every opcode that is computed. -/
def all : List Opcode :=
  [.binary .add, .binary .sub, .binary .mul, .binary .div, .binary .mod, .binary .lt, .binary .gt,
    .binary .le, .binary .ge, .binary .and, .binary .or, .binary .bitOr, .binary .bitAnd,
    .binary .bitXor, .not, .complement, .equal, .notEqual, .len, .itob, .btoi, .concat, .substring,
    .extract, .pop, .dup, .dup2, .swap, .select, .assert, .dig, .cover, .uncover, .bury, .popn,
    .dupn, .loads, .stores, .pushints, .pushbytess]

/-- The opcode with a given mnemonic. -/
def ofName? (name : String) : Option Opcode :=
  all.find? (·.name == name)

theorem ofName?_name (op : Opcode) : ofName? op.name = some op := by
  cases op with
  | binary op => cases op <;> rfl
  | _ => rfl

theorem name_of_ofName? {s : String} {op : Opcode} (h : ofName? s = some op) : op.name = s := by
  simpa using List.find?_some h

/-- The eight bytes of a number, the highest first. -/
def bigEndian (n : UInt64) : List UInt8 :=
  [n >>> 56, n >>> 48, n >>> 40, n >>> 32, n >>> 24, n >>> 16, n >>> 8, n].map UInt64.toUInt8

/-- The number that bytes write, the highest first. -/
def ofBigEndian (bytes : List UInt8) : UInt64 :=
  bytes.foldl (fun acc b => (acc <<< 8) ||| b.toUInt64) 0

end Opcode

namespace Exec

variable (site : Site)

/-- The operand at place `i`, which has to be the numeral of a byte. -/
def immediate (immediates : List String) (i : Nat) : Exec Nat :=
  match immediates[i]?.bind fun raw => Text.Numeral.byte? raw.toList with
  | some n => return n.toNat
  | none => throw (.badImmediate site.name)

/-- Pushes the image of a value, or an unknown value where there is none to map. -/
def pushMap {α : Type} (f : α → Value) : Option α → Exec Unit
  | some a => push site (f a)
  | none => push site .unknown

/-- Two numbers become one. -/
def binary (op : BinaryOp) : Exec Unit := do
  let b ← popUint site.name
  let a ← popUint site.name
  match a, b with
  | some a, some b =>
    match op.apply a b with
    | .ok n => push site (.uint n)
    | .error fault => throw fault
  | _, _ => push site .unknown

/-- Whether two values of one type are equal, or are not, as a number. -/
def compare (wanted : Bool) : Exec Unit := do
  let b ← pop site.name
  let a ← pop site.name
  if a.isUnknown || b.isUnknown then push site .unknown
  else if a.value.type ≠ b.value.type then
    throw (.typeMismatch site.name a.value.type b.value.type)
  else push site (.ofBool ((a.value == b.value) == wanted))

/-- The number a byte string of at most eight bytes writes. -/
def btoi : Exec Unit := do
  match ← popBytes site.name with
  | some b =>
    if b.length > 8 then throw (.tooLongForInteger b.length)
    else push site (.uint (Opcode.ofBigEndian b))
  | none => push site .unknown

/-- Two byte strings become one. -/
def concat : Exec Unit := do
  let b ← popBytes site.name
  let a ← popBytes site.name
  match a, b with
  | some a, some b =>
    let joined := a ++ b
    if joined.length > maxBytesLength then throw (.tooLong site.name joined.length)
    else push site (.bytes joined)
  | _, _ => push site .unknown

/-- The bytes from `start` to `stop`, where `stop` may depend on the length of the byte string. -/
def slice (start : Nat) (stop : Nat → Nat) : Exec Unit := do
  match ← popBytes site.name with
  | some b =>
    let stop := stop b.length
    if start > stop ∨ stop > b.length then throw (.outOfRange site.name stop)
    else push site (.bytes ((b.drop start).take (stop - start)))
  | none => push site .unknown

/-- Pushes one of two values, by a number. -/
def select : Exec Unit := do
  let c ← popUint site.name
  let b ← pop site.name
  let a ← pop site.name
  match c with
  | some n => pushCell (if n = 0 then a else b)
  | none => push site .unknown

/-- Fails on zero. -/
def assert : Exec Unit := do
  match ← popUint site.name with
  | some n => if n = 0 then throw .assertFailed else return
  | none => return

/-- Pushes a copy of the value `depth` below the top. -/
def dig (depth : Nat) : Exec Unit := do
  match (← stack)[depth]? with
  | some c => pushCell c
  | none => throw (.stackUnderflow site.name)

/-- Moves the top below the `depth` values under it. -/
def cover (depth : Nat) : Exec Unit := do
  let top ← pop site.name
  let rest ← stack
  if depth > rest.length then throw (.stackUnderflow site.name)
  else setStack (rest.take depth ++ top :: rest.drop depth)

/-- Moves the value `depth` below the top to the top. -/
def uncover (depth : Nat) : Exec Unit := do
  let cells ← stack
  match cells[depth]? with
  | some c => setStack (c :: cells.eraseIdx depth)
  | none => throw (.stackUnderflow site.name)

/-- Takes the top and puts it in the place of the value that was `depth` below it. -/
def bury (depth : Nat) : Exec Unit := do
  if depth = 0 then throw (.badImmediate site.name)
  else
    let top ← pop site.name
    let rest ← stack
    if depth - 1 < rest.length then setStack (rest.set (depth - 1) top)
    else throw (.stackUnderflow site.name)

/-- Adds `count` copies of the top. -/
def dupn (count : Nat) : Exec Unit := do
  let top ← pop site.name
  setStack (List.replicate (count + 1) top ++ (← stack))

/-- Pushes the scratch slot whose number is on the stack. -/
def loads : Exec Unit := do
  match ← popUint site.name with
  | some slot =>
    match (← get).scratch.get? slot.toNat with
    | some c => pushCell c
    | none => throw (.outOfRange site.name slot.toInt64.toInt)
  | none => push site .unknown

/-- Stores a value in the scratch slot whose number is under it. Nothing is stored where that number
is not known. -/
def stores : Exec Unit := do
  let c ← pop site.name
  match ← popUint site.name with
  | some slot =>
    match (← get).scratch.set? slot.toNat c with
    | some scratch => modify ({ · with scratch })
    | none => throw (.outOfRange site.name slot.toInt64.toInt)
  | none => return

/-- Pushes every operand as a constant. -/
def pushAll (read? : List Char → Option Value) : List String → Exec Unit
  | [] => return
  | raw :: rest =>
    match read? raw.toList with
    | some v => do
      push site v
      pushAll read? rest
    | none => throw (.badImmediate site.name)

/-- What an opcode does, given its operands as written. -/
def compute (immediates : List String) : Opcode → Exec Unit
  | .binary op => binary site op
  | .not => do pushMap site (fun n : UInt64 => .ofBool (n = 0)) (← popUint site.name)
  | .complement => do pushMap site (fun n : UInt64 => .uint (~~~n)) (← popUint site.name)
  | .equal => compare site true
  | .notEqual => compare site false
  | .len => do
    pushMap site (fun b : List UInt8 => .uint (UInt64.ofNat b.length)) (← popBytes site.name)
  | .itob => do pushMap site (fun n => .bytes (Opcode.bigEndian n)) (← popUint site.name)
  | .btoi => btoi site
  | .concat => concat site
  | .substring => do
    let start ← immediate site immediates 0
    let stop ← immediate site immediates 1
    slice site start fun _ => stop
  | .extract => do
    let start ← immediate site immediates 0
    let count ← immediate site immediates 1
    slice site start fun length => if count = 0 then length else start + count
  | .pop => do
    let _ ← pop site.name
  | .dup => do
    let top ← pop site.name
    setStack (top :: top :: (← stack))
  | .dup2 => do
    let b ← pop site.name
    let a ← pop site.name
    setStack (b :: a :: b :: a :: (← stack))
  | .swap => do
    let b ← pop site.name
    let a ← pop site.name
    setStack (a :: b :: (← stack))
  | .select => select site
  | .assert => assert site
  | .dig => do dig site (← immediate site immediates 0)
  | .cover => do cover site (← immediate site immediates 0)
  | .uncover => do uncover site (← immediate site immediates 0)
  | .bury => do bury site (← immediate site immediates 0)
  | .popn => do
    let _ ← popMany site.name (← immediate site immediates 0)
  | .dupn => do dupn site (← immediate site immediates 0)
  | .loads => loads site
  | .stores => stores site
  | .pushints => pushAll site (fun cs => (Text.Numeral.word? cs).map .uint) immediates
  | .pushbytess => pushAll site (fun cs => (Source.bytes? cs).map .bytes) immediates

/-- Takes values of the expected types, the first one taken first. -/
def popTyped : List StackType → Exec Unit
  | [] => return
  | expected :: rest => do
    let c ← pop site.name
    if c.value.type.isCompatible expected then popTyped rest
    else throw (.typeMismatch site.name expected c.value.type)

/-- Pushes the given number of unknown values. -/
def pushUnknown : Nat → Exec Unit
  | 0 => return
  | n + 1 => do
    push site .unknown
    pushUnknown n

/-- What an opcode does that is only known by its signature: it takes what the catalog says and
pushes unknown results. -/
def symbolic (catalog : Catalog) : Exec Unit :=
  match catalog.find? site.name with
  | some spec => do
    popTyped site spec.pops.reverse
    pushUnknown site spec.pushes.length
  | none => throw (.unknownOpcode site.name)

/-- What a plain opcode does. -/
def plain (catalog : Catalog) (immediates : List String) : Exec Unit :=
  match Opcode.ofName? site.name with
  | some op => compute site immediates op
  | none => symbolic site catalog

end Exec

end Teal
