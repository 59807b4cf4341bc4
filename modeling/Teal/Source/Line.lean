import Teal.Op
import Teal.Source.Literal
import Teal.Source.Token
/-!
# Reading a line

`Source.line` reads one line of source text. It is the left inverse of `Op.render` on the lines that
source text can hold.
-/

namespace Teal

/-- How many operands a keyword takes; `switch` and `match` take any number. -/
def Keyword.arity : Keyword → Nat
  | .int _ | .bytes _ | .branch _ | .callsub | .load | .store | .frameDig | .frameBury => 1
  | .proto => 2
  | .retsub | .err | .ret | .switch | .matchCases => 0

namespace Source

/-- The number an `int` or `pushint` operand stands for; only `int` knows the named ones. -/
def intOperand (form : ConstForm) (raw : String) : Except SourceError UInt64 :=
  match form, namedInteger? raw with
  | .pseudo, some n => .ok n
  | _, _ => integer raw

/-- The instruction a keyword and its operands make. -/
def instruction : Keyword → List String → Except SourceError (Op String)
  | .int form, [raw] => (intOperand form raw).map (.int form)
  | .bytes form, [raw] => (bytes raw).map (.bytes form)
  | .branch kind, [name] => (labelName name).map (.branch kind)
  | .callsub, [name] => (labelName name).map .callsub
  | .switch, names => (names.mapM labelName).map .switch
  | .matchCases, names => (names.mapM labelName).map .matchCases
  | .retsub, [] => .ok .retsub
  | .err, [] => .ok .err
  | .ret, [] => .ok .ret
  | .proto, [args, results] => do
    let a ← byte args
    let r ← byte results
    .ok (.proto a r)
  | .load, [slot] => (byte slot).map .load
  | .store, [slot] => (byte slot).map .store
  | .frameDig, [raw] => (offset raw).map .frameDig
  | .frameBury, [raw] => (offset raw).map .frameBury
  | keyword, args => .error (.arity keyword.text keyword.arity args.length)

/-- The word a pragma starts with. -/
def pragmaWord : List Char :=
  ['#', 'p', 'r', 'a', 'g', 'm', 'a']

/-- The only setting a pragma has. -/
def versionWord : List Char :=
  ['v', 'e', 'r', 's', 'i', 'o', 'n']

/-- A pragma: the words `#pragma`, `version` and a byte. -/
def pragma (cs : List Char) : Except SourceError (Op String) :=
  match Text.words cs with
  | [head, setting, version] =>
    if head = pragmaWord ∧ setting = versionWord then
      match Text.Numeral.byte? version with
      | some v => .ok (.pragma v)
      | none => .error (.badPragma (String.ofList cs))
    else .error (.badPragma (String.ofList cs))
  | _ => .error (.badPragma (String.ofList cs))

/-- The line that tokens make. A first token that ends in a colon declares a label and stands
alone. -/
def ofTokens : List (List Char) → Except SourceError (Op String)
  | [] => .ok .empty
  | head :: args =>
    if head.getLast? = some ':' then
      if args.isEmpty then (labelName (String.ofList head.dropLast)).map .label
      else .error (.arity (String.ofList head) 0 args.length)
    else
      match Keyword.ofText? (String.ofList head) with
      | some keyword => instruction keyword (args.map String.ofList)
      | none => .ok (.instr (String.ofList head) (args.map String.ofList))

/-- Reads one line, given as characters. -/
def lineOfChars (text : List Char) : Except SourceError (Op String) :=
  let cs := Text.trim text
  if cs.isEmpty then .ok .empty
  else if startsComment cs then .ok (.comment (String.ofList (cs.drop 2)))
  else if pragmaWord.isPrefixOf cs then pragma cs
  else
    match tokens? cs with
    | some tokens => ofTokens tokens
    | none => .error .unterminatedString

/-- Reads one line of source. -/
def line (text : String) : Except SourceError (Op String) :=
  lineOfChars text.toList

end Source

end Teal
