import Teal.Expr
import Teal.Json.Decode
import Teal.Json.Reader
/-!
# Program trees as JSON

A tree is its kind: alone for the kinds without content, else as the only key of an object that
holds the content. `Expr.toJson` writes trees and `Expr.decoder` reads them; `Expr.ofText?` reads a
whole program.
-/

namespace Teal

open Json (Decoder)

/-- The spelling of the forms of a constant. -/
def ConstForm.names : List (String × ConstForm) :=
  [("Pseudo", .pseudo), ("Push", .push)]

/-- The spelling of the kinds of a branch. -/
def BranchKind.names : List (String × BranchKind) :=
  [("Always", .always), ("IfZero", .ifZero), ("IfNonZero", .ifNonZero)]

/-- The spelling of a form. -/
def ConstForm.spelling : ConstForm → String
  | .pseudo => "Pseudo"
  | .push => "Push"

/-- The spelling of a kind. -/
def BranchKind.spelling : BranchKind → String
  | .always => "Always"
  | .ifZero => "IfZero"
  | .ifNonZero => "IfNonZero"

namespace Op

/-- A line as JSON. -/
def toJson : Op String → Json
  | .comment text => .object [("Comment", .text text)]
  | .empty => .text "Empty"
  | .pragma version => .object [("Pragma", .object [("version", .nat version.toNat)])]
  | .label name => .object [("Label", .text name)]
  | .int form value =>
    .object [("Int", .object [("form", .text form.spelling), ("value", .nat value.toNat)])]
  | .bytes form value =>
    .object [("Bytes", .object
      [("form", .text form.spelling), ("value", .arr (value.map fun b => .nat b.toNat))])]
  | .branch kind target =>
    .object [("Branch", .object [("kind", .text kind.spelling), ("target", .text target)])]
  | .callsub target => .object [("Call", .text target)]
  | .switch targets => .object [("Switch", .arr (targets.map .text))]
  | .matchCases targets => .object [("Match", .arr (targets.map .text))]
  | .retsub => .text "Retsub"
  | .proto args results =>
    .object [("Proto", .object
      [("args", .nat args.toNat), ("results", .nat results.toNat)])]
  | .err => .text "Err"
  | .ret => .text "Return"
  | .load slot => .object [("Load", .nat slot.toNat)]
  | .store slot => .object [("Store", .nat slot.toNat)]
  | .frameDig offset => .object [("FrameDig", .int offset.toInt)]
  | .frameBury offset => .object [("FrameBury", .int offset.toInt)]
  | .instr name immediates =>
    .object [("Instr", .object
      [("name", .text name), ("immediates", .arr (immediates.map .text))])]

/-- Reads the line kinds without content. -/
def bare? : String → Option (Op String)
  | "Empty" => some .empty
  | "Retsub" => some .retsub
  | "Err" => some .err
  | "Return" => some .ret
  | _ => none

/-- Reads the content of a line kind. -/
def content? (kind : String) (depth : Nat) (v : Json) : Option (Op String) :=
  match kind with
  | "Comment" => (Decoder.string depth v).map .comment
  | "Pragma" =>
    Decoder.record ["version"] false (fun depth values =>
      match values with
      | [version] => (Decoder.required .byte depth version).map .pragma
      | _ => none) depth v
  | "Label" => (Decoder.string depth v).map .label
  | "Int" =>
    Decoder.record ["form", "value"] false (fun depth values =>
      match values with
      | [form, value] => do
        let form ← Decoder.required (.choice ConstForm.names) depth form
        let value ← Decoder.required (.nat UInt64.size) depth value
        some (.int form (UInt64.ofNat value))
      | _ => none) depth v
  | "Bytes" =>
    Decoder.record ["form", "value"] false (fun depth values =>
      match values with
      | [form, value] => do
        let form ← Decoder.required (.choice ConstForm.names) depth form
        let value ← Decoder.required (.list .byte) depth value
        some (.bytes form value)
      | _ => none) depth v
  | "Branch" =>
    Decoder.record ["kind", "target"] false (fun depth values =>
      match values with
      | [kind, target] => do
        let kind ← Decoder.required (.choice BranchKind.names) depth kind
        let target ← Decoder.required .string depth target
        some (.branch kind target)
      | _ => none) depth v
  | "Call" => (Decoder.string depth v).map .callsub
  | "Switch" => (Decoder.list .string depth v).map .switch
  | "Match" => (Decoder.list .string depth v).map .matchCases
  | "Proto" =>
    Decoder.record ["args", "results"] false (fun depth values =>
      match values with
      | [args, results] => do
        let args ← Decoder.required .byte depth args
        let results ← Decoder.required .byte depth results
        some (.proto args results)
      | _ => none) depth v
  | "Load" => (Decoder.byte depth v).map .load
  | "Store" => (Decoder.byte depth v).map .store
  | "FrameDig" => (Decoder.offset depth v).map .frameDig
  | "FrameBury" => (Decoder.offset depth v).map .frameBury
  | "Instr" =>
    Decoder.record ["name", "immediates"] false (fun depth values =>
      match values with
      | [name, immediates] => do
        let name ← Decoder.required .string depth name
        let immediates ← Decoder.required (.list .string) depth immediates
        some (.instr name immediates)
      | _ => none) depth v
  | kind =>
    match v with
    | .null => bare? kind
    | _ => none

end Op

namespace Expr

mutual

/-- A tree as JSON. -/
def toJson : Expr → Json
  | .line op => op.toJson
  | .block label body =>
    .object [("Block", .object
      [("label", match label with
        | some name => .text name
        | none => .null),
       ("body", .arr (toJsonAll body))])]
  | .subroutine name args results body =>
    .object [("Subroutine", .object
      [("name", .text name), ("args", .nat args.toNat), ("results", .nat results.toNat),
       ("body", .arr (toJsonAll body))])]

/-- Trees as JSON. -/
def toJsonAll : List Expr → List Json
  | [] => []
  | e :: es => toJson e :: toJsonAll es

end

/-- Reads a block, whose trees `inner` reads. -/
def blockDecoder (inner : Json → Option Expr) : Decoder Expr :=
  Decoder.record ["label", "body"] false fun depth values =>
    match values with
    | [label, body] => do
      let label ← Decoder.withDefault (.nullable .string) none depth label
      let body ← Decoder.required (.list fun _ => inner) depth body
      some (.block label body)
    | _ => none

/-- Reads a subroutine, whose trees `inner` reads. -/
def subroutineDecoder (inner : Json → Option Expr) : Decoder Expr :=
  Decoder.record ["name", "args", "results", "body"] false fun depth values =>
    match values with
    | [name, args, results, body] => do
      let name ← Decoder.required .string depth name
      let args ← Decoder.required .byte depth args
      let results ← Decoder.required .byte depth results
      let body ← Decoder.required (.list fun _ => inner) depth body
      some (.subroutine name args results body)
    | _ => none

/-- Reads a tree; `inner` reads the trees in its body, three levels further in. -/
def decoderWith (inner : Json → Option Expr) : Decoder Expr :=
  Decoder.variant fun kind depth content =>
    match kind, content with
    | kind, none => (Op.bare? kind).map .line
    | "Block", some v => blockDecoder inner depth v
    | "Subroutine", some v => subroutineDecoder inner depth v
    | kind, some v => (Op.content? kind depth v).map .line

/-- Reads a tree. -/
def decoder : Decoder Expr
  | depth + 3, v => decoderWith (decoder depth) (depth + 3) v
  | depth, v => decoderWith (fun _ => none) depth v

/-- The program a JSON text holds, if it is an array of trees. -/
def ofText? (text : String) : Option (List Expr) :=
  (Json.parse? text).bind (Decoder.list decoder).run

end Expr

end Teal
