import Teal.Catalog
/-!
# The standard catalog

The opcodes of the language up to version 10.
-/

namespace Teal.Catalog

/-- A catalog entry: name, first version, mode, cost, what it pops, what it pushes, operands. -/
def entry (name : String) (minVersion : UInt8) (mode : Mode) (cost : Nat)
    (pops pushes : List StackType) (immediates : Option Nat)
    (cost_pos : 0 < cost := by decide) : OpSpec :=
  { name, minVersion, mode, cost, pops, pushes, immediates, cost_pos }

/-- Branches, calls and returns. -/
def flow : List OpSpec :=
  [entry "err" 1 .any 1 [] [] (some 0),
   entry "bnz" 1 .any 1 [.uint64] [] (some 1),
   entry "bz" 2 .any 1 [.uint64] [] (some 1),
   entry "b" 2 .any 1 [] [] (some 1),
   entry "return" 2 .any 1 [.uint64] [] (some 0),
   entry "assert" 3 .any 1 [.uint64] [] (some 0),
   entry "callsub" 4 .any 1 [] [] (some 1),
   entry "retsub" 4 .any 1 [] [] (some 0),
   entry "proto" 8 .any 1 [] [] (some 2),
   entry "switch" 8 .any 1 [.uint64] [] none,
   entry "match" 8 .any 1 [] [] none]

/-- Numbers and truth values. -/
def arithmetic : List OpSpec :=
  [entry "+" 1 .any 1 [.uint64, .uint64] [.uint64] (some 0),
   entry "-" 1 .any 1 [.uint64, .uint64] [.uint64] (some 0),
   entry "*" 1 .any 1 [.uint64, .uint64] [.uint64] (some 0),
   entry "/" 1 .any 1 [.uint64, .uint64] [.uint64] (some 0),
   entry "%" 1 .any 1 [.uint64, .uint64] [.uint64] (some 0),
   entry "<" 1 .any 1 [.uint64, .uint64] [.uint64] (some 0),
   entry ">" 1 .any 1 [.uint64, .uint64] [.uint64] (some 0),
   entry "<=" 1 .any 1 [.uint64, .uint64] [.uint64] (some 0),
   entry ">=" 1 .any 1 [.uint64, .uint64] [.uint64] (some 0),
   entry "&&" 1 .any 1 [.uint64, .uint64] [.uint64] (some 0),
   entry "||" 1 .any 1 [.uint64, .uint64] [.uint64] (some 0),
   entry "==" 1 .any 1 [.any, .any] [.uint64] (some 0),
   entry "!=" 1 .any 1 [.any, .any] [.uint64] (some 0),
   entry "!" 1 .any 1 [.uint64] [.uint64] (some 0),
   entry "|" 1 .any 1 [.uint64, .uint64] [.uint64] (some 0),
   entry "&" 1 .any 1 [.uint64, .uint64] [.uint64] (some 0),
   entry "^" 1 .any 1 [.uint64, .uint64] [.uint64] (some 0),
   entry "~" 1 .any 1 [.uint64] [.uint64] (some 0),
   entry "mulw" 1 .any 1 [.uint64, .uint64] [.uint64, .uint64] (some 0),
   entry "addw" 2 .any 1 [.uint64, .uint64] [.uint64, .uint64] (some 0),
   entry "divmodw" 4 .any 20 [.uint64, .uint64, .uint64, .uint64]
     [.uint64, .uint64, .uint64, .uint64] (some 0),
   entry "shl" 4 .any 1 [.uint64, .uint64] [.uint64] (some 0),
   entry "shr" 4 .any 1 [.uint64, .uint64] [.uint64] (some 0),
   entry "sqrt" 4 .any 4 [.uint64] [.uint64] (some 0),
   entry "bitlen" 4 .any 1 [.any] [.uint64] (some 0),
   entry "exp" 4 .any 1 [.uint64, .uint64] [.uint64] (some 0)]

/-- Byte strings. -/
def byteStrings : List OpSpec :=
  [entry "len" 1 .any 1 [.bytes] [.uint64] (some 0),
   entry "itob" 1 .any 1 [.uint64] [.bytes] (some 0),
   entry "btoi" 1 .any 1 [.bytes] [.uint64] (some 0),
   entry "concat" 2 .any 1 [.bytes, .bytes] [.bytes] (some 0),
   entry "substring" 2 .any 1 [.bytes] [.bytes] (some 2),
   entry "substring3" 2 .any 1 [.bytes, .uint64, .uint64] [.bytes] (some 0),
   entry "getbit" 3 .any 1 [.any, .uint64] [.uint64] (some 0),
   entry "setbit" 3 .any 1 [.any, .uint64, .uint64] [.any] (some 0),
   entry "getbyte" 3 .any 1 [.bytes, .uint64] [.uint64] (some 0),
   entry "setbyte" 3 .any 1 [.bytes, .uint64, .uint64] [.bytes] (some 0),
   entry "extract" 5 .any 1 [.bytes] [.bytes] (some 2),
   entry "b+" 4 .any 10 [.bytes, .bytes] [.bytes] (some 0),
   entry "b-" 4 .any 10 [.bytes, .bytes] [.bytes] (some 0),
   entry "b==" 4 .any 1 [.bytes, .bytes] [.uint64] (some 0),
   entry "bsqrt" 6 .any 40 [.bytes] [.bytes] (some 0),
   entry "base64_decode" 7 .any 1 [.bytes] [.bytes] (some 1),
   entry "json_ref" 7 .any 25 [.bytes, .bytes] [.any] (some 1)]

/-- Hashes and signatures. -/
def cryptography : List OpSpec :=
  [entry "sha256" 1 .any 35 [.bytes] [.bytes] (some 0),
   entry "keccak256" 1 .any 130 [.bytes] [.bytes] (some 0),
   entry "sha512_256" 1 .any 45 [.bytes] [.bytes] (some 0),
   entry "sha3_256" 7 .any 130 [.bytes] [.bytes] (some 0),
   entry "ed25519verify" 1 .any 1900 [.bytes, .bytes, .bytes] [.uint64] (some 0),
   entry "ed25519verify_bare" 7 .any 1900 [.bytes, .bytes, .bytes] [.uint64] (some 0),
   entry "ecdsa_verify" 5 .any 1700 [.bytes, .bytes, .bytes, .bytes, .bytes] [.uint64] (some 1),
   entry "vrf_verify" 7 .any 5700 [.bytes, .bytes, .bytes] [.bytes, .uint64] (some 1)]

/-- Constants and program arguments. -/
def constants : List OpSpec :=
  [entry "intcblock" 1 .any 1 [] [] none,
   entry "intc" 1 .any 1 [] [.uint64] (some 1),
   entry "intc_0" 1 .any 1 [] [.uint64] (some 0),
   entry "intc_1" 1 .any 1 [] [.uint64] (some 0),
   entry "intc_2" 1 .any 1 [] [.uint64] (some 0),
   entry "intc_3" 1 .any 1 [] [.uint64] (some 0),
   entry "bytecblock" 1 .any 1 [] [] none,
   entry "bytec" 1 .any 1 [] [.bytes] (some 1),
   entry "bytec_0" 1 .any 1 [] [.bytes] (some 0),
   entry "bytec_1" 1 .any 1 [] [.bytes] (some 0),
   entry "bytec_2" 1 .any 1 [] [.bytes] (some 0),
   entry "bytec_3" 1 .any 1 [] [.bytes] (some 0),
   entry "int" 1 .any 1 [] [.uint64] (some 1),
   entry "byte" 1 .any 1 [] [.bytes] (some 1),
   entry "pushint" 3 .any 1 [] [.uint64] (some 1),
   entry "pushbytes" 3 .any 1 [] [.bytes] (some 1),
   entry "pushints" 8 .any 1 [] [] none,
   entry "pushbytess" 8 .any 1 [] [] none,
   entry "arg" 1 .signature 1 [] [.bytes] (some 1),
   entry "arg_0" 1 .signature 1 [] [.bytes] (some 0),
   entry "arg_1" 1 .signature 1 [] [.bytes] (some 0),
   entry "arg_2" 1 .signature 1 [] [.bytes] (some 0),
   entry "arg_3" 1 .signature 1 [] [.bytes] (some 0),
   entry "args" 5 .signature 1 [.uint64] [.bytes] (some 0)]

/-- Transactions, accounts, assets, applications and boxes. -/
def chainState : List OpSpec :=
  [entry "txn" 1 .any 1 [] [.any] (some 1),
   entry "gtxn" 1 .any 1 [] [.any] (some 2),
   entry "txna" 2 .any 1 [] [.any] (some 2),
   entry "gtxns" 3 .any 1 [.uint64] [.any] (some 1),
   entry "global" 1 .any 1 [] [.any] (some 1),
   entry "gaid" 4 .application 1 [] [.uint64] (some 1),
   entry "balance" 2 .application 1 [.any] [.uint64] (some 0),
   entry "min_balance" 3 .application 1 [.any] [.uint64] (some 0),
   entry "app_opted_in" 2 .application 1 [.any, .uint64] [.uint64] (some 0),
   entry "app_local_get" 2 .application 1 [.any, .bytes] [.any] (some 0),
   entry "app_local_put" 2 .application 1 [.any, .bytes, .any] [] (some 0),
   entry "app_local_del" 2 .application 1 [.any, .bytes] [] (some 0),
   entry "app_global_get" 2 .application 1 [.bytes] [.any] (some 0),
   entry "app_global_put" 2 .application 1 [.bytes, .any] [] (some 0),
   entry "app_global_del" 2 .application 1 [.bytes] [] (some 0),
   entry "asset_holding_get" 2 .application 1 [.any, .uint64] [.any, .uint64] (some 1),
   entry "asset_params_get" 2 .application 1 [.uint64] [.any, .uint64] (some 1),
   entry "log" 5 .application 1 [.bytes] [] (some 0),
   entry "itxn_begin" 5 .application 1 [] [] (some 0),
   entry "itxn_field" 5 .application 1 [.any] [] (some 1),
   entry "itxn_submit" 5 .application 1 [] [] (some 0),
   entry "itxn" 5 .application 1 [] [.any] (some 1),
   entry "box_create" 8 .application 1 [.bytes, .uint64] [.uint64] (some 0),
   entry "box_get" 8 .application 1 [.bytes] [.bytes, .uint64] (some 0),
   entry "box_put" 8 .application 1 [.bytes, .bytes] [] (some 0),
   entry "box_del" 8 .application 1 [.bytes] [.uint64] (some 0),
   entry "block" 7 .any 1 [.uint64] [.any] (some 1)]

/-- Opcodes that only move values on the stack. -/
def stackShuffling : List OpSpec :=
  [entry "pop" 1 .any 1 [.any] [] (some 0),
   entry "dup" 1 .any 1 [.any] [.any, .any] (some 0),
   entry "dup2" 2 .any 1 [.any, .any] [.any, .any, .any, .any] (some 0),
   entry "swap" 3 .any 1 [.any, .any] [.any, .any] (some 0),
   entry "select" 3 .any 1 [.any, .any, .uint64] [.any] (some 0),
   entry "dig" 3 .any 1 [.any] [.any, .any] (some 1),
   entry "cover" 5 .any 1 [.any] [.any] (some 1),
   entry "uncover" 5 .any 1 [.any] [.any] (some 1),
   entry "bury" 8 .any 1 [.any] [] (some 1),
   entry "popn" 8 .any 1 [] [] (some 1),
   entry "dupn" 8 .any 1 [.any] [] (some 1),
   entry "frame_dig" 8 .any 1 [] [.any] (some 1),
   entry "frame_bury" 8 .any 1 [.any] [] (some 1)]

/-- Scratch slots. -/
def scratchSpace : List OpSpec :=
  [entry "load" 1 .any 1 [] [.any] (some 1),
   entry "store" 1 .any 1 [.any] [] (some 1),
   entry "loads" 5 .any 1 [.uint64] [.any] (some 0),
   entry "stores" 5 .any 1 [.uint64, .any] [] (some 0)]

/-- The opcodes of the language. -/
def standard : Catalog where
  specs := flow ++ arithmetic ++ byteStrings ++ cryptography ++ constants ++ chainState ++
    stackShuffling ++ scratchSpace

end Teal.Catalog
