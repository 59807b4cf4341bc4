import Mathlib.Data.Nat.Digits.Defs
import Teal.Catalog.Standard
import Teal.Proofs.Instruction
/-!
# Numbers and their bytes

`itob` writes a number as eight bytes, the highest first, and `btoi` reads at most eight bytes as a
number. Both are compared with `bytesValue`, the value of bytes without a bound: `btoi` computes it
(`toNat_ofBigEndian`), since the bytes read so far never reach into the byte that the next shift
pushes out (`toNat_foldl`), and eight bytes are determined by it (`eq_of_bytesValue_eq`). So the two
undo each other, but for the zeros that `itob` fills up with.
-/

namespace Teal.Opcode

/-- The value of bytes, the highest first. -/
def bytesValue (b : List UInt8) : Nat := Nat.ofDigits 256 (b.map UInt8.toNat).reverse

/-! ## Values of bytes -/

theorem bytesValue_cons (x : UInt8) (b : List UInt8) :
    bytesValue (x :: b) = bytesValue b + 256 ^ b.length * x.toNat := by
  rw [bytesValue, List.map_cons, Nat.ofDigits_reverse_cons, List.length_map, bytesValue]

theorem bytesValue_replicate (k : Nat) (b : List UInt8) :
    bytesValue (List.replicate k 0 ++ b) = bytesValue b := by
  rw [bytesValue, List.map_append, List.map_replicate, List.reverse_append, List.reverse_replicate]
  exact Nat.ofDigits_append_replicate_zero _

/-- As many bytes with the same value are the same bytes. -/
theorem eq_of_bytesValue_eq {b c : List UInt8} (hlength : b.length = c.length)
    (h : bytesValue b = bytesValue c) : b = c := by
  have hdigit (b : List UInt8) : ∀ d ∈ (b.map UInt8.toNat).reverse, d < 256 := by
    intro d hd
    obtain ⟨x, -, rfl⟩ := List.mem_map.1 (List.mem_reverse.1 hd)
    exact x.toNat_lt
  have hdigits : (b.map UInt8.toNat).reverse = (c.map UInt8.toNat).reverse :=
    Nat.ofDigits_inj_of_len_eq (by decide) (by simpa using hlength) (hdigit b) (hdigit c) h
  exact List.map_injective_iff.2 (fun _ _ => UInt8.toNat_inj.1) (List.reverse_injective hdigits)

/-! ## Reading -/

/-- One more byte, as long as the highest byte of the word is free. -/
theorem toNat_append_byte {acc : UInt64} (h : acc.toNat < 256 ^ 7) (x : UInt8) :
    (acc <<< 8 ||| x.toUInt64).toNat = 256 * acc.toNat + x.toNat := by
  have hshift : (acc <<< 8).toNat = acc.toNat <<< 8 := by
    have hlt : acc.toNat <<< 8 < 2 ^ 64 := by
      rw [Nat.shiftLeft_eq]
      omega
    exact (UInt64.toNat_shiftLeft acc 8).trans (Nat.mod_eq_of_lt hlt)
  rw [UInt64.toNat_or, hshift, UInt8.toNat_toUInt64, ← Nat.shiftLeft_add_eq_or_of_lt x.toNat_lt,
    Nat.shiftLeft_eq, Nat.mul_comm]

/-- Bytes that are read behind `k` others lose nothing, as long as there are eight at most. -/
theorem toNat_foldl {b : List UInt8} {acc : UInt64} {k : Nat} (hacc : acc.toNat < 256 ^ k)
    (h : k + b.length ≤ 8) :
    (b.foldl (fun (acc : UInt64) x => acc <<< 8 ||| x.toUInt64) acc).toNat =
      256 ^ b.length * acc.toNat + bytesValue b := by
  induction b generalizing acc k with
  | nil => simp [bytesValue]
  | cons x b ih =>
    rw [List.length_cons] at h
    have hfree : acc.toNat < 256 ^ 7 :=
      hacc.trans_le (Nat.pow_le_pow_right (by decide) (by omega))
    have hnext := toNat_append_byte hfree x
    have hbound : (acc <<< 8 ||| x.toUInt64).toNat < 256 ^ (k + 1) := by
      have := x.toNat_lt
      rw [hnext, pow_succ]
      omega
    rw [List.foldl_cons, ih hbound (by omega), hnext, bytesValue_cons, List.length_cons]
    ring

theorem toNat_ofBigEndian {b : List UInt8} (h : b.length ≤ 8) :
    (ofBigEndian b).toNat = bytesValue b := by
  have hzero : (0 : UInt64).toNat < 256 ^ 0 := by decide
  rw [ofBigEndian, toNat_foldl hzero (by omega), UInt64.toNat_zero, Nat.mul_zero, Nat.zero_add]

/-! ## Writing -/

/-- The byte that a shift brings down. -/
theorem toNat_byte {n k : UInt64} (hk : k.toNat < 64) :
    (n >>> k).toUInt8.toNat = n.toNat / 2 ^ k.toNat % 256 := by
  rw [UInt64.toNat_toUInt8, UInt64.toNat_shiftRight, Nat.mod_eq_of_lt hk, Nat.shiftRight_eq_div_pow]

/-- The lowest `k` bytes of a number are worth what is left of it modulo `256 ^ k`. -/
theorem ofDigits_lowest (n k : Nat) :
    Nat.ofDigits 256 ((List.range k).map fun i => n / 256 ^ i % 256) = n % 256 ^ k := by
  induction k with
  | zero => rw [pow_zero, Nat.mod_one, List.range_zero, List.map_nil, Nat.ofDigits_nil]
  | succ k ih =>
    rw [List.range_succ, List.map_append, List.map_singleton, Nat.ofDigits_append, ih,
      Nat.ofDigits_singleton, List.length_map, List.length_range, Nat.mod_pow_succ]

theorem bytesValue_bigEndian (n : UInt64) : bytesValue (bigEndian n) = n.toNat := by
  have hbytes : ((bigEndian n).map UInt8.toNat).reverse =
      (List.range 8).map fun i => n.toNat / 256 ^ i % 256 := by
    have hlowest : n.toUInt8.toNat = n.toNat / 256 ^ 0 % 256 := by
      rw [UInt64.toNat_toUInt8, pow_zero, Nat.div_one]
    simp (disch := decide) only [bigEndian, List.map_cons, List.map_nil, toNat_byte, hlowest]
    rfl
  rw [bytesValue, hbytes, ofDigits_lowest]
  exact Nat.mod_eq_of_lt n.toNat_lt

theorem length_bigEndian (n : UInt64) : (bigEndian n).length = 8 := rfl

theorem ofBigEndian_bigEndian (n : UInt64) : ofBigEndian (bigEndian n) = n := by
  rw [← UInt64.toNat_inj, toNat_ofBigEndian (length_bigEndian n).le, bytesValue_bigEndian]

theorem bigEndian_ofBigEndian {b : List UInt8} (h : b.length ≤ 8) :
    bigEndian (ofBigEndian b) = List.replicate (8 - b.length) 0 ++ b := by
  refine eq_of_bytesValue_eq ?_ ?_
  · rw [length_bigEndian, List.length_append, List.length_replicate]
    omega
  · rw [bytesValue_bigEndian, toNat_ofBigEndian h, bytesValue_replicate]

end Teal.Opcode

namespace Teal

/-- A value with the line that pushed it. -/
def Listing.pushed (l : Listing) (pc : Nat) (value : Value) : Cell :=
  { value, origin := some { pc, source := l.renderLine pc } }

section Lines
variable (l : Listing) (catalog : Catalog) (pc : Nat) (immediates : List String) (s : State)
  (origin : Option Origin) (rest : List Cell)

theorem run_itob (n : UInt64) :
    (Op.exec l catalog pc (.instr "itob" immediates)).run
        (s.withStack ({ value := .uint n, origin } :: rest)) =
      .ok (.goto (pc + 1)) (s.withStack (l.pushed pc (.bytes (Opcode.bigEndian n)) :: rest)) := by
  change (Op.exec l catalog pc (.instr Opcode.itob.name immediates)).run _ = _
  rw [Exec.exec_opcode]
  exact Exec.run_andNext_ok rfl

theorem run_btoi (b : List UInt8) :
    (Op.exec l catalog pc (.instr "btoi" immediates)).run
        (s.withStack ({ value := .bytes b, origin } :: rest)) =
      if 8 < b.length then .error (.tooLongForInteger b.length) (s.withStack rest)
      else
        .ok (.goto (pc + 1))
          (s.withStack (l.pushed pc (.uint (Opcode.ofBigEndian b)) :: rest)) := by
  change (Op.exec l catalog pc (.instr Opcode.btoi.name immediates)).run _ = _
  rw [Exec.exec_opcode]
  by_cases h : 8 < b.length
  · rw [if_pos h]
    refine Exec.run_andNext_error ?_
    change EStateM.run (if b.length > 8 then _ else _) (s.withStack rest) = _
    rw [if_pos h]
    rfl
  · rw [if_neg h]
    refine Exec.run_andNext_ok ?_
    change EStateM.run (if b.length > 8 then _ else _) (s.withStack rest) = _
    rw [if_neg h]
    rfl

end Lines

/-- `itob` and then `btoi` give a number back. At most eight bytes are read by `btoi` as the number
they write, and `itob` gives them back with zeros in front. `btoi` fails exactly on more than eight
bytes. -/
theorem conversions_invert (l : Listing) (catalog : Catalog) (pc pc' : Nat)
    (immediates immediates' : List String) (s : State) (origin : Option Origin)
    (rest : List Cell) :
    (∀ n : UInt64,
      (Op.exec l catalog pc (.instr "itob" immediates) >>= fun _ =>
          Op.exec l catalog pc' (.instr "btoi" immediates')).run
          (s.withStack ({ value := .uint n, origin } :: rest)) =
        .ok (.goto (pc' + 1)) (s.withStack (l.pushed pc' (.uint n) :: rest))) ∧
    (∀ b : List UInt8, b.length ≤ 8 →
      (∃ n : UInt64, n.toNat = Opcode.bytesValue b ∧
        (Op.exec l catalog pc (.instr "btoi" immediates)).run
            (s.withStack ({ value := .bytes b, origin } :: rest)) =
          .ok (.goto (pc + 1)) (s.withStack (l.pushed pc (.uint n) :: rest))) ∧
      (Op.exec l catalog pc (.instr "btoi" immediates) >>= fun _ =>
          Op.exec l catalog pc' (.instr "itob" immediates')).run
          (s.withStack ({ value := .bytes b, origin } :: rest)) =
        .ok (.goto (pc' + 1))
          (s.withStack (l.pushed pc' (.bytes (List.replicate (8 - b.length) 0 ++ b)) :: rest))) ∧
    ∀ b fault t,
      (Op.exec l catalog pc (.instr "btoi" immediates)).run
          (s.withStack ({ value := .bytes b, origin } :: rest)) = .error fault t ↔
        8 < b.length ∧ fault = .tooLongForInteger b.length ∧ t = s.withStack rest := by
  refine ⟨fun n => ?_, fun b h => ⟨⟨Opcode.ofBigEndian b, Opcode.toNat_ofBigEndian h, ?_⟩, ?_⟩,
    fun b fault t => ?_⟩
  · rw [EStateM.run_bind, run_itob]
    refine (run_btoi l catalog pc' _ s _ rest _).trans ?_
    rw [if_neg (by rw [Opcode.length_bigEndian]; decide), Opcode.ofBigEndian_bigEndian]
  · rw [run_btoi, if_neg (Nat.not_lt.2 h)]
  · rw [EStateM.run_bind, run_btoi, if_neg (Nat.not_lt.2 h)]
    refine (run_itob l catalog pc' _ s _ rest _).trans ?_
    rw [Opcode.bigEndian_ofBigEndian h]
  · rw [run_btoi]
    by_cases h : 8 < b.length
    · rw [if_pos h]
      simp [h, eq_comm]
    · rw [if_neg h]
      exact ⟨nofun, fun hlong => absurd hlong.1 h⟩

/-- Two bytes are read as 258 and come back as eight. -/
theorem conversions_invert_two_bytes :
    let l : Listing := { ops := [.instr "btoi" [], .instr "itob" []] }
    let s : State := { thread := { stack := [{ value := .bytes [1, 2] }] } }
    (∃ n : UInt64, n.toNat = 258 ∧
      (Op.exec l .standard 0 (.instr "btoi" [])).run s =
        .ok (.goto 1) (s.withStack [l.pushed 0 (.uint n)])) ∧
    (Op.exec l .standard 0 (.instr "btoi" []) >>= fun _ =>
        Op.exec l .standard 1 (.instr "itob" [])).run s =
      .ok (.goto 2) (s.withStack [l.pushed 1 (.bytes [0, 0, 0, 0, 0, 0, 1, 2])]) := by
  intro l s
  exact (conversions_invert l .standard 0 1 [] [] s none []).2.1 [1, 2] (by decide)

end Teal
