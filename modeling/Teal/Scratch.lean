import Teal.Value
/-!
# Scratch space

The numbered slots that all branches of a run share. Every slot holds zero at first.
-/

namespace Teal

/-- The 256 scratch slots. -/
structure Scratch where
  slots : Vector Cell 256
deriving DecidableEq

namespace Scratch

/-- What a slot holds before anything is stored in it. -/
def initial : Cell := { value := .uint 0 }

/-- Scratch space at the start of a run. -/
def fresh : Scratch := ⟨Vector.replicate 256 initial⟩

/-- What a slot holds; none if there is no such slot. -/
def get? (s : Scratch) (slot : Nat) : Option Cell :=
  s.slots[slot]?

/-- Scratch space with a slot overwritten; none if there is no such slot. -/
def set? (s : Scratch) (slot : Nat) (c : Cell) : Option Scratch :=
  if h : slot < 256 then some ⟨s.slots.set slot c h⟩ else none

/-- What the slot named by a byte holds. -/
def read (s : Scratch) (slot : UInt8) : Cell :=
  s.slots.get ⟨slot.toNat, slot.toNat_lt⟩

/-- Scratch space with the slot named by a byte overwritten. -/
def write (s : Scratch) (slot : UInt8) (c : Cell) : Scratch :=
  ⟨s.slots.set slot.toNat c slot.toNat_lt⟩

/-- The slots that something was stored in, as far as that can be seen: those that differ from the
initial zero, in order. -/
def touched (s : Scratch) : List (Nat × Cell) :=
  (s.slots.toList.zipIdx.filter fun (c, _) => c.value != .uint 0 || c.origin.isSome).map
    fun (c, i) => (i, c)

end Scratch

end Teal
