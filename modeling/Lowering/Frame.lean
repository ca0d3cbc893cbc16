import Lowering.Text.Listing

/-!
# Stack frames

A frame hands out slots of eight bytes below the base pointer of a function,
one below the other. The size of a frame is what the function has to reserve:
the bytes of all slots, rounded up to a multiple of sixteen.
-/

namespace Lowering

/-- A place on the stack, by its distance from the base pointer in bytes. A collector has to
look at those that hold references. -/
structure FrameSlot where
  offset : Int
  holdsReference : Bool
deriving DecidableEq, Inhabited, Repr

namespace FrameSlot

def text (s : FrameSlot) : String :=
  if s.holdsReference then s!"{s.offset}(RBP) [ref]" else s!"{s.offset}(RBP)"

instance : ToString FrameSlot :=
  ⟨text⟩

end FrameSlot

/-- The slots that a function has been handed out, in order, and the offset of the last
one, zero at the start. No slot lies below the offset. -/
@[ext]
structure Frame where
  offset : Int
  slots : List FrameSlot
  offset_le : ∀ s ∈ slots, offset ≤ s.offset
deriving DecidableEq

namespace Frame

/-- The size of a slot in bytes. -/
def slotSize : Nat := 8

/-- The frame that has handed out nothing. -/
def empty : Frame where
  offset := 0
  slots := []
  offset_le := fun _ hs => absurd hs List.not_mem_nil

instance : Inhabited Frame :=
  ⟨empty⟩

def nextSlot (f : Frame) (holdsReference : Bool) : FrameSlot where
  offset := f.offset - slotSize
  holdsReference := holdsReference

/-- The frame after the next slot has been handed out. -/
def extend (f : Frame) (holdsReference : Bool) : Frame where
  offset := f.offset - slotSize
  slots := f.slots ++ [f.nextSlot holdsReference]
  offset_le := by
    intro s hs
    rcases List.mem_append.mp hs with hs | hs
    · exact Int.le_trans (Int.sub_le_self _ (Int.natCast_nonneg _)) (f.offset_le s hs)
    · rw [List.mem_singleton.mp hs]
      exact Int.le_refl _

/-- Hands out a fresh slot. -/
def allocate (f : Frame) (holdsReference : Bool) : FrameSlot × Frame :=
  (f.nextSlot holdsReference, f.extend holdsReference)

/-- Rounds a number of bytes up to a multiple of sixteen by clearing the low bits. -/
def alignUp (bytes : UInt64) : UInt64 :=
  (bytes + 15) &&& ~~~ 15

/-- The number of bytes that the function has to reserve. -/
def size (f : Frame) : UInt64 :=
  alignUp (.ofNat f.offset.natAbs)

def text (f : Frame) : String :=
  "Frame \x7b\n  allocated slots: " ++ Text.commaSeparated (f.slots.map FrameSlot.text) ++
    s!"\n  cur offset: {f.offset}\n\x7d"

end Frame

end Lowering
