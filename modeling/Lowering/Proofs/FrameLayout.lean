import Lowering.Frame
import Mathlib.Data.Nat.Bitwise
import Mathlib.Data.Set.Lattice
import Mathlib.Order.Bounds.Basic
import Mathlib.Order.CompletePartialOrder

/-!
# Slots fit the frame

The slots that a new frame hands out lie one below the other from the base pointer on,
so no two of them overlap, and the offset of the frame is that of the lowest one. The
size of the frame is that distance rounded up to a multiple of sixteen, which leaves room
for all slots, also if their number is odd.

Offsets are numbers without bounds here. As long as they and their absolute values are
signed words of 64 bits, the words from which the size is computed hold the numbers that
they stand for.
-/

namespace Lowering

/-- The bytes of a slot, by their distance from the base pointer. -/
def FrameSlot.bytes (s : FrameSlot) : Set Int :=
  {b | s.offset ≤ b ∧ b < s.offset + Frame.slotSize}

namespace Frame

variable {f : Frame}

/-- Hands out one slot for each flag in turn. -/
def allocateAll (f : Frame) : List Bool → List FrameSlot × Frame
  | [] => ([], f)
  | flag :: flags =>
    let (slot, f) := f.allocate flag
    let (slots, f) := f.allocateAll flags
    (slot :: slots, f)

/-! ## What a frame hands out -/

theorem map_holdsReference_allocateAll (f : Frame) (flags : List Bool) :
    (f.allocateAll flags).1.map FrameSlot.holdsReference = flags := by
  induction flags generalizing f with
  | nil => rfl
  | cons flag flags ih => exact congrArg (flag :: ·) (ih (f.extend flag))

/-- A frame records the slots that it hands out, behind those it had before. -/
theorem slots_allocateAll (f : Frame) (flags : List Bool) :
    (f.allocateAll flags).2.slots = f.slots ++ (f.allocateAll flags).1 := by
  induction flags generalizing f with
  | nil => exact (List.append_nil _).symm
  | cons flag flags ih =>
      have hrest := ih (f.extend flag)
      rwa [extend, List.append_assoc] at hrest

theorem allocateAll_append (f : Frame) (earlier later : List Bool) :
    (f.allocateAll (earlier ++ later)).2 = ((f.allocateAll earlier).2.allocateAll later).2 := by
  induction earlier generalizing f with
  | nil => rfl
  | cons flag earlier ih => exact ih (f.extend flag)

/-! ## Where the slots lie -/

/-- The slots of a frame lie one below the other, from the base pointer down to the
offset of the frame, and are as many as fit there. -/
structure Stacked (f : Frame) : Prop where
  offset_eq : f.offset = -(slotSize * f.slots.length : Nat)
  below : f.slots.Pairwise fun s t : FrameSlot => t.offset + slotSize ≤ s.offset
  bounds : ∀ s ∈ f.slots, f.offset ≤ s.offset ∧ s.offset + slotSize ≤ 0

theorem stacked_empty : empty.Stacked :=
  ⟨rfl, .nil, fun _ hs => absurd hs List.not_mem_nil⟩

theorem Stacked.extend (h : f.Stacked) (flag : Bool) : (f.extend flag).Stacked := by
  have hoffset := h.offset_eq
  constructor
  case offset_eq =>
    simp only [Frame.extend, List.length_append, List.length_singleton, slotSize] at hoffset ⊢
    omega
  case below =>
    refine List.pairwise_append.mpr ⟨h.below, List.pairwise_singleton _ _, fun s hs t ht => ?_⟩
    obtain rfl := List.mem_singleton.mp ht
    have hs := (h.bounds s hs).1
    simp only [nextSlot]
    omega
  case bounds =>
    intro s hs
    rcases List.mem_append.mp hs with hs | hs
    · have hold := h.bounds s hs
      simp only [Frame.extend]
      omega
    · obtain rfl := List.mem_singleton.mp hs
      simp only [Frame.extend, nextSlot]
      omega

theorem Stacked.allocateAll (h : f.Stacked) (flags : List Bool) :
    (f.allocateAll flags).2.Stacked := by
  induction flags generalizing f with
  | nil => exact h
  | cons flag flags ih => exact ih (h.extend flag)

theorem Stacked.disjoint (h : f.Stacked) :
    f.slots.Pairwise fun s t => Disjoint s.bytes t.bytes :=
  h.below.imp fun hbelow => Set.disjoint_left.mpr fun b hs ht => by
    have := hs.1
    have := ht.2
    omega

theorem Stacked.byte_bounds (h : f.Stacked) {s : FrameSlot} (hs : s ∈ f.slots) {b : Int}
    (hb : b ∈ s.bytes) : f.offset ≤ b ∧ b < 0 :=
  ⟨Int.le_trans (h.bounds s hs).1 hb.1, Int.lt_of_lt_of_le hb.2 (h.bounds s hs).2⟩

/-! ## The size -/

/-- Clearing the four low bits rounds down to a multiple of sixteen. -/
theorem and_clearLow {n : Nat} (h : n < 2 ^ 64) : n &&& (2 ^ 64 - 16) = n / 16 * 16 := by
  have hmask : 2 ^ 64 - 16 = (2 ^ 60 - 1) * 2 ^ 4 := by decide
  have hround : n / 16 * 16 = n / 2 ^ 4 * 2 ^ 4 := rfl
  apply Nat.eq_of_testBit_eq
  intro j
  rw [hmask, hround, Nat.testBit_and, Nat.testBit_mul_two_pow, Nat.testBit_mul_two_pow,
    Nat.testBit_two_pow_sub_one, Nat.testBit_div_two_pow]
  by_cases hlow : 4 ≤ j
  · by_cases hj : j < 64
    · have hmasked : j - 4 < 60 := by omega
      simp [hlow, hmasked]
    · have hbit : n.testBit j = false :=
        Nat.testBit_lt_two_pow (h.trans_le (Nat.pow_le_pow_right (by decide) (not_lt.mp hj)))
      simp [hlow, hbit]
  · simp [hlow]

theorem toNat_alignUp {bytes : UInt64} (h : (bytes + 15).toNat = bytes.toNat + 15) :
    (alignUp bytes).toNat = (bytes.toNat + 15) / 16 * 16 := by
  have hmask : (~~~ 15 : UInt64).toNat = 2 ^ 64 - 16 := by decide
  rw [alignUp, UInt64.toNat_and, hmask, and_clearLow (UInt64.toNat_lt _), h]

/-- The words that the size is computed from hold the number of bytes of all slots, and
fifteen more. -/
theorem Stacked.toNat_words (h : f.Stacked) (hword : -2 ^ 63 < f.offset) :
    (UInt64.ofNat f.offset.natAbs).toNat = slotSize * f.slots.length ∧
      (UInt64.ofNat f.offset.natAbs + 15).toNat = slotSize * f.slots.length + 15 := by
  have hoffset := h.offset_eq
  have habs : f.offset.natAbs = slotSize * f.slots.length := by omega
  have hbytes : (UInt64.ofNat f.offset.natAbs).toNat = slotSize * f.slots.length := by
    have hlt : slotSize * f.slots.length < UInt64.size := by
      rw [UInt64.size]
      omega
    rw [habs, UInt64.toNat_ofNat_of_lt' hlt]
  have hsum : slotSize * f.slots.length + 15 < 2 ^ 64 := by omega
  refine ⟨hbytes, ?_⟩
  rw [UInt64.toNat_add, hbytes]
  exact Nat.mod_eq_of_lt hsum

/-- The size of a frame is the least multiple of sixteen that has room for all slots. -/
theorem Stacked.isLeast_size (h : f.Stacked) (hword : -2 ^ 63 < f.offset) :
    IsLeast {m : Nat | 16 ∣ m ∧ slotSize * f.slots.length ≤ m} f.size.toNat := by
  obtain ⟨hbytes, hsum⟩ := h.toNat_words hword
  have hsize : f.size.toNat = (slotSize * f.slots.length + 15) / 16 * 16 := by
    rw [size, toNat_alignUp (hsum.trans (by rw [hbytes])), hbytes]
  constructor
  · exact ⟨⟨_, hsize.trans (Nat.mul_comm _ _)⟩, by omega⟩
  · rintro m ⟨hdvd, hroom⟩
    omega

/-- Handing out more slots does not make a frame smaller. -/
theorem Stacked.size_le_allocateAll (h : f.Stacked) (flags : List Bool)
    (hword : -2 ^ 63 < (f.allocateAll flags).2.offset) : f.size ≤ (f.allocateAll flags).2.size := by
  have hafter := h.allocateAll flags
  have hmore : slotSize * f.slots.length ≤ slotSize * (f.allocateAll flags).2.slots.length := by
    rw [slots_allocateAll, List.length_append]
    exact Nat.mul_le_mul_left _ (Nat.le_add_right _ _)
  have hbefore : -2 ^ 63 < f.offset := by
    have := h.offset_eq
    have := hafter.offset_eq
    omega
  obtain ⟨hdvd, hroom⟩ := (hafter.isLeast_size hword).1
  exact UInt64.le_iff_toNat_le.mpr ((h.isLeast_size hbefore).2 ⟨hdvd, hmore.trans hroom⟩)

/-- The slots that a new frame hands out carry the flags that were asked for. They do not
overlap, lie below the base pointer and within the size of the frame, and are recorded in
order. The size is the least multiple of sixteen with room for all slots, it is computed
without overflow, and it never decreases. All this holds as long as offsets and their
absolute values are signed words of 64 bits. -/
theorem allocateAll_fits_frame (flags : List Bool)
    (hword : -2 ^ 63 < (empty.allocateAll flags).2.offset) :
    let slots := (empty.allocateAll flags).1
    let f := (empty.allocateAll flags).2
    slots.map FrameSlot.holdsReference = flags ∧
    f.slots = slots ∧
    slots.Pairwise (fun s t => Disjoint s.bytes t.bytes) ∧
    (∀ s ∈ slots, ∀ b ∈ s.bytes, -f.size.toNat ≤ b ∧ b < 0) ∧
    IsLeast {m : Nat | 16 ∣ m ∧ slotSize * slots.length ≤ m} f.size.toNat ∧
    ((UInt64.ofNat f.offset.natAbs).toNat = slotSize * slots.length ∧
      (UInt64.ofNat f.offset.natAbs + 15).toNat = slotSize * slots.length + 15) ∧
    ∀ earlier later, flags = earlier ++ later → (empty.allocateAll earlier).2.size ≤ f.size := by
  intro slots f
  have hslots : f.slots = slots := slots_allocateAll empty flags
  have hstacked : f.Stacked := stacked_empty.allocateAll flags
  have hleast := hstacked.isLeast_size hword
  refine ⟨map_holdsReference_allocateAll empty flags, hslots, hslots ▸ hstacked.disjoint, ?_,
    hslots ▸ hleast, hslots ▸ hstacked.toNat_words hword, ?_⟩
  · intro s hs b hb
    have hroom : slotSize * f.slots.length ≤ f.size.toNat := hleast.1.2
    have hoffset := hstacked.offset_eq
    have hbounds := hstacked.byte_bounds (hslots ▸ hs) hb
    omega
  · rintro earlier later rfl
    have hlater : f = ((empty.allocateAll earlier).2.allocateAll later).2 :=
      allocateAll_append empty earlier later
    rw [hlater]
    exact (stacked_empty.allocateAll earlier).size_le_allocateAll later (hlater ▸ hword)

/-- With three slots the last one is the first of its sixteen bytes, and the frame has
room for a fourth one. -/
theorem three_slots_fit :
    (empty.allocateAll [false, true, false]).2.slots =
      [⟨-8, false⟩, ⟨-16, true⟩, ⟨-24, false⟩] ∧
    (empty.allocateAll [false, true, false]).2.size = 32 ∧
    IsLeast {m : Nat | 16 ∣ m ∧ 24 ≤ m} 32 ∧
    ∀ b ∈ FrameSlot.bytes ⟨-24, false⟩, -32 ≤ b ∧ b < 0 := by
  have hfits := allocateAll_fits_frame [false, true, false] (by decide)
  obtain ⟨-, -, -, hinside, hleast, -⟩ := hfits
  exact ⟨by decide, by decide, hleast, hinside ⟨-24, false⟩ (by decide)⟩

end Frame

end Lowering
