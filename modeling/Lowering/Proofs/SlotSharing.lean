import Lowering.Proofs.ProperColoring
import Lowering.Proofs.ValidAllocation
import Lowering.Spill.Slots

/-!
# Slots are shared only without interference

The slots of spilled registers are taken from the frame below all slots that it
has handed out before, one for each color. So the offset of a slot tells its
color, and spilled registers that interfere have slots at different offsets.
-/

namespace Lowering

/-- A slot handed out by a frame lies at the offset. -/
def Frame.Owns (frame : Frame) (offset : Int) : Prop :=
  ∃ s ∈ frame.slots, s.offset = offset

theorem Frame.Owns.offset_le {frame : Frame} {offset : Int} (howns : frame.Owns offset) :
    frame.offset ≤ offset := by
  obtain ⟨s, hs, rfl⟩ := howns
  exact frame.offset_le s hs

namespace Spill

variable {frame frame' : Frame} {x : Interaction} {spilled : InsertionSet VirtualRegister}

/-- Slots that were taken for colors from a frame whose offset was `base`. -/
structure Taken (base : Int) (frame : Frame) (slots : InsertionMap Nat FrameSlot) : Prop where
  offset_le : frame.offset ≤ base
  bounds : ∀ c s, slots.get? c = some s → frame.offset ≤ s.offset ∧ s.offset < base
  color_eq : ∀ c d s t, slots.get? c = some s → slots.get? d = some t →
    s.offset = t.offset → c = d

theorem Taken.take {base : Int} {slots : InsertionMap Nat FrameSlot}
    (h : Taken base frame slots) (color : Nat) (kind : Bool) :
    Taken base (frame.extend kind) (slots.insert color (frame.nextSlot kind)) := by
  have hoffset : (frame.extend kind).offset < frame.offset := by
    simp only [Frame.extend, Frame.slotSize]
    omega
  have hnext : (frame.nextSlot kind).offset = (frame.extend kind).offset := rfl
  have hle := h.offset_le
  constructor
  case offset_le => omega
  case bounds =>
    intro c s hs
    rw [InsertionMap.get?_insert] at hs
    split_ifs at hs with hc
    · obtain rfl := Option.some.inj hs
      omega
    · have := h.bounds c s hs
      omega
  case color_eq =>
    intro c d s t hs ht heq
    rw [InsertionMap.get?_insert] at hs ht
    split_ifs at hs ht with hc hd hd
    · exact hc.trans hd.symm
    · obtain rfl := Option.some.inj hs
      have := h.bounds d t ht
      omega
    · obtain rfl := Option.some.inj ht
      have := h.bounds c s hs
      omega
    · exact h.color_eq c d s t hs ht heq

/-- Every color gets a slot, and the slots are fresh and different. -/
theorem taken_takeSlots (frame : Frame) (kinds : InsertionMap Nat Bool) :
    Taken frame.offset (takeSlots frame kinds).1 (takeSlots frame kinds).2 ∧
      ∀ c ∈ kinds, c ∈ (takeSlots frame kinds).2 := by
  have hfold : ∀ (l : List (Nat × Bool)) (state out : Frame × InsertionMap Nat FrameSlot),
      l.foldl (fun s e => (s.1.extend e.2, s.2.insert e.1 (s.1.nextSlot e.2))) state = out →
      Taken frame.offset state.1 state.2 →
      Taken frame.offset out.1 out.2 ∧ ∀ c, c ∈ state.2 ∨ c ∈ l.map Prod.fst → c ∈ out.2 := by
    intro l
    induction l with
    | nil =>
        rintro state _ rfl h
        exact ⟨h, fun c hc => hc.resolve_right List.not_mem_nil⟩
    | cons e l ih =>
        intro state out hout h
        obtain ⟨htaken, hmem⟩ := ih _ out hout (h.take e.1 e.2)
        refine ⟨htaken, fun c hc => hmem c ?_⟩
        rw [List.map_cons, List.mem_cons] at hc
        rw [InsertionMap.mem_insert, or_assoc, or_left_comm]
        exact hc
  have hstart : Taken frame.offset frame (∅ : InsertionMap Nat FrameSlot) :=
    ⟨Int.le_refl _, fun c s hs => by simp at hs, fun c d s t hs => by simp at hs⟩
  obtain ⟨htaken, hmem⟩ := hfold kinds.entries (frame, ∅) _ rfl hstart
  exact ⟨htaken, fun c hc => hmem c (.inr hc)⟩

/-- The slot of a color is for the kind of value that the color is for. -/
theorem holdsReference_of_takeSlots {kinds : InsertionMap Nat Bool} {c : Nat} {slot : FrameSlot}
    (h : (takeSlots frame kinds).2.get? c = some slot) :
    kinds.get? c = some slot.holdsReference := by
  have hfold : ∀ (l : List (Nat × Bool)) (state : Frame × InsertionMap Nat FrameSlot),
      (l.foldl (fun s e => (s.1.extend e.2, s.2.insert e.1 (s.1.nextSlot e.2))) state).2.get? c =
        some slot →
      (c, slot.holdsReference) ∈ l ∨ state.2.get? c = some slot := by
    intro l
    induction l with
    | nil => exact fun state h => .inr h
    | cons e l ih =>
        intro state h
        rcases ih _ h with hmem | hget
        · exact .inl (List.mem_cons_of_mem e hmem)
        · rw [InsertionMap.get?_insert] at hget
          split_ifs at hget with hc
          · obtain rfl := Option.some.inj hget
            exact .inl (hc ▸ List.mem_cons_self)
          · exact .inr hget
  apply InsertionMap.get?_eq_some_iff.mpr
  exact (hfold kinds.entries (frame, ∅) h).resolve_right (by simp)

section Kinds

variable {colors : InsertionMap VirtualRegister Nat} {found found' : InsertionMap Nat Bool}
  {v : VirtualRegister}

/-- A register is added under its color with its kind of value, and what was noted
stays as it is. -/
theorem addKind_eq_ok (h : addKind colors found v = .ok found') :
    (∃ c, colors.get? v = some c ∧ found'.get? c = some v.holdsReference) ∧
      ∀ c kind, found.get? c = some kind → found'.get? c = some kind := by
  unfold addKind at h
  split at h
  · simp at h
  next c hc =>
  split at h
  next hnone =>
    obtain rfl := Except.ok.inj h
    refine ⟨⟨c, hc, by simp [InsertionMap.get?_insert]⟩, fun d kind hd => ?_⟩
    have hne : d ≠ c := by
      rintro rfl
      simp [hnone] at hd
    rwa [InsertionMap.get?_insert, if_neg hne]
  next kind hkind =>
    split_ifs at h with hsame
    obtain rfl := Except.ok.inj h
    exact ⟨⟨c, hc, hsame ▸ hkind⟩, fun _ _ hd => hd⟩

theorem foldlM_addKind_eq_ok {l : List VirtualRegister}
    (h : l.foldlM (addKind colors) found = .ok found') :
    (∀ v ∈ l, ∃ c, colors.get? v = some c ∧ found'.get? c = some v.holdsReference) ∧
      ∀ c kind, found.get? c = some kind → found'.get? c = some kind := by
  induction l generalizing found with
  | nil =>
      obtain rfl := Except.ok.inj h
      exact ⟨fun _ hv => absurd hv List.not_mem_nil, fun _ _ hc => hc⟩
  | cons w l ih =>
      rw [List.foldlM_cons, bind_eq_ok_iff] at h
      obtain ⟨next, hw, h⟩ := h
      obtain ⟨⟨c, hcolor, hc⟩, hkept⟩ := addKind_eq_ok hw
      obtain ⟨hcolored, hkept'⟩ := ih h
      refine ⟨fun v hv => ?_, fun d kind hd => hkept' d kind (hkept d kind hd)⟩
      rcases List.mem_cons.mp hv with rfl | hv
      · exact ⟨c, hcolor, hkept' c _ hc⟩
      · exact hcolored v hv

/-- Each spilled register has a color that is for its kind of value. -/
theorem exists_color_of_kinds (h : kinds colors spilled = .ok found) (hv : v ∈ spilled) :
    ∃ c, colors.get? v = some c ∧ found.get? c = some v.holdsReference :=
  (foldlM_addKind_eq_ok h).1 v hv

end Kinds

/-- Slots that spilled registers may have: fresh ones, one for each register, and
different ones for registers that interfere. -/
structure SlotsFor (x : Interaction) (spilled : InsertionSet VirtualRegister) (base : Int)
    (slots : InsertionMap VirtualRegister FrameSlot) : Prop where
  mem_iff : ∀ v, v ∈ slots ↔ v ∈ spilled
  fresh : ∀ v s, slots.get? v = some s → s.offset < base
  eq_of_offset : ∀ v w s t, slots.get? v = some s → slots.get? w = some t →
    s.offset = t.offset → s = t
  apart : ∀ v w s t, .virtual w ∈ x.interference.neighbors (.virtual v) →
    slots.get? v = some s → slots.get? w = some t → s.offset ≠ t.offset

theorem slotsFor_empty {base : Int} (hempty : spilled.isEmpty = true) :
    SlotsFor x spilled base ∅ := by
  refine ⟨fun v => ?_, fun v s hs => ?_, fun v w s t hs => ?_, fun v w s t _ hs => ?_⟩
  · rw [InsertionSet.isEmpty, List.isEmpty_iff] at hempty
    simp [InsertionMap.mem_iff_exists_get?, InsertionSet.mem_iff, hempty]
  all_goals simp at hs

theorem mem_neighbors_restrict {g : Relation Register} {v w : VirtualRegister} :
    w ∈ (restrict g spilled).neighbors v ↔
      v ∈ spilled ∧ w ∈ spilled ∧ .virtual w ∈ g.neighbors (.virtual v) := by
  rw [restrict, Relation.neighbors, InsertionMap.get?_ofKeys]
  split_ifs with hv
  · rw [Option.getD_some, InsertionSet.mem_ofList, List.mem_filterMap]
    constructor
    · rintro ⟨r, hr, hw⟩
      cases r with
      | fixed b => simp at hw
      | virtual w' =>
          obtain ⟨hspilled, heq⟩ := Option.ite_none_right_eq_some.mp hw
          obtain rfl := Option.some.inj heq
          exact ⟨hv, hspilled, hr⟩
    · rintro ⟨-, hw, hr⟩
      exact ⟨.virtual w, hr, if_pos hw⟩
  · simp [hv]

theorem mem_mixedPairs_or {v w : VirtualRegister} :
    (v, w) ∈ mixedPairs spilled ∨ (w, v) ∈ mixedPairs spilled ↔
      v ∈ spilled ∧ w ∈ spilled ∧ v.holdsReference ≠ w.holdsReference := by
  simp only [mixedPairs, List.mem_filter, bne_iff_ne]
  constructor
  · rintro (⟨hvw, hne⟩ | ⟨hwv, hne⟩)
    · have hmem := (mem_orderedPairs.mp hvw).subset
      exact ⟨hmem (by simp), hmem (by simp), hne⟩
    · have hmem := (mem_orderedPairs.mp hwv).subset
      exact ⟨hmem (by simp), hmem (by simp), hne.symm⟩
  · rintro ⟨hv, hw, hne⟩
    rcases mem_orderedPairs_or hv hw fun heq => hne (congrArg _ heq) with h | h
    · exact .inl ⟨h, hne⟩
    · exact .inr ⟨h, hne.symm⟩

/-- Slots are kept apart for registers that interfere or are of different kinds. -/
theorem mem_neighbors_coloringProblem {v w : VirtualRegister} :
    w ∈ (coloringProblem x spilled).graph.neighbors v ↔
      v ∈ spilled ∧ w ∈ spilled ∧ (.virtual w ∈ x.interference.neighbors (.virtual v) ∨
        v.holdsReference ≠ w.holdsReference) := by
  refine Relation.mem_neighbors_addEdges.trans ?_
  rw [mem_neighbors_restrict, mem_mixedPairs_or, ← and_or_left, ← and_or_left]

variable {solver : Solver VirtualRegister Nat} {slots : InsertionMap VirtualRegister FrameSlot}

theorem get?_slots_of_colors {colors : InsertionMap VirtualRegister Nat}
    {taken : InsertionMap Nat FrameSlot} {v : VirtualRegister} {s : FrameSlot} :
    (InsertionMap.ofPartial spilled fun v => (colors.get? v).bind taken.get?).get? v = some s ↔
      v ∈ spilled ∧ ∃ c, colors.get? v = some c ∧ taken.get? c = some s := by
  rw [InsertionMap.get?_ofPartial, ← Option.bind_eq_some_iff]
  split_ifs with hv <;> simp [hv]

/-- Slots are taken for the colors of the spilled registers, and the slot of a register
is that of its color. -/
theorem assignSlots_cases (h : assignSlots solver frame x spilled = .ok (frame', slots)) :
    ∃ colors found, solver (coloringProblem x spilled) = .ok colors ∧
      kinds colors spilled = .ok found ∧ frame' = (takeSlots frame found).1 ∧
      slots = .ofPartial spilled fun v => (colors.get? v).bind (takeSlots frame found).2.get? := by
  obtain ⟨colors, hcolors, h⟩ := bind_eq_ok_iff.mp h
  obtain ⟨found, hfound, h⟩ := bind_eq_ok_iff.mp h
  rw [mapError_eq_ok_iff] at hcolors hfound
  obtain ⟨hframe, hslots⟩ := Prod.mk.inj (Except.ok.inj h)
  exact ⟨colors, found, hcolors, hfound, hframe.symm, hslots.symm⟩

/-- The slot of a spilled register is the one that was taken for its color. -/
theorem assignSlots_eq_ok (h : assignSlots solver frame x spilled = .ok (frame', slots)) :
    ∃ colors found, solver (coloringProblem x spilled) = .ok colors ∧
      kinds colors spilled = .ok found ∧
      ∀ v s, slots.get? v = some s ↔ v ∈ spilled ∧
        ∃ c, colors.get? v = some c ∧ (takeSlots frame found).2.get? c = some s := by
  obtain ⟨colors, found, hcolors, hfound, -, hslots⟩ := assignSlots_cases h
  exact ⟨colors, found, hcolors, hfound, fun v s => hslots ▸ get?_slots_of_colors⟩

/-- Slots for references are those of registers that hold one. -/
theorem holdsReference_of_assignSlots
    (h : assignSlots solver frame x spilled = .ok (frame', slots)) {v : VirtualRegister}
    {s : FrameSlot} (hs : slots.get? v = some s) : s.holdsReference = v.holdsReference := by
  obtain ⟨colors, found, -, hfound, hget⟩ := assignSlots_eq_ok h
  obtain ⟨hv, c, hcolor, hc⟩ := (hget v s).mp hs
  obtain ⟨d, hcolor', hd⟩ := exists_color_of_kinds hfound hv
  obtain rfl := Option.some.inj (hcolor.symm.trans hcolor')
  exact Option.some.inj ((holdsReference_of_takeSlots hc).symm.trans hd)

/-- The registers with slots are those that are spilled, whatever the solver. -/
theorem mem_of_assignSlots (h : assignSlots solver frame x spilled = .ok (frame', slots))
    (v : VirtualRegister) : v ∈ slots ↔ v ∈ spilled := by
  obtain ⟨colors, found, -, hfound, hget⟩ := assignSlots_eq_ok h
  rw [InsertionMap.mem_iff_exists_get?]
  constructor
  · rintro ⟨s, hs⟩
    exact ((hget v s).mp hs).1
  · intro hv
    obtain ⟨c, hcolor, hc⟩ := exists_color_of_kinds hfound hv
    obtain ⟨s, hs⟩ := InsertionMap.mem_iff_exists_get?.mp
      ((taken_takeSlots frame found).2 c (InsertionMap.mem_iff_exists_get?.mpr ⟨_, hc⟩))
    exact ⟨s, (hget v s).mpr ⟨hv, c, hcolor, hs⟩⟩

theorem slotsFor_of_assignSlots
    (h : assignSlots Coloring.firstFit frame x spilled = .ok (frame', slots)) :
    SlotsFor x spilled frame.offset slots := by
  obtain ⟨colors, found, hcolors, -, hget⟩ := assignSlots_eq_ok h
  obtain ⟨htaken, -⟩ := taken_takeSlots frame found
  constructor
  case mem_iff => exact mem_of_assignSlots h
  case fresh =>
    intro v s hs
    obtain ⟨-, c, -, hc⟩ := (hget v s).mp hs
    exact (htaken.bounds c s hc).2
  case eq_of_offset =>
    intro v w s t hs ht heq
    obtain ⟨-, c, -, hc⟩ := (hget v s).mp hs
    obtain ⟨-, d, -, hd⟩ := (hget w t).mp ht
    obtain rfl := htaken.color_eq c d s t hc hd heq
    exact Option.some.inj (hc.symm.trans hd)
  case apart =>
    intro v w s t hvw hs ht heq
    obtain ⟨hv, c, hcolor, hc⟩ := (hget v s).mp hs
    obtain ⟨hw, d, hcolor', hd⟩ := (hget w t).mp ht
    obtain rfl := htaken.color_eq c d s t hc hd heq
    have hnext := mem_neighbors_coloringProblem.mpr ⟨hv, hw, .inl hvw⟩
    exact Coloring.firstFit_proper rfl hcolors hnext hcolor hcolor'

end Spill

end Lowering
