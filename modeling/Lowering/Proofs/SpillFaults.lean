import Lowering.Proofs.EnoughColors
import Lowering.Proofs.RetriedAllocation
import Lowering.Proofs.SlotPacking
import Lowering.Proofs.SpillShape

/-!
# When registers cannot be moved to the stack

There are as many colors for slots as spilled registers, so each of them gets one, and
references are kept apart from other values by edges of their own. Slots are therefore
always found, unless a register interferes with itself. What is left to go wrong are
the places of registers, and an instruction that leaves too few backup registers free
to work on.
-/

namespace Lowering

universe u

namespace Spill

variable {x : Interaction} {spilled : InsertionSet VirtualRegister}
  {colors : InsertionMap VirtualRegister Nat} {found : InsertionMap Nat Bool}
  {v : VirtualRegister}

/-! ## Slots are always found -/

theorem mem_vertices_coloringProblem :
    v ∈ (coloringProblem x spilled).vertices ↔ v ∈ spilled := by
  rw [ColoringProblem.vertices, Relation.mem_keys_symmetricClosure, Relation.Mentions]
  constructor
  · rintro (hkey | ⟨w, hw⟩)
    · rw [coloringProblem, Relation.mem_keys_addEdges, restrict, InsertionMap.keys_ofKeys] at hkey
      obtain hv | ⟨p, hp, hv⟩ := hkey
      · exact hv
      · have hmixed := mem_mixedPairs_or.mp (.inl hp)
        rcases hv with rfl | rfl
        · exact hmixed.1
        · exact hmixed.2.1
    · exact (mem_neighbors_coloringProblem.mp hw).2.1
  · intro hv
    rw [coloringProblem, Relation.mem_keys_addEdges, restrict, InsertionMap.keys_ofKeys]
    exact .inl (.inl hv)

theorem size_vertices_coloringProblem_le (x : Interaction)
    (spilled : InsertionSet VirtualRegister) :
    (coloringProblem x spilled).vertices.size ≤ (coloringProblem x spilled).allowed.length := by
  have hsubset : (coloringProblem x spilled).vertices.toList ⊆ spilled.toList :=
    fun _ hv => mem_vertices_coloringProblem.mp hv
  have hlength := (List.subperm_of_subset (InsertionSet.nodup _) hsubset).length_le
  rw [coloringProblem, List.length_range]
  exact hlength

/-- One color for each spilled register is enough. -/
theorem exists_slot_colors (hx : ∀ r, ¬ r ∈ x.interference.neighbors r)
    (spilled : InsertionSet VirtualRegister) :
    ∃ colors, Coloring.firstFit (coloringProblem x spilled) = .ok colors ∧
      ∀ v ∈ spilled, v ∈ colors := by
  have hloop : (coloringProblem x spilled).graph.selfLoop? = none := by
    rw [Relation.selfLoop?_eq_none_iff]
    rintro ⟨v, hv⟩
    obtain ⟨-, -, hself | hkind⟩ := mem_neighbors_coloringProblem.mp hv
    · exact hx _ hself
    · exact hkind rfl
  obtain ⟨colors, hok, hall⟩ := Coloring.firstFit_colors_all hloop List.nodup_range
    (size_vertices_coloringProblem_le x spilled)
  exact ⟨colors, hok, fun v hv => hall v (mem_vertices_coloringProblem.mpr hv)⟩

/-- The kinds of colors can be noted if registers with one color are of one kind. -/
theorem exists_foldlM_addKind {l : List VirtualRegister} (hcolored : ∀ v ∈ l, v ∈ colors)
    (hsame : ∀ v ∈ l, ∀ w ∈ l, colors.get? v = colors.get? w →
      v.holdsReference = w.holdsReference)
    (hfound : ∀ v ∈ l, ∀ c kind, colors.get? v = some c → found.get? c = some kind →
      kind = v.holdsReference) :
    ∃ found', l.foldlM (addKind colors) found = .ok found' := by
  induction l generalizing found with
  | nil => exact ⟨found, rfl⟩
  | cons v l ih =>
      rw [List.forall_mem_cons] at hcolored hfound
      obtain ⟨c, hc⟩ := InsertionMap.mem_iff_exists_get?.mp hcolored.1
      have hsame' : ∀ u ∈ l, ∀ w ∈ l, colors.get? u = colors.get? w →
          u.holdsReference = w.holdsReference := fun u hu w hw =>
        hsame u (List.mem_cons_of_mem v hu) w (List.mem_cons_of_mem v hw)
      cases hkind : found.get? c with
      | some kind =>
          have hadd : addKind colors found v = .ok found := by
            simp [addKind, hc, hkind, hfound.1 c kind hc hkind]
          rw [List.foldlM_cons, hadd]
          exact ih hcolored.2 hsame' hfound.2
      | none =>
          have hadd : addKind colors found v = .ok (found.insert c v.holdsReference) := by
            simp [addKind, hc, hkind]
          rw [List.foldlM_cons, hadd]
          refine ih hcolored.2 hsame' fun w hw d kind hd hget => ?_
          rw [InsertionMap.get?_insert] at hget
          split_ifs at hget with hdc
          · rw [← Option.some.inj hget]
            exact hsame v List.mem_cons_self w (List.mem_cons_of_mem v hw) (by rw [hc, hd, hdc])
          · exact hfound.2 w hw d kind hd hget

/-- Without a register that interferes with itself, slots are found. -/
theorem exists_assignSlots (hx : ∀ r, ¬ r ∈ x.interference.neighbors r) (frame : Frame)
    (spilled : InsertionSet VirtualRegister) :
    ∃ frame' slots, assignSlots Coloring.firstFit frame x spilled = .ok (frame', slots) := by
  obtain ⟨colors, hcolors, hall⟩ := exists_slot_colors hx spilled
  have hsame : ∀ v ∈ spilled.toList, ∀ w ∈ spilled.toList, colors.get? v = colors.get? w →
      v.holdsReference = w.holdsReference := by
    intro v hv w hw heq
    by_contra hkind
    obtain ⟨c, hc⟩ := InsertionMap.mem_iff_exists_get?.mp (hall v hv)
    have hnext : w ∈ (coloringProblem x spilled).graph.neighbors v :=
      mem_neighbors_coloringProblem.mpr ⟨hv, hw, .inr hkind⟩
    exact Coloring.firstFit_proper rfl hcolors hnext hc (heq ▸ hc)
  have hempty : ∀ v ∈ spilled.toList, ∀ c kind, colors.get? v = some c →
      (∅ : InsertionMap Nat Bool).get? c = some kind → kind = v.holdsReference := by
    intro v _ c kind _ hkind
    simp at hkind
  obtain ⟨found, hfound⟩ := exists_foldlM_addKind hall hsame hempty
  exact ⟨(takeSlots frame found).1, _, bind_eq_ok_iff.mpr ⟨colors, mapError_eq_ok_iff.mpr hcolors,
    bind_eq_ok_iff.mpr ⟨found, mapError_eq_ok_iff.mpr hfound, rfl⟩⟩⟩

/-! ## Instructions without an expansion -/

variable {Tree : Type u} {selection : Selection Tree}
  {slots : InsertionMap VirtualRegister FrameSlot} {backups : List HardwareRegister}
  {spills : InsertionSet Register} {i : Instruction} {f : Fragment}

/-- The number of backup registers that an instruction neither reads nor writes. -/
def freeCount (backups : List HardwareRegister) (i : Instruction) : Nat :=
  backups.countP fun b => decide (¬ .fixed b ∈ i.reads ++ i.writes)

/-- An instruction uses more spilled registers than it leaves backup registers free,
and it is not a copy within a slot. -/
def Overloads (spills : InsertionSet Register) (slots : InsertionMap VirtualRegister FrameSlot)
    (backups : List HardwareRegister) (i : Instruction) : Prop :=
  ¬ CopiesWithinSlot spills slots i ∧
    freeCount backups i < (distinctSpilled spills (i.reads ++ i.writes)).length

theorem length_freeBackups : (freeBackups backups i).length = freeCount backups i := by
  rw [freeBackups, freeCount, List.countP_eq_length_filter]
  simp only [List.mem_append, not_or]

theorem HaveSlots.size_usedSpilled (h : HaveSlots spills slots) :
    (usedSpilled slots i).size = (distinctSpilled spills (i.reads ++ i.writes)).length := by
  have hnodup : (distinctSpilled spills (i.reads ++ i.writes)).Nodup :=
    (InsertionSet.nodup _).filter _
  refine ((List.perm_ext_iff_of_nodup (InsertionSet.nodup _) hnodup).mpr fun r => ?_).length_eq
  rw [← InsertionSet.mem_iff, mem_usedSpilled, mem_distinctSpilled, h r]

theorem Overloads.touches (h : Overloads spills slots backups i) : Touches spills i := by
  obtain ⟨r, hr⟩ := List.exists_mem_of_length_pos (Nat.zero_lt_of_lt h.2)
  obtain ⟨hmem, hspilled⟩ := mem_distinctSpilled.mp hr
  exact ⟨r, hmem, hspilled⟩

/-- An instruction has no expansion exactly if it is overloaded. -/
theorem HaveSlots.expandInstruction_eq_error_iff (h : HaveSlots spills slots)
    {fault : SpillFault} : expandInstruction selection slots backups i = .error fault ↔
      Overloads spills slots backups i ∧
        fault = .tooFewBackups i (distinctSpilled spills (i.reads ++ i.writes)).length
          (freeCount backups i) := by
  rw [← h.size_usedSpilled, ← length_freeBackups]
  constructor
  · intro herror
    dsimp only [expandInstruction] at herror
    split_ifs at herror with huntouched hredundant hfew
    refine ⟨⟨mt h.copiesWithinSlot_iff.mp hredundant, ?_⟩, (Except.error.inj herror).symm⟩
    rw [← h.size_usedSpilled, ← length_freeBackups]
    exact hfew
  · rintro ⟨hover, rfl⟩
    have htouches := h.touches_iff.mp hover.touches
    have hredundant := mt h.copiesWithinSlot_iff.mpr hover.1
    have hfew := hover.2
    rw [← h.size_usedSpilled, ← length_freeBackups] at hfew
    dsimp only [expandInstruction]
    rw [htouches, if_neg Bool.false_ne_true, if_neg hredundant]
    exact if_pos hfew

/-- Code has no expansion exactly if one of its instructions is overloaded. -/
theorem HaveSlots.expandFragment_fails_iff (h : HaveSlots spills slots) :
    (∃ fault, expandFragment selection slots backups f = .error fault) ↔
      ∃ i ∈ f.instructions, Overloads spills slots backups i := by
  constructor
  · rintro ⟨fault, hfault⟩
    obtain ⟨i, hi, herror⟩ := expandFragment_failsOnlyWith f fault hfault
    exact ⟨i, hi, (h.expandInstruction_eq_error_iff.mp herror).1⟩
  · rintro ⟨i, hi, hover⟩
    cases hcode : expandFragment selection slots backups f with
    | error fault => exact ⟨fault, rfl⟩
    | ok code =>
        have hok := (expandFragment_eq_ok hcode).1 i hi
        rw [h.expandInstruction_eq_error_iff.mpr ⟨hover, rfl⟩] at hok
        cases hok

/-! ## What is wrong when spilling fails -/

section Faults

variable {solver : Solver VirtualRegister Nat} {frame frame' : Frame} {a : Allocation}

/-- What is wrong with code or allocation if a fault is reported. No instruction and no
allocation can be blamed for a missing slot or one of two kinds. -/
def Explains (a : Allocation) (slots : InsertionMap VirtualRegister FrameSlot)
    (backups : List HardwareRegister) (f : Fragment) : SpillFault → Prop
  | .backupAssigned b r => ∃ v, r = .virtual v ∧ a.place? r = some b ∧ b ∈ backups
  | .fixedSpilled b => .fixed b ∈ a.spills
  | .tooFewBackups i needed available => i ∈ f.instructions ∧
      Overloads a.spills slots backups i ∧
      needed = (distinctSpilled a.spills (i.reads ++ i.writes)).length ∧
      available = freeCount backups i
  | .noSlot _ => False
  | .mixedSlot _ => False

theorem checkAllocation_failsOnlyWith :
    FailsOnlyWith (Explains a slots backups f) (checkAllocation a backups) := by
  refine .bind (.rejectFirst ?_) fun _ => .rejectFirst ?_
  · rintro ⟨r, b⟩ he fault hfault
    obtain ⟨⟨hvirtual, hb⟩, heq⟩ := Option.ite_none_right_eq_some.mp hfault
    obtain rfl := Option.some.inj heq
    cases r with
    | fixed _ => simp [Register.isFixed, Register.fixed?] at hvirtual
    | virtual v => exact ⟨v, rfl, InsertionMap.get?_eq_some_iff.mpr he, hb⟩
  · intro r hr fault hfault
    obtain ⟨b, hb, rfl⟩ := Option.map_eq_some_iff.mp hfault
    obtain rfl := Register.fixed?_eq_some_iff.mp hb
    exact hr

/-- With slots at hand, moving registers to the stack fails like the expansion of the
code. -/
theorem moveToStack_eq_error_iff (hcheck : checkAllocation a backups = .ok ())
    (hassign : assignSlots solver frame x (spilledRegisters a) = .ok (frame', slots))
    {e : Error} : (moveToStack selection solver frame f x a backups).2 = .error e ↔
      ∃ fault, e = .spilling fault ∧
        expandFragment selection slots backups f = .error fault := by
  cases hempty : (spilledRegisters a).isEmpty with
  | false =>
      rw [moveToStack_of_assigned hcheck hempty hassign]
      cases expandFragment selection slots backups f with
      | error fault => simp [Except.mapError, Except.map, eq_comm]
      | ok code => simp [Except.mapError, Except.map]
  | true =>
      have hno : ∀ v, slots.get? v = none := by
        intro v
        refine InsertionMap.get?_eq_none.mpr fun hv => ?_
        rw [InsertionSet.isEmpty, List.isEmpty_iff] at hempty
        rw [mem_of_assignSlots hassign, InsertionSet.mem_iff, hempty] at hv
        exact List.not_mem_nil hv
      have hslot : ∀ r, slot? slots r = none := fun r => by
        cases r <;> simp [slot?, Register.virtual?, hno]
      rw [expandFragment_of_no_slots hslot]
      simp [moveToStack, hcheck, hempty]

theorem exists_blame_of_checkAllocation {fault : SpillFault}
    (h : checkAllocation a backups = .error fault) :
    (∃ v b, a.place? (.virtual v) = some b ∧ b ∈ backups) ∨ ∃ b, .fixed b ∈ a.spills := by
  by_contra hnone
  push Not at hnone
  have hok := checkAllocation_eq_ok_iff.mpr hnone
  rw [h] at hok
  cases hok

end Faults

end Spill

/-- Registers are moved to the stack unless the allocation or an instruction stands in
the way: a virtual register has its place in a backup register, a fixed register is
spilled, or an instruction uses more spilled registers than it leaves backup registers
free. Slots never stand in the way: there are colors for all spilled registers, and no
color is shared by a reference and another value. -/
theorem moveToStack_fails_iff_blamed {Tree : Type u} (selection : Selection Tree)
    (frame : Frame) (f : Fragment) {x : Interaction}
    (hx : ∀ r, ¬ r ∈ x.interference.neighbors r) (a : Allocation)
    (backups : List HardwareRegister) :
    ∃ colors frame' slots,
      Coloring.firstFit (Spill.coloringProblem x (Spill.spilledRegisters a)) = .ok colors ∧
      (∀ v ∈ Spill.spilledRegisters a, v ∈ colors) ∧
      Spill.assignSlots Coloring.firstFit frame x (Spill.spilledRegisters a) =
        .ok (frame', slots) ∧
      ((∃ e, (Spill.moveToStack selection Coloring.firstFit frame f x a backups).2 = .error e) ↔
        (∃ v b, a.place? (.virtual v) = some b ∧ b ∈ backups) ∨
        (∃ b, .fixed b ∈ a.spills) ∨
        ∃ i ∈ f.instructions, Spill.Overloads a.spills slots backups i) ∧
      ∀ e, (Spill.moveToStack selection Coloring.firstFit frame f x a backups).2 = .error e →
        ∃ fault, e = .spilling fault ∧ Spill.Explains a slots backups f fault := by
  obtain ⟨colors, hcolors, hall⟩ := Spill.exists_slot_colors hx (Spill.spilledRegisters a)
  obtain ⟨frame', slots, hassign⟩ :=
    Spill.exists_assignSlots hx frame (Spill.spilledRegisters a)
  refine ⟨colors, frame', slots, hcolors, hall, hassign, ?_⟩
  cases hcheck : Spill.checkAllocation a backups with
  | error fault =>
      have hmove : (Spill.moveToStack selection Coloring.firstFit frame f x a backups).2 =
          .error (.spilling fault) := by
        simp [Spill.moveToStack, hcheck]
      refine ⟨iff_of_true ⟨_, hmove⟩ ?_, fun e he => ?_⟩
      · exact (Spill.exists_blame_of_checkAllocation hcheck).imp_right .inl
      · obtain rfl := Except.error.inj (hmove.symm.trans he)
        exact ⟨fault, rfl, Spill.checkAllocation_failsOnlyWith fault hcheck⟩
  | ok _ =>
      obtain ⟨hplaces, hfixed⟩ := Spill.checkAllocation_eq_ok_iff.mp hcheck
      have hslots : Spill.HaveSlots a.spills slots :=
        Spill.mem_spills_iff_slot? hfixed (Spill.mem_of_assignSlots hassign)
      have hmove : ∀ e, (Spill.moveToStack selection Coloring.firstFit frame f x a backups).2 =
          .error e ↔ ∃ fault, e = .spilling fault ∧
            Spill.expandFragment selection slots backups f = .error fault :=
        fun _ => Spill.moveToStack_eq_error_iff hcheck hassign
      refine ⟨⟨?_, ?_⟩, fun e he => ?_⟩
      · rintro ⟨e, he⟩
        obtain ⟨fault, -, hfault⟩ := (hmove e).mp he
        exact .inr (.inr (hslots.expandFragment_fails_iff.mp ⟨fault, hfault⟩))
      · rintro (⟨v, b, hb, hmem⟩ | ⟨b, hb⟩ | hover)
        · exact absurd hmem (hplaces v b hb)
        · exact absurd hb (hfixed b)
        · obtain ⟨fault, hfault⟩ := hslots.expandFragment_fails_iff.mpr hover
          exact ⟨_, (hmove _).mpr ⟨fault, rfl, hfault⟩⟩
      · obtain ⟨fault, rfl, hfault⟩ := (hmove e).mp he
        obtain ⟨i, hi, herror⟩ := Spill.expandFragment_failsOnlyWith f fault hfault
        obtain ⟨hover, rfl⟩ := hslots.expandInstruction_eq_error_iff.mp herror
        exact ⟨_, rfl, hi, hover, rfl, rfl⟩

/-- An instruction that works on two values and on a register of its own. -/
def usesBackup : Instruction :=
  .operate (.compute "work" [.virtual ⟨0, false⟩, .virtual ⟨1, false⟩, .fixed .rax]
    [.virtual ⟨0, false⟩])

/-- A copy between registers that share a slot, then the instruction. -/
def usesBackupCode : Fragment where
  name := "f"
  blocks := [.unlinked ⟨"b"⟩
    [.operate (.copy ⟨.virtual ⟨2, false⟩, .virtual ⟨0, false⟩⟩), usesBackup]]

/-- The two values interfere. -/
def usesBackupInteraction : Interaction where
  registers := .ofList [.virtual ⟨0, false⟩, .virtual ⟨1, false⟩, .virtual ⟨2, false⟩]
  interference := .ofList [(.virtual ⟨0, false⟩, .ofList [.virtual ⟨1, false⟩])]
  copying := .ofList [(.virtual ⟨0, false⟩, .ofList [.virtual ⟨2, false⟩])]

/-- All three registers are to be spilled. -/
def usesBackupAllocation : Allocation where
  assigned := ∅
  spills := .ofList [.virtual ⟨0, false⟩, .virtual ⟨1, false⟩, .virtual ⟨2, false⟩]

/-- One of the two backup registers is in use, so the other one has to stand in for two
values. The copy needs none. -/
theorem usesBackup_overloads : ∃ slots,
    (Spill.moveToStack .sequential Coloring.firstFit .empty usesBackupCode usesBackupInteraction
      usesBackupAllocation [.rax, .rcx]).2 =
        .error (.spilling (.tooFewBackups usesBackup 2 1)) ∧
    Spill.Overloads usesBackupAllocation.spills slots [.rax, .rcx] usesBackup := by
  have hx : ∀ r, ¬ r ∈ usesBackupInteraction.interference.neighbors r := fun _ =>
    Relation.not_mem_neighbors_self (by decide)
  have hfault : (Spill.moveToStack .sequential Coloring.firstFit .empty usesBackupCode
      usesBackupInteraction usesBackupAllocation [.rax, .rcx]).2 =
        .error (.spilling (.tooFewBackups usesBackup 2 1)) := by decide +kernel
  obtain ⟨-, -, slots, -, -, -, -, hexplains⟩ := moveToStack_fails_iff_blamed .sequential .empty
    usesBackupCode hx usesBackupAllocation [.rax, .rcx]
  obtain ⟨fault, heq, hexplained⟩ := hexplains _ hfault
  obtain rfl := Error.spilling.inj heq
  exact ⟨slots, hfault, hexplained.2.1⟩

end Lowering
