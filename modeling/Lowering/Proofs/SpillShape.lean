import Lowering.Proofs.SpillRewriting

/-!
# The shape of code with spills

Blocks keep their labels and edges, and the code of a block is made of the images of
its instructions, in their order. An instruction without spilled registers is its own
image. A copy within a slot has an empty image. Any other instruction loads the
spilled registers that it reads, does its work on backup registers that it does not
use itself, and stores the spilled registers that it writes.
-/

namespace Lowering

universe u

namespace Spill

variable {Tree : Type u} {selection : Selection Tree}
  {slots : InsertionMap VirtualRegister FrameSlot} {backups : List HardwareRegister}
  {spills : InsertionSet Register} {i : Instruction} {code : List Instruction} {r : Register}

/-! ## Images of instructions -/

/-- Some register that the instruction reads or writes is spilled. -/
def Touches (spills : InsertionSet Register) (i : Instruction) : Prop :=
  ∃ r ∈ i.reads ++ i.writes, r ∈ spills

/-- The instruction copies between spilled registers that share a slot. -/
def CopiesWithinSlot (spills : InsertionSet Register)
    (slots : InsertionMap VirtualRegister FrameSlot) (i : Instruction) : Prop :=
  ∃ c, i.copy? = some c ∧ c.into ∈ spills ∧ c.source ∈ spills ∧
    slotOf slots c.into = slotOf slots c.source

/-- The spilled ones among some registers, each once, by first occurrence. -/
def distinctSpilled (spills : InsertionSet Register) (registers : List Register) :
    List Register :=
  (InsertionSet.ofList registers).toList.filter fun r => decide (r ∈ spills)

theorem mem_distinctSpilled {registers : List Register} :
    r ∈ distinctSpilled spills registers ↔ r ∈ registers ∧ r ∈ spills := by
  rw [distinctSpilled, List.mem_filter, ← InsertionSet.mem_iff, InsertionSet.mem_ofList,
    decide_eq_true_eq]

/-- Backup registers stand in for the spilled registers of an instruction, each for
another one. The instruction uses none of them itself, and all else stays. -/
structure StandsIn (spills : InsertionSet Register) (backups : List HardwareRegister)
    (i : Instruction) (backup : Register → Register) : Prop where
  chosen : ∀ r ∈ i.reads ++ i.writes, r ∈ spills →
    ∃ b ∈ backups, backup r = .fixed b ∧ ¬ .fixed b ∈ i.reads ∧ ¬ .fixed b ∈ i.writes
  injective : ∀ r ∈ i.reads ++ i.writes, ∀ q ∈ i.reads ++ i.writes, r ∈ spills → q ∈ spills →
    backup r = backup q → r = q
  others : ∀ r, ¬ (r ∈ i.reads ++ i.writes ∧ r ∈ spills) → backup r = r

/-- An instruction on backup registers, with one load before it for each spilled
register that it reads and one store after it for each that it writes. -/
def wrapped (spills : InsertionSet Register) (slots : InsertionMap VirtualRegister FrameSlot)
    (backup : Register → Register) (i : Instruction) : List Instruction :=
  (distinctSpilled spills i.reads).map
      (fun r => .operate (.transfer (.load (backup r) (slotOf slots r)))) ++
    [i.map backup] ++
    (distinctSpilled spills i.writes).map
      (fun r => .operate (.transfer (.store (slotOf slots r) (backup r))))

/-- The code in the place of an instruction when registers have been spilled. -/
inductive Image (spills : InsertionSet Register) (slots : InsertionMap VirtualRegister FrameSlot)
    (backups : List HardwareRegister) (i : Instruction) : List Instruction → Prop
  | untouched (huntouched : ¬ Touches spills i) : Image spills slots backups i [i]
  | dropped (htouches : Touches spills i) (hcopy : CopiesWithinSlot spills slots i) :
      Image spills slots backups i []
  | moved (htouches : Touches spills i) (hcopy : ¬ CopiesWithinSlot spills slots i)
      {backup : Register → Register} (hbackup : StandsIn spills backups i backup) :
      Image spills slots backups i (wrapped spills slots backup i)

/-! ## Spill code consists of images -/

/-- The spilled registers are those with slots. -/
def HaveSlots (spills : InsertionSet Register)
    (slots : InsertionMap VirtualRegister FrameSlot) : Prop :=
  ∀ r, r ∈ spills ↔ ∃ s, slot? slots r = some s

theorem HaveSlots.spilledAmong_eq (h : HaveSlots spills slots) (registers : List Register) :
    (spilledAmong slots registers).toList = distinctSpilled spills registers := by
  apply List.filter_congr
  intro r _
  rw [Bool.eq_iff_iff, Option.isSome_iff_exists, decide_eq_true_eq, h r]

theorem HaveSlots.slot?_eq (h : HaveSlots spills slots) (hr : r ∈ spills) :
    slot? slots r = some (slotOf slots r) := by
  obtain ⟨s, hs⟩ := (h r).mp hr
  rw [hs, slotOf_eq hs]

theorem HaveSlots.touches_iff (h : HaveSlots spills slots) :
    Touches spills i ↔
      ((spilledAmong slots i.reads).isEmpty && (spilledAmong slots i.writes).isEmpty) = false := by
  rw [Bool.and_eq_false_iff, InsertionSet.isEmpty, InsertionSet.isEmpty, h.spilledAmong_eq,
    h.spilledAmong_eq, List.isEmpty_eq_false_iff_exists_mem, List.isEmpty_eq_false_iff_exists_mem,
    ← exists_or]
  apply exists_congr
  intro r
  rw [mem_distinctSpilled, mem_distinctSpilled, List.mem_append, or_and_right]

theorem HaveSlots.copiesWithinSlot_iff (h : HaveSlots spills slots) :
    CopiesWithinSlot spills slots i ↔ isRedundant slots i = true := by
  rw [isRedundant_eq_true]
  constructor
  · rintro ⟨c, hc, hinto, hsource, hslot⟩
    exact ⟨c, slotOf slots c.into, hc, h.slot?_eq hinto, hslot ▸ h.slot?_eq hsource⟩
  · rintro ⟨c, s, hc, hinto, hsource⟩
    refine ⟨c, hc, (h _).mpr ⟨s, hinto⟩, (h _).mpr ⟨s, hsource⟩, ?_⟩
    rw [slotOf_eq hinto, slotOf_eq hsource]

/-- The spilled registers that an instruction uses, those that it reads first. -/
def usedSpilled (slots : InsertionMap VirtualRegister FrameSlot) (i : Instruction) :
    InsertionSet Register :=
  (spilledAmong slots i.reads).insertAll (spilledAmong slots i.writes).toList

/-- The register on which an instruction works in the place of another one. -/
def standIn (slots : InsertionMap VirtualRegister FrameSlot) (backups : List HardwareRegister)
    (i : Instruction) : Register → Register :=
  substitute (.ofList ((usedSpilled slots i).toList.zip ((freeBackups backups i).map .fixed)))

theorem mem_usedSpilled :
    r ∈ usedSpilled slots i ↔ r ∈ i.reads ++ i.writes ∧ ∃ s, slot? slots r = some s := by
  rw [usedSpilled, InsertionSet.mem_insertAll, ← InsertionSet.mem_iff, mem_spilledAmong,
    mem_spilledAmong, List.mem_append, or_and_right]

theorem mem_freeBackups {b : HardwareRegister} :
    b ∈ freeBackups backups i ↔ b ∈ backups ∧ ¬ .fixed b ∈ i.reads ∧ ¬ .fixed b ∈ i.writes := by
  rw [freeBackups, List.mem_filter, decide_eq_true_eq]

/-- Where enough backup registers are free, they stand in for the spilled registers
of the instruction. -/
theorem HaveSlots.standsIn (h : HaveSlots spills slots) (hnodup : backups.Nodup)
    (hfree : (usedSpilled slots i).size ≤ (freeBackups backups i).length) :
    StandsIn spills backups i (standIn slots backups i) := by
  have hsub : Substitutes slots (freeBackups backups i) (i.reads ++ i.writes)
      (standIn slots backups i) :=
    substitutes_zip (fun _ => mem_usedSpilled) (fun _ hb => hb) (hnodup.filter _) hfree
  constructor
  case chosen =>
    intro r hr hspilled
    obtain ⟨s, hs⟩ := (h r).mp hspilled
    obtain ⟨b, hb, hbackup⟩ := hsub.moved r hr s hs
    obtain ⟨hmem, hunused⟩ := mem_freeBackups.mp hb
    exact ⟨b, hmem, hbackup, hunused⟩
  case injective =>
    intro r hr q hq hr' hq'
    obtain ⟨s, hs⟩ := (h r).mp hr'
    obtain ⟨t, ht⟩ := (h q).mp hq'
    exact hsub.injective r hr q hq s t hs ht
  case others =>
    intro r hr
    have hnot : ¬ r ∈ ((usedSpilled slots i).toList.zip
        ((freeBackups backups i).map Register.fixed)).map Prod.fst := by
      intro hmem
      obtain ⟨⟨_, q⟩, hpair, rfl⟩ := List.mem_map.mp hmem
      have hused := mem_usedSpilled.mp (List.of_mem_zip hpair).1
      exact hr ⟨hused.1, (h _).mpr hused.2⟩
    rw [standIn, substitute, InsertionMap.get?_ofList_of_not_mem hnot, Option.getD_none]

/-- Moves to and from the stack, if a move is covered by itself. -/
theorem HaveSlots.transfers_eq (h : HaveSlots spills slots)
    (hcover : ∀ t, selection.coverTransfer t = [.operate (.transfer t)])
    (transfer : Register → FrameSlot → Transfer) (registers : List Register) :
    transfers selection slots transfer (spilledAmong slots registers) =
      (distinctSpilled spills registers).map
        fun r => .operate (.transfer (transfer r (slotOf slots r))) := by
  rw [transfers, h.spilledAmong_eq, List.map_eq_flatMap]
  apply List.flatMap_congr
  intro r hr
  rw [h.slot?_eq (mem_distinctSpilled.mp hr).2]
  exact hcover _

theorem HaveSlots.wrapped_eq (h : HaveSlots spills slots)
    (hcover : ∀ t, selection.coverTransfer t = [.operate (.transfer t)])
    (backup : Register → Register) :
    loads selection slots backup i ++ [i.map backup] ++ stores selection slots backup i =
      wrapped spills slots backup i := by
  rw [loads, stores, h.transfers_eq hcover, h.transfers_eq hcover, wrapped]

/-- What the code for an instruction is. -/
theorem HaveSlots.expandInstruction_shape (h : HaveSlots spills slots) (hnodup : backups.Nodup)
    (hok : expandInstruction selection slots backups i = .ok code) :
    (¬ Touches spills i ∧ code = [i]) ∨
    (Touches spills i ∧ CopiesWithinSlot spills slots i ∧ code = []) ∨
    (Touches spills i ∧ ¬ CopiesWithinSlot spills slots i ∧ ∃ backup,
      StandsIn spills backups i backup ∧
      code = loads selection slots backup i ++ [i.map backup] ++
        stores selection slots backup i) := by
  rw [h.touches_iff, h.copiesWithinSlot_iff]
  dsimp only [expandInstruction] at hok
  split_ifs at hok with huntouched hredundant hfew
  · exact .inl ⟨by simp [huntouched], (Except.ok.inj hok).symm⟩
  · exact .inr (.inl ⟨Bool.eq_false_iff.mpr huntouched, hredundant, (Except.ok.inj hok).symm⟩)
  · exact .inr (.inr ⟨Bool.eq_false_iff.mpr huntouched, hredundant, standIn slots backups i,
      h.standsIn hnodup (Nat.not_lt.mp hfew), (Except.ok.inj hok).symm⟩)

theorem HaveSlots.image (h : HaveSlots spills slots)
    (hcover : ∀ t, selection.coverTransfer t = [.operate (.transfer t)]) (hnodup : backups.Nodup)
    (hok : expandInstruction selection slots backups i = .ok code) :
    Image spills slots backups i code := by
  rcases h.expandInstruction_shape hnodup hok with
    ⟨huntouched, rfl⟩ | ⟨htouches, hcopy, rfl⟩ | ⟨htouches, hcopy, backup, hbackup, rfl⟩
  · exact .untouched huntouched
  · exact .dropped htouches hcopy
  · rw [h.wrapped_eq hcover]
    exact .moved htouches hcopy hbackup

/-- What stands in for a register is not spilled. -/
theorem StandsIn.not_mem_spills {backup : Register → Register}
    (h : StandsIn spills backups i backup) (hvirtual : ∀ b, ¬ .fixed b ∈ spills)
    (hr : r ∈ i.reads ++ i.writes) : ¬ backup r ∈ spills := by
  by_cases hspilled : r ∈ spills
  · obtain ⟨b, -, hbackup, -⟩ := h.chosen r hr hspilled
    rw [hbackup]
    exact hvirtual b
  · rw [h.others r fun hboth => hspilled hboth.2]
    exact hspilled

/-- An instruction between loads and stores works on what stands in for its
registers. -/
theorem exists_of_mem_wrapped {backup : Register → Register} {j : Instruction}
    (hj : j ∈ wrapped spills slots backup i) (hr : r ∈ j.reads ++ j.writes) :
    ∃ q ∈ i.reads ++ i.writes, r = backup q := by
  rw [wrapped, List.mem_append, List.mem_append, List.mem_singleton] at hj
  rcases hj with (hj | rfl) | hj
  · obtain ⟨q, hq, rfl⟩ := List.mem_map.mp hj
    refine ⟨q, List.mem_append_left _ (mem_distinctSpilled.mp hq).1, ?_⟩
    exact Transfer.eq_register_of_used (List.mem_append.mp hr)
  · rw [Instruction.reads_map, Instruction.writes_map, ← List.map_append] at hr
    obtain ⟨q, hq, rfl⟩ := List.mem_map.mp hr
    exact ⟨q, hq, rfl⟩
  · obtain ⟨q, hq, rfl⟩ := List.mem_map.mp hj
    refine ⟨q, List.mem_append_right _ (mem_distinctSpilled.mp hq).1, ?_⟩
    exact Transfer.eq_register_of_used (List.mem_append.mp hr)

/-- No image reads or writes a spilled register. -/
theorem Image.not_mem_spills (h : Image spills slots backups i code)
    (hvirtual : ∀ b, ¬ .fixed b ∈ spills) {j : Instruction} (hj : j ∈ code)
    (hr : r ∈ j.reads ++ j.writes) : ¬ r ∈ spills := by
  cases h with
  | untouched huntouched =>
      obtain rfl := List.mem_singleton.mp hj
      exact fun hspilled => huntouched ⟨r, hr, hspilled⟩
  | dropped => simp at hj
  | moved _ _ hbackup =>
      obtain ⟨q, hq, rfl⟩ := exists_of_mem_wrapped hj hr
      exact hbackup.not_mem_spills hvirtual hq

/-! ## Whole fragments -/

/-- A block is rewritten to another one with the same label and edges, whose code is
made of the images of the instructions in their order. -/
structure BlockImage (spills : InsertionSet Register)
    (slots : InsertionMap VirtualRegister FrameSlot) (backups : List HardwareRegister)
    (b b' : Block) : Prop where
  label : b'.label = b.label
  successors : b'.successors = b.successors
  predecessors : b'.predecessors = b.predecessors
  instructions : ∃ images, List.Forall₂ (Image spills slots backups) b.instructions images ∧
    b'.instructions = images.flatten

end Spill

/-- Let a selection cover each move to or from the stack by itself, and let no backup
register be listed twice. If the spilled registers of an allocation are moved to the
stack, with slots chosen by whatever solver, then each of them has a slot, and no other
register has one. The code keeps its name and its blocks, in their order and with their
labels and edges. The code of a block is made of the images of its instructions: an
instruction that uses no spilled register stays as it is, one that does and copies
between spilled registers that share a slot is dropped, and any other works on backup
registers that it does not use itself, one for each spilled register, between one load
for each spilled register that it reads and one store for each that it writes. So no
spilled register is read or written any more. -/
theorem moveToStack_makes_images {Tree : Type u} {selection : Selection Tree}
    (hcover : ∀ t, selection.coverTransfer t = [.operate (.transfer t)])
    {backups : List HardwareRegister} (hnodup : backups.Nodup)
    (solver : Solver VirtualRegister Nat) (frame : Frame) (f : Fragment) (x : Interaction)
    (a : Allocation) {out : SpilledCode}
    (hok : (Spill.moveToStack selection solver frame f x a backups).2 = .ok out) :
    Spill.HaveSlots a.spills out.slots ∧ out.code.name = f.name ∧
    List.Forall₂ (Spill.BlockImage a.spills out.slots backups) f.blocks out.code.blocks ∧
    ∀ i ∈ out.code.instructions, ∀ r ∈ i.reads ++ i.writes, ¬ r ∈ a.spills := by
  obtain ⟨hslots, hexpand⟩ := Spill.moveToStack_expands hok
  obtain ⟨hcode, hreplace⟩ := Spill.expandFragment_eq_ok hexpand
  have himage : ∀ i ∈ f.instructions, Spill.Image a.spills out.slots backups i
      (Spill.codeFor selection out.slots backups i) := fun i hi =>
    Spill.HaveSlots.image hslots hcover hnodup (hcode i hi)
  have hvirtual : ∀ b, ¬ .fixed b ∈ a.spills :=
    (Spill.checkAllocation_eq_ok_iff.mp (Spill.moveToStack_cases hok).1).2
  rw [hreplace]
  refine ⟨hslots, rfl, ?_, fun j hj r hr => ?_⟩
  · rw [Fragment.replace, List.forall₂_map_right_iff, List.forall₂_same]
    intro b hb
    refine ⟨rfl, rfl, rfl, _, ?_, List.flatMap_def⟩
    rw [List.forall₂_map_right_iff, List.forall₂_same]
    exact fun i hi => himage i (List.mem_flatMap.mpr ⟨b, hb, hi⟩)
  · obtain ⟨i, hi, hj⟩ := Fragment.mem_instructions_replace.mp hj
    exact (himage i hi).not_mem_spills hvirtual hj hr

/-- Instructions with an image of each kind. The last one reads a register twice,
reads and writes another one, and uses a backup register itself. -/
def imagesOfEachKind : Fragment where
  name := "f"
  blocks := [.unlinked ⟨"b"⟩
    [.label ⟨"b"⟩,
      .operate (.copy ⟨.virtual ⟨2, false⟩, .virtual ⟨0, false⟩⟩),
      .operate (.compute "work" [.virtual ⟨0, false⟩, .virtual ⟨1, false⟩, .virtual ⟨0, false⟩]
        [.virtual ⟨1, false⟩, .fixed .rax])]]

/-- Three registers to be spilled. -/
def threeSpills : InsertionSet Register :=
  .ofList [.virtual ⟨0, false⟩, .virtual ⟨1, false⟩, .virtual ⟨2, false⟩]

/-- The code with the three registers on the stack, two of them in one slot. -/
def imagesOfEachKindMoved : Except Error SpilledCode :=
  (Spill.moveToStack .sequential
    (fun _ => .ok (.ofList [(⟨0, false⟩, 0), (⟨1, false⟩, 1), (⟨2, false⟩, 0)])) .empty
    imagesOfEachKind ⟨∅, ∅, ∅⟩ ⟨∅, threeSpills⟩ [.rax, .rcx, .rdx]).2

/-- The label stays, the copy is dropped, and the other instruction works on the two
backup registers that it does not use. -/
theorem imagesOfEachKind_moved : ∃ out, imagesOfEachKindMoved = .ok out ∧
    out.code.instructions =
      [.label ⟨"b"⟩,
        .operate (.transfer (.load (.fixed .rcx) ⟨-8, false⟩)),
        .operate (.transfer (.load (.fixed .rdx) ⟨-16, false⟩)),
        .operate (.compute "work" [.fixed .rcx, .fixed .rdx, .fixed .rcx]
          [.fixed .rdx, .fixed .rax]),
        .operate (.transfer (.store ⟨-16, false⟩ (.fixed .rdx)))] ∧
    List.Forall₂ (Spill.BlockImage threeSpills out.slots [.rax, .rcx, .rdx])
      imagesOfEachKind.blocks out.code.blocks := by
  obtain ⟨out, hout⟩ : ∃ out, imagesOfEachKindMoved = .ok out :=
    exists_eq_ok (by decide +kernel)
  obtain ⟨-, -, hblocks, -⟩ := moveToStack_makes_images (fun _ => rfl) (by decide) _ .empty
    imagesOfEachKind ⟨∅, ∅, ∅⟩ _ hout
  refine ⟨out, hout, ?_, hblocks⟩
  have hcode : imagesOfEachKindMoved.toOption.map (·.code.instructions) = some
      [.label ⟨"b"⟩,
        .operate (.transfer (.load (.fixed .rcx) ⟨-8, false⟩)),
        .operate (.transfer (.load (.fixed .rdx) ⟨-16, false⟩)),
        .operate (.compute "work" [.fixed .rcx, .fixed .rdx, .fixed .rcx]
          [.fixed .rdx, .fixed .rax]),
        .operate (.transfer (.store ⟨-16, false⟩ (.fixed .rdx)))] := by decide +kernel
  rw [hout] at hcode
  exact Option.some.inj hcode

end Lowering
