import Lowering.Proofs.PathLiveness
import Lowering.Proofs.RetriedAllocation
import Lowering.Proofs.SpillShape

/-!
# What spill code overwrites

The backup registers on which spill code works are chosen instruction by instruction:
the instruction must not use them itself. Whether a value in such a register is still
needed depends on the code that follows. It is, exactly if some path from there leads to
a read of the register before it is written again. Code that does not use the backup
registers has no such path, and a function that names one of them is refused before it
gets any spill code.
-/

namespace Lowering

universe u

namespace Fragment

variable {f : Fragment} {p : Position} {i : Instruction} {r : Register}

/-- Some path on from the instruction at a place leads to a read of a register, and no
instruction on the way writes it. -/
def ReadAhead (f : Fragment) (r : Register) (p : Position) : Prop :=
  ∃ q rest, f.FlowsTo p q ∧ f.PathToRead r q rest

theorem mem_liveAfter_iff_readAhead (hblocks : ∀ b ∈ f.blocks, b.instructions ≠ [])
    (hi : f.instructionAt? p = some i) (hwrites : ¬ r ∈ i.writes) :
    r ∈ f.liveAfter p ↔ f.ReadAhead r p := by
  rw [mem_liveAfter_iff hblocks hi, or_iff_right hwrites]
  apply exists_congr
  intro q
  rw [exists_and_left]
  apply and_congr_right
  intro hflow
  obtain ⟨j, hj⟩ := hflow.exists_instruction
  exact mem_liveBefore_iff_path hblocks hj

/-- A register that an instruction leaves alone is live before it exactly if it is
live after it. -/
theorem mem_liveBefore_iff_readAhead (hblocks : ∀ b ∈ f.blocks, b.instructions ≠ [])
    (hi : f.instructionAt? p = some i) (hreads : ¬ r ∈ i.reads) (hwrites : ¬ r ∈ i.writes) :
    r ∈ f.liveBefore p ↔ f.ReadAhead r p := by
  rw [mem_liveBefore_iff_path hblocks hi]
  constructor
  · rintro ⟨_ | ⟨q, rest⟩, hpath⟩
    · obtain ⟨j, hj, hr⟩ := pathToRead_nil.mp hpath
      obtain rfl := Option.some.inj (hj.symm.trans hi)
      exact absurd hr hreads
    · obtain ⟨hflow, -, hpath⟩ := pathToRead_cons.mp hpath
      exact ⟨q, rest, hflow, hpath⟩
  · rintro ⟨q, rest, hflow, hpath⟩
    refine ⟨q :: rest, pathToRead_cons.mpr ⟨hflow, ?_, hpath⟩⟩
    rintro ⟨j, hj, hr⟩
    obtain rfl := Option.some.inj (hj.symm.trans hi)
    exact hwrites hr

end Fragment

namespace Spill

/-- The code in the place of an instruction makes it work on backup registers that it
does not use itself. Around the instruction, such a register holds a value that is
still needed exactly if a path leads on to a read of it. -/
structure WorksOnBackups {Tree : Type u} (selection : Selection Tree) (f : Fragment)
    (spills : InsertionSet Register) (slots : InsertionMap VirtualRegister FrameSlot)
    (backups : List HardwareRegister) (p : Position) (i : Instruction)
    (code : List Instruction) (backup : Register → Register) : Prop where
  standsIn : StandsIn spills backups i backup
  code_eq : code = loads selection slots backup i ++ [i.map backup] ++
    stores selection slots backup i
  live_iff : ∀ r ∈ i.reads ++ i.writes, r ∈ spills → ∀ b, backup r = .fixed b →
    (.fixed b ∈ f.liveBefore p ↔ f.ReadAhead (.fixed b) p) ∧
    (.fixed b ∈ f.liveAfter p ↔ f.ReadAhead (.fixed b) p)

theorem StandsIn.live_iff {f : Fragment} {spills : InsertionSet Register}
    {backups : List HardwareRegister} {p : Position} {i : Instruction}
    {backup : Register → Register} (h : StandsIn spills backups i backup)
    (hblocks : ∀ b ∈ f.blocks, b.instructions ≠ []) (hi : f.instructionAt? p = some i)
    {r : Register} (hr : r ∈ i.reads ++ i.writes) (hspilled : r ∈ spills) {b : HardwareRegister}
    (hb : backup r = .fixed b) :
    (.fixed b ∈ f.liveBefore p ↔ f.ReadAhead (.fixed b) p) ∧
      (.fixed b ∈ f.liveAfter p ↔ f.ReadAhead (.fixed b) p) := by
  obtain ⟨d, -, hd, hreads, hwrites⟩ := h.chosen r hr hspilled
  obtain rfl : b = d := Register.fixed.inj (hb.symm.trans hd)
  exact ⟨Fragment.mem_liveBefore_iff_readAhead hblocks hi hreads hwrites,
    Fragment.mem_liveAfter_iff_readAhead hblocks hi hwrites⟩

end Spill

/-- A function that needs spill code does not use the backup registers, so none of
them is ever live in it. -/
theorem Compiler.backup_not_live {Tree : Type u} {selection : Selection Tree}
    {graph : FlowGraph Tree} {c : Compiler} {f : Fragment} {x : Interaction} {a : Allocation}
    (h : c.place selection graph = .ok (f, x, a)) (hspills : a.isSpillFree = false)
    {b : HardwareRegister} (hb : b ∈ c.convention.backups) (p : Position) :
    ¬ .fixed b ∈ f.liveBefore p ∧ ¬ .fixed b ∈ f.liveAfter p := by
  obtain ⟨-, hanalyze, hallocate⟩ := place_eq_ok h
  obtain ⟨-, y, rfl, hregisters, -⟩ := analyze_eq_ok hanalyze
  have hunused : ¬ .fixed b ∈ Liveness.registers f.points := by
    intro hmem
    rcases Allocation.allocateWithRetry_cases hallocate with
      ⟨-, hfree⟩ | ⟨first, second, -, -, hsecond, -⟩
    · exact absurd (hspills.symm.trans hfree) Bool.false_ne_true
    · apply Allocation.backup_unused_of_allocate hsecond b hb
      rw [hregisters]
      exact Interaction.mem_registers_of_mem_points hmem
  constructor
  · exact fun hlive => hunused (Liveness.needed_of_mem_before hlive).mem_registers
  · exact fun hlive => hunused (Fragment.mem_registers_of_mem_liveAfter hlive)

/-! ## A value that is lost -/

/-- A value is kept in a backup register while another one is made, and used after
that. -/
def keptInBackup : Fragment where
  name := "f"
  blocks := [.unlinked ⟨"b"⟩
    [.operate (.compute "set" [] [.fixed .rax]),
      .operate (.compute "make" [] [.virtual ⟨0, false⟩]),
      .operate (.compute "use" [.fixed .rax] []),
      .operate (.compute "use" [.virtual ⟨0, false⟩] [])]]

/-- The code with the other value on the stack. -/
def keptInBackupMoved : Except Error SpilledCode :=
  (Spill.moveToStack .sequential Coloring.firstFit .empty keptInBackup
    (.ofFragment keptInBackup [] [])
    ⟨.ofList [(.fixed .rax, .rax)], .ofList [.virtual ⟨0, false⟩]⟩ [.rax, .rbx]).2

/-- The backup register is live before and after the instruction that makes the other
value, and still that instruction works on it. -/
theorem keptInBackup_overwritten :
    Interaction.analyze keptInBackup [] [] = .ok (.ofFragment keptInBackup [] []) ∧
    keptInBackup.instructionAt? ⟨0, 1⟩ =
      some (.operate (.compute "make" [] [.virtual ⟨0, false⟩])) ∧
    (∃ out, keptInBackupMoved = .ok out ∧ out.code.instructions =
      [.operate (.compute "set" [] [.fixed .rax]),
        .operate (.compute "make" [] [.fixed .rax]),
        .operate (.transfer (.store ⟨-8, false⟩ (.fixed .rax))),
        .operate (.compute "use" [.fixed .rax] []),
        .operate (.transfer (.load (.fixed .rax) ⟨-8, false⟩)),
        .operate (.compute "use" [.fixed .rax] [])]) ∧
    .fixed .rax ∈ keptInBackup.liveBefore ⟨0, 1⟩ ∧ .fixed .rax ∈ keptInBackup.liveAfter ⟨0, 1⟩ := by
  refine ⟨Interaction.analyze_of_nonempty (by decide), rfl, ?_, by decide +kernel,
    by decide +kernel⟩
  obtain ⟨out, hout⟩ : ∃ out, keptInBackupMoved = .ok out := exists_eq_ok (by decide +kernel)
  refine ⟨out, hout, ?_⟩
  have hcode : keptInBackupMoved.toOption.map (·.code.instructions) = some
      [.operate (.compute "set" [] [.fixed .rax]),
        .operate (.compute "make" [] [.fixed .rax]),
        .operate (.transfer (.store ⟨-8, false⟩ (.fixed .rax))),
        .operate (.compute "use" [.fixed .rax] []),
        .operate (.transfer (.load (.fixed .rax) ⟨-8, false⟩)),
        .operate (.compute "use" [.fixed .rax] [])] := by decide +kernel
  rw [hout] at hcode
  exact Option.some.inj hcode

/-- Let code without empty blocks have its spilled registers moved to the stack, with
whatever allocation and whatever solver for the slots, by way of backup registers none of
which is listed twice. An instruction that uses no spilled register stays as it is, a copy
within a slot is dropped, and any other instruction works on backup registers that it does
not use itself. Such a backup register is live before the instruction, or after it,
exactly if some path on from there leads to a read of it without a write on the way. So
nothing that is still needed is overwritten, unless the code itself reads a backup
register. No function that is given spill code when it is compiled does: there no backup
register is live anywhere. -/
theorem backup_live_iff_read_ahead {Tree : Type u} (selection : Selection Tree) :
    (∀ (f : Fragment), (∀ b ∈ f.blocks, b.instructions ≠ []) →
      ∀ (backups : List HardwareRegister), backups.Nodup →
      ∀ (solver : Solver VirtualRegister Nat) (frame : Frame) (x : Interaction) (a : Allocation)
        (out : SpilledCode),
        (Spill.moveToStack selection solver frame f x a backups).2 = .ok out →
      ∃ code, out.code = f.replace code ∧ ∀ p i, f.instructionAt? p = some i →
        (¬ Spill.Touches a.spills i → code i = [i]) ∧
        (Spill.Touches a.spills i → Spill.CopiesWithinSlot a.spills out.slots i → code i = []) ∧
        (Spill.Touches a.spills i → ¬ Spill.CopiesWithinSlot a.spills out.slots i → ∃ backup,
          Spill.WorksOnBackups selection f a.spills out.slots backups p i (code i) backup)) ∧
    ∀ (c : Compiler) (graph : FlowGraph Tree) (f : Fragment) (x : Interaction) (a : Allocation),
      c.place selection graph = .ok (f, x, a) → a.isSpillFree = false →
      ∀ b ∈ c.convention.backups, ∀ p,
        ¬ .fixed b ∈ f.liveBefore p ∧ ¬ .fixed b ∈ f.liveAfter p := by
  constructor
  · intro f hblocks backups hnodup solver frame x a out hok
    obtain ⟨hslots, hexpand⟩ := Spill.moveToStack_expands hok
    obtain ⟨hcode, hreplace⟩ := Spill.expandFragment_eq_ok hexpand
    refine ⟨Spill.codeFor selection out.slots backups, hreplace, fun p i hi => ?_⟩
    have hmem := Fragment.mem_instructions_of_instructionAt? hi
    rcases Spill.HaveSlots.expandInstruction_shape hslots hnodup (hcode i hmem) with
      ⟨hnot, hkept⟩ | ⟨htouches, hcopies, hdropped⟩ | ⟨htouches, hnot, backup, hbackup, hmoved⟩
    · exact ⟨fun _ => hkept, fun htouches => absurd htouches hnot,
        fun htouches => absurd htouches hnot⟩
    · exact ⟨fun hnot => absurd htouches hnot, fun _ _ => hdropped,
        fun _ hnot => absurd hcopies hnot⟩
    · refine ⟨fun hnot => absurd htouches hnot, fun _ hcopies => absurd hcopies hnot,
        fun _ _ => ⟨backup, hbackup, hmoved, fun r hr hspilled b hb => ?_⟩⟩
      exact hbackup.live_iff hblocks hi hr hspilled hb
  · intro c graph f x a hplace hspills b hb p
    exact Compiler.backup_not_live hplace hspills hb p

/-- In the code above a read lies ahead. A compiled function with spills has no such
place. -/
theorem keptInBackup_read_ahead :
    (∃ out code backup, keptInBackupMoved = .ok out ∧ out.code = keptInBackup.replace code ∧
      Spill.WorksOnBackups .sequential keptInBackup (.ofList [.virtual ⟨0, false⟩]) out.slots
        [.rax, .rbx] ⟨0, 1⟩ (.operate (.compute "make" [] [.virtual ⟨0, false⟩]))
        (code (.operate (.compute "make" [] [.virtual ⟨0, false⟩]))) backup) ∧
    keptInBackup.ReadAhead (.fixed .rax) ⟨0, 1⟩ ∧
    ∃ f x a, Compiler.place ⟨⟨.none, false, false, ""⟩, twoRegisters⟩ .sequential threeValues =
        .ok (f, x, a) ∧ a.isSpillFree = false ∧
      ∀ p, ¬ .fixed .rcx ∈ f.liveBefore p ∧ ¬ .fixed .rcx ∈ f.liveAfter p := by
  obtain ⟨hmoved, hcompiled⟩ := backup_live_iff_read_ahead Selection.sequential
  refine ⟨?_, ?_, ?_⟩
  · obtain ⟨out, hout⟩ : ∃ out, keptInBackupMoved = .ok out := exists_eq_ok (by decide +kernel)
    obtain ⟨code, hcode, hinstructions⟩ := hmoved keptInBackup (by decide) [.rax, .rbx]
      (by decide) Coloring.firstFit .empty _ _ out hout
    obtain ⟨-, -, hbackup⟩ := hinstructions ⟨0, 1⟩ _ rfl
    obtain ⟨backup, hworks⟩ := hbackup ⟨.virtual ⟨0, false⟩, by decide, by decide⟩ (by
      rintro ⟨c, hc, -⟩
      exact absurd hc nofun)
    exact ⟨out, code, backup, hout, hcode, hworks⟩
  · exact ⟨⟨0, 2⟩, [], .next rfl, Fragment.pathToRead_nil.mpr ⟨_, rfl, List.mem_cons_self⟩⟩
  · obtain ⟨⟨f, x, a⟩, hplace⟩ : ∃ out, Compiler.place ⟨⟨.none, false, false, ""⟩, twoRegisters⟩
        .sequential threeValues = .ok out := exists_eq_ok (by decide +kernel)
    have hspills : (Compiler.place ⟨⟨.none, false, false, ""⟩, twoRegisters⟩ .sequential
        threeValues).toOption.map (fun p => p.2.2.isSpillFree) = some false := by decide +kernel
    rw [hplace] at hspills
    have hfree : a.isSpillFree = false := Option.some.inj hspills
    exact ⟨f, x, a, hplace, hfree, hcompiled _ _ f x a hplace hfree .rcx (by decide)⟩

end Lowering
