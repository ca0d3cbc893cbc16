import Lowering.Proofs.LabelledBlocks
import Lowering.Proofs.Rewriting
import Lowering.Proofs.SpillRun

/-!
# What spill code uses

Spill code uses the backup registers, and treats every other register that is not
spilled as the code does. So it is a rewriting of the code that keeps those.
-/

namespace Lowering

universe u

theorem Instruction.isStraight_map (g : Register → Register) (i : Instruction) :
    (i.map g).isStraight = i.isStraight := by
  cases i <;> rfl

/-- A move uses no register but its own. -/
theorem Transfer.eq_register_of_used {t : Transfer} {r : Register}
    (hr : r ∈ (Instruction.operate (.transfer t)).reads ∨
      r ∈ (Instruction.operate (.transfer t)).writes) : r = t.register := by
  cases t <;> simpa [Instruction.reads, Instruction.writes, Operation.reads, Operation.writes,
    Transfer.reads, Transfer.writes, Transfer.register] using hr

namespace Spill

variable {Tree : Type u} {selection : Selection Tree}
  {slots : InsertionMap VirtualRegister FrameSlot} {backups : List HardwareRegister}
  {f f' : Fragment} {i j : Instruction} {r : Register} {code : List Instruction}
  {backup : Register → Register}

theorem codeFor_of_not_isStraight (hi : i.isStraight = false) :
    codeFor selection slots backups i = [i] := by
  obtain ⟨hreads, hwrites, -⟩ := Instruction.unused_of_not_isStraight hi
  have hempty : (spilledAmong slots []).isEmpty = true := rfl
  simp [codeFor, expandInstruction, hreads, hwrites, hempty]

theorem mem_transfers {transfer : Register → FrameSlot → Transfer}
    {registers : InsertionSet Register} :
    j ∈ transfers selection slots transfer registers ↔
      ∃ r ∈ registers, ∃ s, slot? slots r = some s ∧
        j ∈ selection.coverTransfer (transfer r s) := by
  rw [transfers, List.mem_flatMap]
  apply exists_congr
  intro r
  apply and_congr_right
  intro _
  cases hslot : slot? slots r with
  | none => simp
  | some s => simp

/-- Spill code consists of the instruction on other registers, and of moves to and
from the stack. -/
theorem mem_codeFor_cases (hpure : i.CopyIsPure) (hbackups : backups.Nodup)
    (hj : j ∈ codeFor selection slots backups i) :
    (∃ g, j = i.map g) ∨ ∃ t, j ∈ selection.coverTransfer t := by
  unfold codeFor at hj
  split at hj
  case h_2 => simp at hj
  next code hcode =>
  rcases expandInstruction_cases hpure hbackups hcode with ⟨-, rfl⟩ | ⟨-, backup, -, rfl⟩
  · simp at hj
  · rw [List.mem_append, List.mem_append, List.mem_singleton] at hj
    rcases hj with (hj | hj) | hj
    · obtain ⟨r, -, s, -, hj⟩ := mem_transfers.mp hj
      exact .inr ⟨_, hj⟩
    · exact .inl ⟨backup, hj⟩
    · obtain ⟨r, -, s, -, hj⟩ := mem_transfers.mp hj
      exact .inr ⟨_, hj⟩

/-- A register that is neither spilled nor a backup register. -/
def Kept (slots : InsertionMap VirtualRegister FrameSlot) (backups : List HardwareRegister)
    (r : Register) : Prop :=
  slot? slots r = none ∧ ∀ b ∈ backups, r ≠ .fixed b

/-- Whatever takes the place of a register is kept or a backup register. -/
theorem Substitutes.cases {used : List Register} (h : Substitutes slots backups used backup)
    (hr : r ∈ used) :
    (slot? slots r = none ∧ backup r = r) ∨ ∃ b ∈ backups, backup r = .fixed b := by
  cases hslot : slot? slots r with
  | none => exact .inl ⟨rfl, h.kept r hslot⟩
  | some s => exact .inr (h.moved r hr s hslot)

theorem Substitutes.mem_map_iff {used l : List Register}
    (h : Substitutes slots backups used backup) (hl : ∀ q ∈ l, q ∈ used)
    (hr : Kept slots backups r) : r ∈ l.map backup ↔ r ∈ l := by
  constructor
  · intro hmem
    obtain ⟨q, hq, rfl⟩ := List.mem_map.mp hmem
    rcases h.cases (hl q hq) with ⟨-, hsame⟩ | ⟨b, hb, hbackup⟩
    · rwa [hsame]
    · exact absurd hbackup (hr.2 b hb)
  · intro hmem
    exact List.mem_map.mpr ⟨r, hmem, h.kept r hr.1⟩

/-- A move to or from the stack uses a backup register only. -/
theorem Substitutes.exists_backup (hplain : selection.Plain)
    (h : Substitutes slots backups (i.reads ++ i.writes) backup)
    (hj : j ∈ loads selection slots backup i ∨ j ∈ stores selection slots backup i) :
    ∃ b ∈ backups, ∀ r, r ∈ j.reads ∨ r ∈ j.writes → r = .fixed b := by
  have hmove : ∃ q ∈ i.reads ++ i.writes, ∃ s t, slot? slots q = some s ∧
      t.register = backup q ∧ j ∈ selection.coverTransfer t := by
    rcases hj with hj | hj
    · obtain ⟨q, hq, s, hs, hj⟩ := mem_transfers.mp hj
      exact ⟨q, List.mem_append_left _ (mem_spilledAmong.mp hq).1, s, _, hs, rfl, hj⟩
    · obtain ⟨q, hq, s, hs, hj⟩ := mem_transfers.mp hj
      exact ⟨q, List.mem_append_right _ (mem_spilledAmong.mp hq).1, s, _, hs, rfl, hj⟩
  obtain ⟨q, hq, s, t, hs, hregister, hj⟩ := hmove
  obtain ⟨b, hb, hbackup⟩ := h.moved q hq s hs
  rw [hplain.coverTransfer, List.mem_singleton] at hj
  subst hj
  refine ⟨b, hb, fun r hr => ?_⟩
  rw [Transfer.eq_register_of_used hr, hregister, hbackup]

theorem Substitutes.spares (hplain : selection.Plain)
    (h : Substitutes slots backups (i.reads ++ i.writes) backup)
    (hj : j ∈ loads selection slots backup i ∨ j ∈ stores selection slots backup i) :
    j.Spares (Kept slots backups) := by
  obtain ⟨b, hb, honly⟩ := h.exists_backup hplain hj
  intro r hr
  constructor
  · exact fun hmem => hr.2 b hb (honly r (.inl hmem))
  · exact fun hmem => hr.2 b hb (honly r (.inr hmem))

theorem Substitutes.matches (h : Substitutes slots backups (i.reads ++ i.writes) backup) :
    i.Matches (Kept slots backups) (i.map backup) where
  reads r hr := by
    rw [Instruction.reads_map]
    exact h.mem_map_iff (fun q hq => List.mem_append_left _ hq) hr
  writes r hr := by
    rw [Instruction.writes_map]
    exact h.mem_map_iff (fun q hq => List.mem_append_right _ hq) hr
  copies a b ha hb hcopy := by
    rw [Instruction.copy?_map, hcopy, Option.map_some, Copy.map, h.kept b hb.1, h.kept a ha.1]

/-- Spill code treats registers that are kept as the instruction does. -/
theorem rewrites_of_expandInstruction (hplain : selection.Plain) (hpure : i.CopyIsPure)
    (hnodup : backups.Nodup) (h : expandInstruction selection slots backups i = .ok code) :
    i.Rewrites (Kept slots backups) code := by
  rcases expandInstruction_cases hpure hnodup h with ⟨hredundant, rfl⟩ | ⟨-, backup, hsub, rfl⟩
  · obtain ⟨copy, s, hcopy, hinto, hsource⟩ := isRedundant_eq_true.mp hredundant
    obtain ⟨hreads, hwrites⟩ := hpure copy hcopy
    refine .dropped fun r hr => ⟨fun hmem => ?_, fun hmem => ?_⟩
    · rw [(hreads r).mp hmem] at hr
      simp [hr.1] at hsource
    · rw [(hwrites r).mp hmem] at hr
      simp [hr.1] at hinto
  · exact .wrapped (fun j hj => hsub.spares hplain (.inl hj)) hsub.matches
      fun j hj => hsub.spares hplain (.inr hj)

/-- Spill code uses nothing but registers that are kept and backup registers. -/
theorem kept_or_backup_of_used (hplain : selection.Plain) (hpure : i.CopyIsPure)
    (hnodup : backups.Nodup) (h : expandInstruction selection slots backups i = .ok code)
    (hj : j ∈ code) (hr : r ∈ j.reads ∨ r ∈ j.writes) :
    Kept slots backups r ∨ ∃ b ∈ backups, r = .fixed b := by
  rcases expandInstruction_cases hpure hnodup h with ⟨-, rfl⟩ | ⟨-, backup, hsub, rfl⟩
  · simp at hj
  · rw [List.mem_append, List.mem_append, List.mem_singleton, or_right_comm] at hj
    rcases hj with hj | rfl
    · obtain ⟨b, hb, honly⟩ := hsub.exists_backup hplain hj
      exact .inr ⟨b, hb, honly r hr⟩
    · rw [Instruction.reads_map, Instruction.writes_map, ← List.mem_append, ← List.map_append] at hr
      obtain ⟨q, hq, rfl⟩ := List.mem_map.mp hr
      rcases hsub.cases hq with ⟨hslot, hsame⟩ | hbackup
      · rw [hsame]
        by_cases hbackup : ∃ b ∈ backups, q = .fixed b
        · exact .inr hbackup
        · exact .inl ⟨hslot, fun b hb heq => hbackup ⟨b, hb, heq⟩⟩
      · exact .inr hbackup

/-- Code with spills rewrites the code. -/
theorem rewriting_of_expandFragment (hplain : selection.Plain) (hlabelled : f.Labelled)
    (hnodup : backups.Nodup) (h : expandFragment selection slots backups f = .ok f') :
    f.Rewriting (Kept slots backups) (codeFor selection slots backups) := by
  obtain ⟨hcode, -⟩ := expandFragment_eq_ok h
  constructor
  case nonempty => exact hlabelled.nonempty
  case nonempty_replace =>
    intro b' hb'
    obtain ⟨b, hb, rfl⟩ := List.mem_map.mp hb'
    obtain ⟨⟨l, rest, hinstructions⟩, -⟩ := hlabelled b hb
    simp [hinstructions, codeFor_of_not_isStraight (i := .label l) rfl]
  case rewrites =>
    intro i hi
    exact rewrites_of_expandInstruction hplain (hlabelled.copiesArePure i hi) hnodup (hcode i hi)

/-- The registers of code with spills are kept, or they are backup registers. -/
theorem kept_or_backup_of_mem_registers (hplain : selection.Plain) (hlabelled : f.Labelled)
    (hnodup : backups.Nodup) (h : expandFragment selection slots backups f = .ok f')
    {preserved alwaysLive : List HardwareRegister}
    (hr : r ∈ (Interaction.ofFragment f' preserved alwaysLive).registers) :
    Kept slots backups r ∨ ∃ b ∈ backups, r = .fixed b := by
  obtain ⟨hcode, rfl⟩ := expandFragment_eq_ok h
  have hfixed : ∀ h : HardwareRegister,
      Kept slots backups (.fixed h) ∨ ∃ b ∈ backups, Register.fixed h = .fixed b := by
    intro h
    by_cases hbackup : h ∈ backups
    · exact .inr ⟨h, hbackup, rfl⟩
    · refine .inl ⟨rfl, ?_⟩
      rintro b hb ⟨⟩
      exact hbackup hb
  rcases Interaction.mem_registers_iff.mp hr with hused | hpreserved | hlive
  · obtain ⟨j, hj, hused⟩ := Fragment.mem_registers_iff.mp hused
    obtain ⟨i, hi, hj⟩ := Fragment.mem_instructions_replace.mp hj
    exact kept_or_backup_of_used hplain (hlabelled.copiesArePure i hi) hnodup (hcode i hi) hj hused
  · obtain ⟨h, -, rfl⟩ := hpreserved
    exact hfixed h
  · obtain ⟨h, -, rfl⟩ := hlive
    exact hfixed h

end Spill

end Lowering
