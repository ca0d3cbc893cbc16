import Lowering.Spill
import Lowering.Proofs.RenamedAllocation
import Lowering.Proofs.RenamedLayout
import Lowering.Proofs.SpillCode

/-!
# Spilled registers under other names

Slots are handed out by coloring, in the order in which the spilled registers are listed,
and an instruction takes its backup registers in the order of its operands. Neither depends
on how registers are called: renamed registers get the same slots, and the code that loads
and stores them is the same code renamed. The frame is the same one.
-/

namespace Lowering

universe u

variable {Tree : Type u}

/-- Two functions with spill code are the same up to the names of registers. -/
structure SpilledCode.Renamed (ρ : VirtualRegister → VirtualRegister → Prop)
    (c d : SpilledCode) : Prop where
  code : c.code.Renamed (Register.Renamed ρ) d.code
  slots : c.slots.Renamed ρ (· = ·) d.slots

namespace Spill

variable {ρ : VirtualRegister → VirtualRegister → Prop} {x y : Interaction} {a b : Allocation}
  {s t : InsertionSet VirtualRegister} {slots slots' : InsertionMap VirtualRegister FrameSlot}
  {i j : Instruction} {f g : Fragment} {selection : Selection Tree} {T : Tree → Tree → Prop}

theorem checkAllocation_renamed (h : a.Renamed ρ b) (backups : List HardwareRegister) :
    SameOutcome (fun _ _ => True) (· = ·) (checkAllocation a backups)
      (checkAllocation b backups) := by
  refine (rejectFirst_renamed h.assigned fun e f he => ?_).bind fun _ _ _ =>
    rejectFirst_renamed h.spills fun r s hr => ?_
  · refine ite_renamed ?_ (.some trivial) .none
    rw [he.1.isFixed_eq, he.2]
  · unfold fixedFault?
    rw [hr.fixed?_eq]
    cases s.fixed? with
    | none => exact .none
    | some h => exact .some trivial

section

variable (hρ : IsRenaming ρ)
include hρ

theorem spilledRegisters_renamed (h : a.Renamed ρ b) :
    (spilledRegisters a).Renamed ρ (spilledRegisters b) :=
  .ofList hρ.biUnique (List.rel_filterMap (fun _ _ hr => hr.virtual?) h.spills)

theorem restrict_renamed {g h : Relation Register}
    (hg : Relation.Renamed (Register.Renamed ρ) g h) (hs : s.Renamed ρ t) :
    Relation.Renamed ρ (restrict g s) (restrict h t) := by
  refine .ofKeys hs fun v w hvw => .ofList hρ.biUnique ?_
  refine List.rel_filterMap (fun r r' hr => ?_) (hg.neighbors hρ.registers (.virtual hvw))
  cases hr with
  | fixed h => exact .none
  | virtual h => exact ite_renamed (hs.mem_iff hρ.biUnique h) (.some h) .none

theorem mixedPairs_renamed (hs : s.Renamed ρ t) :
    List.Forall₂ (EntryRenamed ρ ρ) (mixedPairs s) (mixedPairs t) := by
  refine filter_renamed (orderedPairs_renamed hs) fun e f he => ?_
  rw [hρ.holdsReference_eq _ _ he.1, hρ.holdsReference_eq _ _ he.2]

theorem coloringProblem_renamed (hx : x.Renamed ρ y) (hs : s.Renamed ρ t) :
    (coloringProblem x s).Renamed ρ (coloringProblem y t) where
  graph := (restrict_renamed hρ hx.interference hs).addEdges hρ.biUnique (mixedPairs_renamed hρ hs)
  coalesce := restrict_renamed hρ hx.copying hs
  fixed := .empty
  allowed := by
    unfold coloringProblem
    rw [hs.size_eq]

theorem kinds_renamed {c d : InsertionMap VirtualRegister Nat} (hc : c.Renamed ρ (· = ·) d)
    (hs : s.Renamed ρ t) :
    SameOutcome (fun _ _ => True) (· = ·) (kinds c s) (kinds d t) := by
  refine SameOutcome.foldlM hs (fun k _ hk v w hvw => ?_) rfl
  unfold addKind
  rw [← hk, hc.get?_eq hρ.biUnique hvw, hρ.holdsReference_eq v w hvw]
  split
  · exact .error trivial
  · split
    · exact .ok rfl
    · exact ite_renamed Iff.rfl (.ok rfl) (.error trivial)

/-- Renamed registers get the same slots, and take them from the frame in the same order. -/
theorem assignSlots_renamed (frame : Frame) (hx : x.Renamed ρ y) (hs : s.Renamed ρ t) :
    SameOutcome SameKind (EntryRenamed (· = ·) (InsertionMap.Renamed ρ (· = ·)))
      (assignSlots Coloring.firstFit frame x s) (assignSlots Coloring.firstFit frame y t) := by
  have hcolors := Coloring.firstFit_renamed hρ.biUnique (coloringProblem_renamed hρ hx hs)
  refine .bind (.mapError hcolors ?_) fun c d hc =>
    .bind (.mapError (kinds_renamed hρ hc hs) ?_) fun k _ hk => ?_
  · exact fun _ _ _ => rfl
  · exact fun _ _ _ => rfl
  · rw [← hk]
    refine .ok ⟨rfl, .ofPartial hs fun v w hvw => ?_⟩
    rw [hc.get?_eq hρ.biUnique hvw]
    exact optionRel_eq_iff.mpr rfl

theorem slot?_eq (hslots : slots.Renamed ρ (· = ·) slots') {r s : Register}
    (hr : Register.Renamed ρ r s) : slot? slots r = slot? slots' s := by
  cases hr with
  | fixed h => rfl
  | virtual h => exact hslots.get?_eq hρ.biUnique h

theorem spilledAmong_renamed (hslots : slots.Renamed ρ (· = ·) slots') {l m : List Register}
    (hl : List.Forall₂ (Register.Renamed ρ) l m) :
    (spilledAmong slots l).Renamed (Register.Renamed ρ) (spilledAmong slots' m) := by
  refine (InsertionSet.Renamed.ofList hρ.registers hl).filter fun r s hr => ?_
  rw [slot?_eq hρ hslots hr]

theorem isRedundant_eq (hslots : slots.Renamed ρ (· = ·) slots')
    (hi : i.Renamed (Register.Renamed ρ) j) : isRedundant slots i = isRedundant slots' j := by
  unfold isRedundant
  rcases cases_of_optionRel hi.copy? with ⟨h1, h2⟩ | ⟨c, d, h1, h2, hc⟩
  · rw [h1, h2]
  · simp only [h1, h2, slot?_eq hρ hslots hc.into, slot?_eq hρ hslots hc.source]

theorem freeBackups_eq (backups : List HardwareRegister)
    (hi : i.Renamed (Register.Renamed ρ) j) : freeBackups backups i = freeBackups backups j := by
  unfold freeBackups
  congr 1
  funext h
  exact decide_eq_decide.mpr (and_congr
    (not_congr (List.rel_mem hρ.registers (.fixed h) hi.reads))
    (not_congr (List.rel_mem hρ.registers (.fixed h) hi.writes)))

theorem substitute_renamed {m n : InsertionMap Register Register}
    (hm : m.Renamed (Register.Renamed ρ) (Register.Renamed ρ) n) {r s : Register}
    (hr : Register.Renamed ρ r s) : Register.Renamed ρ (substitute m r) (substitute n s) := by
  unfold substitute
  rcases cases_of_optionRel (hm.get? hρ.registers hr) with ⟨h1, h2⟩ | ⟨r', s', h1, h2, hrs⟩
  · rw [h1, h2]
    exact hr
  · rw [h1, h2]
    exact hrs

theorem transfers_renamed (hselection : selection.Respects (Register.Renamed ρ) T)
    (hslots : slots.Renamed ρ (· = ·) slots') {move move' : Register → FrameSlot → Transfer}
    (hmove : ∀ r s, Register.Renamed ρ r s → ∀ slot,
      (move r slot).Renamed (Register.Renamed ρ) (move' s slot))
    {k l : InsertionSet Register} (hk : k.Renamed (Register.Renamed ρ) l) :
    List.Forall₂ (Instruction.Renamed (Register.Renamed ρ)) (transfers selection slots move k)
      (transfers selection slots' move' l) := by
  refine List.rel_flatMap hk fun r s hr => ?_
  rw [slot?_eq hρ hslots hr]
  split
  · exact hselection.coverTransfer _ _ (hmove r s hr _)
  · exact .nil

variable (hselection : selection.Respects (Register.Renamed ρ) T)
include hselection

/-- The code for a renamed instruction is the code for the instruction, renamed. -/
theorem expandInstruction_renamed (hslots : slots.Renamed ρ (· = ·) slots')
    (backups : List HardwareRegister) (hi : i.Renamed (Register.Renamed ρ) j) :
    SameOutcome (fun _ _ => True) (List.Forall₂ (Instruction.Renamed (Register.Renamed ρ)))
      (expandInstruction selection slots backups i)
      (expandInstruction selection slots' backups j) := by
  have hreads := spilledAmong_renamed hρ hslots hi.reads
  have hwrites := spilledAmong_renamed hρ hslots hi.writes
  have hused := hreads.insertAll hρ.registers hwrites
  have hbackup : ∀ r s, Register.Renamed ρ r s → Register.Renamed ρ
      (substitute (.ofList (((spilledAmong slots i.reads).insertAll
        (spilledAmong slots i.writes).toList).toList.zip
          ((freeBackups backups j).map .fixed))) r)
      (substitute (.ofList (((spilledAmong slots' j.reads).insertAll
        (spilledAmong slots' j.writes).toList).toList.zip
          ((freeBackups backups j).map .fixed))) s) := by
    intro r s hr
    exact substitute_renamed hρ (.ofList hρ.registers
      (zip_renamed hused (Register.Renamed.forall₂_fixed _))) hr
  unfold expandInstruction
  simp only [hreads.isEmpty_eq, hwrites.isEmpty_eq, isRedundant_eq hρ hslots hi,
    freeBackups_eq hρ backups hi, hused.size_eq]
  refine ite_renamed Iff.rfl (.ok (.cons hi .nil)) (ite_renamed Iff.rfl (.ok .nil) ?_)
  refine ite_renamed Iff.rfl (.error trivial) (.ok ?_)
  refine List.rel_append (List.rel_append ?_ (.cons (hi.map hbackup) .nil)) ?_
  · exact transfers_renamed hρ hselection hslots (fun r s hr slot => .load slot (hbackup r s hr))
      hreads
  · exact transfers_renamed hρ hselection hslots (fun r s hr slot => .store slot (hbackup r s hr))
      hwrites

theorem expandFragment_renamed (hslots : slots.Renamed ρ (· = ·) slots')
    (backups : List HardwareRegister) (hf : f.Renamed (Register.Renamed ρ) g) :
    SameOutcome (fun _ _ => True) (Fragment.Renamed (Register.Renamed ρ))
      (expandFragment selection slots backups f) (expandFragment selection slots' backups g) := by
  refine .bind (.mapM hf.blocks fun b c hbc => ?_) fun k l hk => .ok ⟨hf.name, hk⟩
  rw [expandBlock_eq_bind, expandBlock_eq_bind]
  refine .bind (.mapM hbc.instructions fun i j hi =>
    expandInstruction_renamed hρ hselection hslots backups hi) fun k l hk => .ok ?_
  exact { hbc with instructions := List.rel_flatten hk }

theorem moveToStack_renamed (frame : Frame) (hf : f.Renamed (Register.Renamed ρ) g)
    (hx : x.Renamed ρ y) (ha : a.Renamed ρ b) (backups : List HardwareRegister) :
    EntryRenamed (· = ·) (SameOutcome SameKind (SpilledCode.Renamed ρ))
      (moveToStack selection Coloring.firstFit frame f x a backups)
      (moveToStack selection Coloring.firstFit frame g y b backups) := by
  have hspilled := spilledRegisters_renamed hρ ha
  unfold moveToStack
  rcases (checkAllocation_renamed ha backups).cases with ⟨_, _, h1, h2, -⟩ | ⟨_, _, h1, h2, -⟩
  · rw [h1, h2]
    exact ⟨rfl, .error rfl⟩
  rw [h1, h2]
  refine ite_renamed (Bool.eq_iff_iff.mp hspilled.isEmpty_eq) ⟨rfl, .ok ⟨hf, .empty⟩⟩ ?_
  rcases (assignSlots_renamed hρ frame hx hspilled).cases with
    ⟨_, _, h3, h4, he⟩ | ⟨⟨frame', slots⟩, ⟨_, slots'⟩, h3, h4, rfl, hslots⟩
  · rw [h3, h4]
    exact ⟨rfl, .error he⟩
  rcases (expandFragment_renamed hρ hselection hslots backups hf).cases with
    ⟨_, _, h5, h6, -⟩ | ⟨_, _, h5, h6, hcode⟩
  · simp only [h3, h4, h5, h6]
    exact ⟨rfl, .error rfl⟩
  · simp only [h3, h4, h5, h6]
    exact ⟨rfl, .ok ⟨hcode, hslots⟩⟩

end

end Spill

end Lowering
