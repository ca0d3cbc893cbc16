import Lowering.Proofs.CompleteMerging
import Lowering.Proofs.SpillFaults

/-!
# Copies that need no slot of their own

There are as many colors for slots as spilled registers, so spilled registers that are
connected by copies share a slot whenever they can: if they hold the same kind of value
and none of them interfere. Copies between them then have no code, and it makes no
difference whether they stand in the code at all.
-/

namespace Lowering

universe u

namespace Spill

variable {x : Interaction} {spilled : InsertionSet VirtualRegister} {v : VirtualRegister}

/-- Two spilled registers are connected by copies between spilled registers. -/
def CopyRelated (x : Interaction) (spilled : InsertionSet VirtualRegister) :
    VirtualRegister → VirtualRegister → Prop :=
  Relation.EqvGen fun v w =>
    v ∈ spilled ∧ w ∈ spilled ∧ .virtual w ∈ x.copying.neighbors (.virtual v)

/-- The registers that are connected to a spilled register by copies can share a slot:
they hold the same kind of value, and none of them interfere. -/
structure CanShare (x : Interaction) (spilled : InsertionSet VirtualRegister)
    (v : VirtualRegister) : Prop where
  kind : ∀ w, CopyRelated x spilled v w → w.holdsReference = v.holdsReference
  apart : ∀ u w, CopyRelated x spilled v u → CopyRelated x spilled v w →
    ¬ .virtual w ∈ x.interference.neighbors (.virtual u)

/-- The instruction copies between two registers that are connected to a spilled register
by copies. -/
def CopiesBetween (x : Interaction) (spilled : InsertionSet VirtualRegister)
    (v : VirtualRegister) (i : Instruction) : Prop :=
  ∃ u w, i.copy? = some ⟨.virtual w, .virtual u⟩ ∧ .virtual u ∈ i.reads ∧
    .virtual w ∈ i.writes ∧ CopyRelated x spilled v u ∧ CopyRelated x spilled v w

/-! ## Slots -/

theorem copyRelated_coloringProblem :
    (coloringProblem x spilled).CopyRelated = CopyRelated x spilled := by
  unfold ColoringProblem.CopyRelated CopyRelated
  congr 1
  funext u w
  apply propext
  constructor
  · rintro ⟨-, -, hcopy⟩
    exact mem_neighbors_restrict.mp hcopy
  · intro hcopy
    exact ⟨mem_vertices_coloringProblem.mpr hcopy.1, mem_vertices_coloringProblem.mpr hcopy.2.1,
      mem_neighbors_restrict.mpr hcopy⟩

theorem CanShare.coloringProblem (hshare : CanShare x spilled v) :
    (coloringProblem x spilled).CanShare v := by
  constructor
  · rw [copyRelated_coloringProblem]
    intro u w hu hw hadjacent
    obtain ⟨-, -, hinterferes | hkind⟩ := mem_neighbors_coloringProblem.mp hadjacent
    · exact hshare.apart u w hu hw hinterferes
    · exact hkind ((hshare.kind u hu).trans (hshare.kind w hw).symm)
  · intro u w c d _ _ hc
    exact absurd hc (by simp [Spill.coloringProblem])

variable {frame frame' : Frame} {slots : InsertionMap VirtualRegister FrameSlot}

/-- Registers that can share a slot do. -/
theorem exists_shared_slot
    (hassign : assignSlots Coloring.firstFit frame x spilled = .ok (frame', slots))
    (hv : v ∈ spilled) (hshare : CanShare x spilled v) :
    ∃ slot, ∀ w, CopyRelated x spilled v w → slots.get? w = some slot := by
  obtain ⟨colors, found, hcolors, -, hget⟩ := assignSlots_eq_ok hassign
  have hvertex : v ∈ (coloringProblem x spilled).vertices := mem_vertices_coloringProblem.mpr hv
  obtain ⟨colors', hok, c, hshared⟩ := Coloring.exists_shared_color
    (Coloring.firstFit_eq_ok hcolors).1 List.nodup_range
    (size_vertices_coloringProblem_le x spilled) hvertex hshare.coloringProblem
  obtain rfl := Except.ok.inj (hok.symm.trans hcolors)
  obtain ⟨slot, hslot⟩ :=
    InsertionMap.mem_iff_exists_get?.mp ((mem_of_assignSlots hassign v).mpr hv)
  obtain ⟨-, d, hd, htaken⟩ := (hget v slot).mp hslot
  refine ⟨slot, fun w hw => (hget w slot).mpr ?_⟩
  rw [← copyRelated_coloringProblem] at hw
  refine ⟨mem_vertices_coloringProblem.mp (hw.mem_vertices_iff.mp hvertex), c, hshared w hw, ?_⟩
  rwa [Option.some.inj ((hshared v (.refl v)).symm.trans hd)]

/-! ## Code -/

variable {Tree : Type u} {selection : Selection Tree} {backups : List HardwareRegister}
  {i : Instruction} {f : Fragment}

/-- A copy between registers that share a slot has no code. -/
theorem expandInstruction_of_copiesBetween {slot : FrameSlot}
    (hslot : ∀ w, CopyRelated x spilled v w → slots.get? w = some slot)
    (hi : CopiesBetween x spilled v i) :
    expandInstruction selection slots backups i = .ok [] := by
  obtain ⟨u, w, hcopy, hread, -, hu, hw⟩ := hi
  have hredundant : isRedundant slots i = true :=
    isRedundant_eq_true.mpr ⟨_, slot, hcopy, hslot w hw, hslot u hu⟩
  have hreads : (spilledAmong slots i.reads).isEmpty = false :=
    InsertionSet.isEmpty_of_mem (mem_spilledAmong.mpr ⟨hread, slot, hslot u hu⟩)
  simp [expandInstruction, hreads, hredundant]

/-- The instruction itself, unless it is to be dropped. -/
def keep (drop : Instruction → Bool) (i : Instruction) : List Instruction :=
  if drop i then [] else [i]

theorem mapM_flatten_cons {α β ε : Type} (g : α → Except ε (List β)) (a : α) (l : List α) :
    ((a :: l).mapM g).map List.flatten =
      g a >>= fun code => ((l.mapM g).map List.flatten).map (code ++ ·) := by
  rw [List.mapM_cons]
  cases g a with
  | error e => rfl
  | ok code => cases l.mapM g <;> rfl

/-- What has no code can be dropped before. -/
theorem mapM_flatten_keep {ε : Type} {g : Instruction → Except ε (List Instruction)}
    {drop : Instruction → Bool} (hdrop : ∀ i, drop i = true → g i = .ok [])
    (l : List Instruction) :
    ((l.flatMap (keep drop)).mapM g).map List.flatten = (l.mapM g).map List.flatten := by
  induction l with
  | nil => rfl
  | cons i l ih =>
      rw [List.flatMap_cons, mapM_flatten_cons, ← ih]
      cases hi : drop i with
      | true =>
          rw [keep, if_pos hi, List.nil_append, hdrop i hi]
          cases (l.flatMap (keep drop)).mapM g <;> rfl
      | false =>
          rw [keep, hi, if_neg Bool.false_ne_true, List.singleton_append, mapM_flatten_cons]

theorem expandBlock_eq_map (b : Block) :
    expandBlock selection slots backups b =
      ((b.instructions.mapM (expandInstruction selection slots backups)).map List.flatten).map
        fun code => { b with instructions := code } := by
  rw [expandBlock_eq_bind]
  cases b.instructions.mapM (expandInstruction selection slots backups) <;> rfl

theorem expandFragment_keep {drop : Instruction → Bool}
    (hdrop : ∀ i, drop i = true → expandInstruction selection slots backups i = .ok []) :
    expandFragment selection slots backups (f.replace (keep drop)) =
      expandFragment selection slots backups f := by
  have hblock : ∀ b : Block, expandBlock selection slots backups
      { b with instructions := b.instructions.flatMap (keep drop) } =
        expandBlock selection slots backups b := by
    intro b
    rw [expandBlock_eq_map, expandBlock_eq_map, mapM_flatten_keep hdrop]
  simp only [expandFragment, Fragment.replace, List.mapM_map, Function.comp_def, hblock]

/-- Moving registers to the stack does not depend on copies between registers that can
share a slot. -/
theorem moveToStack_keep {a : Allocation} (hv : v ∈ spilledRegisters a)
    (hshare : CanShare x (spilledRegisters a) v) {drop : Instruction → Bool}
    (hdrop : ∀ i, drop i = true → CopiesBetween x (spilledRegisters a) v i) :
    moveToStack selection Coloring.firstFit frame (f.replace (keep drop)) x a backups =
      moveToStack selection Coloring.firstFit frame f x a backups := by
  unfold moveToStack
  cases checkAllocation a backups with
  | error fault => rfl
  | ok _ =>
      simp only [InsertionSet.isEmpty_of_mem hv, Bool.false_eq_true, if_false]
      cases hassign : assignSlots Coloring.firstFit frame x (spilledRegisters a) with
      | error e => rfl
      | ok assigned =>
          obtain ⟨slot, hslot⟩ := exists_shared_slot hassign hv hshare
          simp only [expandFragment_keep fun i hi =>
            expandInstruction_of_copiesBetween hslot (hdrop i hi)]

end Spill

/-- With as many colors as vertices, all vertices that are connected by copies get one
color, if no two of them are neighbors or pinned to different colors. There are always as
many slots to choose from as spilled registers. So spilled registers that are connected by
copies share one slot, if they hold the same kind of value and none of them interfere. A
copy between two of them has no code, and the outcome is the same without it. -/
theorem enough_colors_merge_copies {Tree : Type u} (selection : Selection Tree) :
    (∀ {V C : Type} [DecidableEq V] [DecidableEq C] (p : ColoringProblem V C) (v : V),
      (¬ ∃ w, w ∈ p.graph.neighbors w) → p.allowed.Nodup →
      p.vertices.size ≤ p.allowed.length → p.graph.Mentions v → p.CanShare v →
      ∃ colors, Coloring.firstFit p = .ok colors ∧
        ∃ c, ∀ a, p.CopyRelated v a → colors.get? a = some c) ∧
    ∀ (frame : Frame) (f : Fragment) (x : Interaction) (a : Allocation)
      (backups : List HardwareRegister) (v : VirtualRegister),
      v ∈ Spill.spilledRegisters a → Spill.CanShare x (Spill.spilledRegisters a) v →
      (∀ out, (Spill.moveToStack selection Coloring.firstFit frame f x a backups).2 = .ok out →
        (∃ slot, ∀ w, Spill.CopyRelated x (Spill.spilledRegisters a) v w →
          out.slots.get? w = some slot) ∧
        out.code = f.replace (Spill.codeFor selection out.slots backups) ∧
        ∀ i, Spill.CopiesBetween x (Spill.spilledRegisters a) v i →
          Spill.codeFor selection out.slots backups i = []) ∧
      ∀ drop : Instruction → Bool,
        (∀ i, drop i = true → Spill.CopiesBetween x (Spill.spilledRegisters a) v i) →
        Spill.moveToStack selection Coloring.firstFit frame (f.replace (Spill.keep drop)) x a
            backups =
          Spill.moveToStack selection Coloring.firstFit frame f x a backups := by
  constructor
  · intro V C _ _ p v hloop hnodup henough hv hshare
    exact Coloring.exists_shared_color (Relation.selfLoop?_eq_none_iff.mpr hloop) hnodup henough
      (Relation.mem_keys_symmetricClosure.mpr hv) hshare
  · intro frame f x a backups v hv hshare
    refine ⟨fun out hok => ?_, fun drop hdrop => Spill.moveToStack_keep hv hshare hdrop⟩
    obtain ⟨-, ⟨hempty, -⟩ | ⟨frame', hassign, hexpand⟩⟩ := Spill.moveToStack_cases hok
    · exact absurd (hempty.symm.trans (InsertionSet.isEmpty_of_mem hv)) Bool.noConfusion
    · obtain ⟨slot, hslot⟩ := Spill.exists_shared_slot hassign hv hshare
      refine ⟨⟨slot, hslot⟩, (Spill.expandFragment_eq_ok hexpand).2, fun i hi => ?_⟩
      rw [Spill.codeFor, Spill.expandInstruction_of_copiesBetween hslot hi]

/-- A value is copied, and the copy is copied again. -/
def copiedTwice : List Instruction :=
  [.operate (.copy ⟨.virtual ⟨1, false⟩, .virtual ⟨0, false⟩⟩),
    .operate (.copy ⟨.virtual ⟨2, false⟩, .virtual ⟨1, false⟩⟩)]

/-- The value and its copies. -/
def copiedTwiceValues : List VirtualRegister :=
  [⟨0, false⟩, ⟨1, false⟩, ⟨2, false⟩]

/-- Another value is kept for the use of the last copy. -/
def copiedTwiceCode : Fragment where
  name := "f"
  blocks := [.unlinked ⟨"b"⟩ ([.operate (.compute "make" [] [.virtual ⟨3, false⟩]),
    .operate (.compute "make" [] [.virtual ⟨0, false⟩])] ++ copiedTwice ++
    [.operate (.compute "use" [.virtual ⟨2, false⟩, .virtual ⟨3, false⟩] [])])]

/-- All values are spilled. -/
def copiedTwiceSpills : Allocation where
  assigned := ∅
  spills := .ofList [.virtual ⟨0, false⟩, .virtual ⟨1, false⟩, .virtual ⟨2, false⟩,
    .virtual ⟨3, false⟩]

/-- The slots to be found for the values. -/
def copiedTwiceProblem : ColoringProblem VirtualRegister Nat :=
  Spill.coloringProblem (Interaction.ofFragment copiedTwiceCode [] [])
    (Spill.spilledRegisters copiedTwiceSpills)

/-- Code with all values on the stack. -/
def copiedTwiceMoved (f : Fragment) : Frame × Except Error SpilledCode :=
  Spill.moveToStack .sequential Coloring.firstFit .empty f
    (Interaction.ofFragment copiedTwiceCode [] []) copiedTwiceSpills [.rax, .rbx]

theorem copiedTwice_share_slot :
    (∃ colors, Coloring.firstFit copiedTwiceProblem = .ok colors ∧
      ∃ c, ∀ v ∈ copiedTwiceValues, colors.get? v = some c) ∧
    copiedTwiceMoved (copiedTwiceCode.replace (Spill.keep fun i => decide (i ∈ copiedTwice))) =
      copiedTwiceMoved copiedTwiceCode ∧
    ∃ out, (copiedTwiceMoved copiedTwiceCode).2 = .ok out ∧
      ∃ slot, ∀ v ∈ copiedTwiceValues, out.slots.get? v = some slot := by
  let x := Interaction.ofFragment copiedTwiceCode [] []
  let spilled := Spill.spilledRegisters copiedTwiceSpills
  have hfirst : Spill.CopyRelated x spilled ⟨0, false⟩ ⟨1, false⟩ := .rel _ _ (by decide +kernel)
  have hsecond : Spill.CopyRelated x spilled ⟨0, false⟩ ⟨2, false⟩ :=
    .trans _ _ _ hfirst (.rel _ _ (by decide +kernel))
  have hrelated : ∀ v ∈ copiedTwiceValues, Spill.CopyRelated x spilled ⟨0, false⟩ v := by
    simpa [copiedTwiceValues] using ⟨.refl _, hfirst, hsecond⟩
  have hclass : ∀ v, Spill.CopyRelated x spilled ⟨0, false⟩ v → v ∈ copiedTwiceValues := by
    intro v hv
    rw [← Spill.copyRelated_coloringProblem] at hv
    have hmem := hv.mem_vertices_iff.mp (by decide +kernel)
    have hall : ∀ v ∈ copiedTwiceProblem.vertices.toList,
        copiedTwiceProblem.classes.get? ⟨0, false⟩ = copiedTwiceProblem.classes.get? v →
        v ∈ copiedTwiceValues := by decide +kernel
    exact hall v hmem hv.class_eq
  have hshare : Spill.CanShare x spilled ⟨0, false⟩ := by
    constructor
    · intro v hv
      have hkinds : ∀ v ∈ copiedTwiceValues, v.holdsReference = false := by decide
      exact hkinds v (hclass v hv)
    · intro v w hv hw
      have hapart : ∀ v ∈ copiedTwiceValues, ∀ w ∈ copiedTwiceValues,
          ¬ .virtual w ∈ x.interference.neighbors (.virtual v) := by decide +kernel
      exact hapart v (hclass v hv) w (hclass w hw)
  have hcopies : ∀ i, decide (i ∈ copiedTwice) = true →
      Spill.CopiesBetween x spilled ⟨0, false⟩ i := by
    intro i hi
    have hi := of_decide_eq_true hi
    simp only [copiedTwice, List.mem_cons, List.not_mem_nil, or_false] at hi
    rcases hi with rfl | rfl
    · exact ⟨_, _, rfl, by decide, by decide, .refl _, hfirst⟩
    · exact ⟨_, _, rfl, by decide, by decide, hfirst, hsecond⟩
  obtain ⟨hcolors, hslots⟩ := enough_colors_merge_copies Selection.sequential
  obtain ⟨hmoved, hdropped⟩ := hslots .empty copiedTwiceCode x copiedTwiceSpills [.rax, .rbx]
    ⟨0, false⟩ (by decide +kernel) hshare
  refine ⟨?_, hdropped _ hcopies, ?_⟩
  · obtain ⟨colors, hok, c, hc⟩ := hcolors copiedTwiceProblem ⟨0, false⟩
      (Relation.selfLoop?_eq_none_iff.mp (by decide +kernel)) List.nodup_range
      (by decide +kernel) (Relation.mem_keys_symmetricClosure.mp (by decide +kernel))
      hshare.coloringProblem
    refine ⟨colors, hok, c, fun v hv => hc v ?_⟩
    rw [copiedTwiceProblem, Spill.copyRelated_coloringProblem]
    exact hrelated v hv
  · obtain ⟨out, hout⟩ : ∃ out, (copiedTwiceMoved copiedTwiceCode).2 = .ok out :=
      exists_eq_ok (by decide +kernel)
    obtain ⟨⟨slot, hslot⟩, -⟩ := hmoved out hout
    exact ⟨out, hout, slot, fun v hv => hslot v (hrelated v hv)⟩

end Lowering
