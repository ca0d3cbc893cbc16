import Lowering.Proofs.Placement

/-!
# Where references are kept

A collector looks for references in the slots that are marked for them, and in no
register that is preserved across calls. References interfere with the preserved
registers, so that is where none is placed; the color of a slot is for one kind of
value only; and spill code works on backup registers, which are not preserved.
-/

namespace Lowering

universe u

variable {Tree : Type u} {selection : Selection Tree}

/-! ## Scratch registers -/

/-- The code in the place of an instruction works on scratch registers: the spilled
registers that the instruction reads are loaded into such registers, and those that
it writes are stored from them. There is no code for a copy within a slot. -/
def Spill.WorksOnScratch (selection : Selection Tree)
    (slots : InsertionMap VirtualRegister FrameSlot) (scratch : HardwareRegister → Prop)
    (i : Instruction) (code : List Instruction) : Prop :=
  (isRedundant slots i = true ∧ code = []) ∨ ∃ backup : Register → Register,
    code = loads selection slots backup i ++ [i.map backup] ++ stores selection slots backup i ∧
    (∀ r, slot? slots r = none → backup r = r) ∧
    ∀ r, r ∈ i.reads ∨ r ∈ i.writes → ∀ s, slot? slots r = some s →
      ∃ b, scratch b ∧ backup r = .fixed b

theorem Spill.worksOnScratch_codeFor {slots : InsertionMap VirtualRegister FrameSlot}
    {backups : List HardwareRegister} {i : Instruction} (hnodup : backups.Nodup)
    (h : expandInstruction selection slots backups i = .ok (codeFor selection slots backups i)) :
    WorksOnScratch selection slots (· ∈ backups) i (codeFor selection slots backups i) := by
  refine (expandInstruction_eq_ok hnodup h).imp_right ?_
  rintro ⟨-, backup, hsub, hcode⟩
  exact ⟨backup, hcode, hsub.kept, fun r hr => hsub.moved r (List.mem_append.mpr hr)⟩

theorem Spill.WorksOnScratch.mono {slots : InsertionMap VirtualRegister FrameSlot}
    {scratch scratch' : HardwareRegister → Prop} {i : Instruction} {code : List Instruction}
    (h : WorksOnScratch selection slots scratch i code) (himp : ∀ b, scratch b → scratch' b) :
    WorksOnScratch selection slots scratch' i code := by
  refine h.imp_right ?_
  rintro ⟨backup, hcode, hkept, hmoved⟩
  refine ⟨backup, hcode, hkept, fun r hr s hs => ?_⟩
  obtain ⟨b, hb, hbackup⟩ := hmoved r hr s hs
  exact ⟨b, himp b hb, hbackup⟩

namespace Compiler

variable {graph : FlowGraph Tree} {frame : Frame} {c : Compiler} {f : Fragment}
  {x : Interaction} {a : Allocation} {func : CompiledFunction} {backups : List HardwareRegister}
  {roles : Convention}

/-! ## Places and slots -/

/-- How the references of the code `f` with places `a` are kept in the compiled
function. -/
structure ReferencesVisible (selection : Selection Tree) (c : Convention) (f : Fragment)
    (a : Allocation) (func : CompiledFunction) : Prop where
  placed : ∀ v : VirtualRegister, v.holdsReference = true →
    .virtual v ∈ Liveness.registers f.points → ¬ .virtual v ∈ a.spills →
    ∃ h, a.place? (.virtual v) = some h ∧ ¬ h ∈ c.preserved ∧
      ∀ k, func.allocation.place? (.virtual v) = some k → k = h
  spilled : ∀ v : VirtualRegister, v.holdsReference = true → .virtual v ∈ a.spills →
    ∃ s, func.slots.get? v = some s ∧ s.holdsReference = true ∧
      ∀ w t, func.slots.get? w = some t → t.offset = s.offset → w.holdsReference = true
  scratch : ∃ code : Instruction → List Instruction, func.code = f.replace code ∧
    ∀ i ∈ f.instructions, Spill.WorksOnScratch selection func.slots
      (fun b => b ∈ c.backups ∧ ¬ b ∈ c.preserved) i (code i)
  marked : ∀ v s, func.slots.get? v = some s → s.holdsReference = v.holdsReference
  fixed_kept : ∀ h k, func.allocation.place? (.fixed h) = some k → k = h
  used_placed : ∀ i ∈ func.code.instructions, ∀ r, r ∈ i.reads ∨ r ∈ i.writes →
    ∃ h, func.allocation.place? r = some h

theorem Compiled.place?_fixed (h : Compiled c selection graph frame func f x a backups)
    {k : HardwareRegister} (hk : .fixed k ∈ x.registers) : a.place? (.fixed k) = some k := by
  have hnone : ¬ .fixed k ∈ a.spills := by
    rw [h.spills]
    simp [Spill.slot?, Register.virtual?]
  obtain ⟨k', hk'⟩ := (h.placed.placed_or_spilled _ hk).resolve_right hnone
  rwa [h.placed.fixed_kept k k' hk'] at hk'

/-- No reference is placed in a preserved register. -/
theorem Compiled.place_not_preserved (h : Compiled c selection graph frame func f x a backups)
    {v : VirtualRegister} (href : v.holdsReference = true) (hv : .virtual v ∈ x.registers)
    {k : HardwareRegister} (hk : a.place? (.virtual v) = some k) :
    ¬ k ∈ c.convention.preserved := by
  intro hpreserved
  obtain ⟨-, _, rfl, hregisters, hinterference⟩ := analyze_eq_ok h.analyze
  have hfixed : .fixed k ∈ x.registers :=
    hregisters ▸ Interaction.mem_registers_iff.mpr (.inr (.inl ⟨k, hpreserved, rfl⟩))
  have hinterferes : .fixed k ∈ x.interference.neighbors (.virtual v) :=
    hinterference ▸ Interaction.mem_interference_iff.mpr
      (.inl (.reference (hregisters ▸ hv) href hpreserved))
  exact h.placed.apart _ hv _ hfixed hinterferes k hk (h.place?_fixed hfixed)

/-- The code of a compiled function works on backup registers. -/
theorem Compiled.worksOnScratch (h : Compiled c selection graph frame func f x a backups)
    (hconvention : roles.checked = .ok c.convention) :
    ∃ code : Instruction → List Instruction, func.code = f.replace code ∧
      ∀ i ∈ f.instructions, Spill.WorksOnScratch selection func.slots
        (fun b => b ∈ c.convention.backups ∧ ¬ b ∈ c.convention.preserved) i (code i) := by
  obtain ⟨hexpand, hcode⟩ := Spill.expandFragment_eq_ok h.code
  have hbackups : backups.Nodup ∧ ∀ b ∈ backups, b ∈ c.convention.backups := by
    rcases h.backups_eq with rfl | rfl
    · exact ⟨List.nodup_nil, fun b hb => absurd hb List.not_mem_nil⟩
    · exact ⟨Convention.nodup_backups hconvention, fun b hb => hb⟩
  refine ⟨_, hcode, fun i hi => ?_⟩
  refine (Spill.worksOnScratch_codeFor hbackups.1 (hexpand i hi)).mono fun b hb => ?_
  have hmem := hbackups.2 b hb
  exact ⟨hmem, Convention.backups_not_preserved hconvention b hmem⟩

theorem referencesVisible (hconvention : roles.checked = .ok c.convention)
    (hok : (c.compile selection graph frame).2 = .ok func)
    (hplace : c.place selection graph = .ok (f, x, a))
    (h : Compiled c selection graph frame func f x a backups) :
    ReferencesVisible selection c.convention f a func := by
  obtain ⟨-, y, rfl, hregisters, -⟩ := analyze_eq_ok h.analyze
  constructor
  case placed =>
    intro v href hv hnone
    have hmem : .virtual v ∈ x.registers := hregisters ▸ Interaction.mem_registers_of_mem_points hv
    obtain ⟨k, hk⟩ := (h.placed.placed_or_spilled _ hmem).resolve_right hnone
    refine ⟨k, hk, h.place_not_preserved href hmem hk, fun k' hk' => ?_⟩
    have hfinal := finalPlace?_of_compile hok hplace hk'
    rw [finalPlace?_of_place? hk] at hfinal
    exact (Option.some.inj hfinal).symm
  case spilled =>
    intro v href hspilled
    obtain ⟨s, hs⟩ := (h.spills _).mp hspilled
    refine ⟨s, hs, (holdsReference_of_compile hok hs).trans href, fun w t ht hoffset => ?_⟩
    obtain rfl := h.slots.eq_of_offset w v t s ht hs hoffset
    rw [← holdsReference_of_compile hok ht, holdsReference_of_compile hok hs, href]
  case scratch => exact h.worksOnScratch hconvention
  case marked => exact fun v s => holdsReference_of_compile hok
  case fixed_kept =>
    intro k k' hk'
    have hfinal := finalPlace?_of_compile hok hplace hk'
    rw [finalPlace?_fixed h.placed] at hfinal
    exact (Option.some.inj hfinal).symm
  case used_placed => exact fun i hi r hr => ⟨_, h.places i hi r hr⟩

end Compiler

/-- For a checked convention and whatever options and selection, a collector finds
the references of every function that is compiled. A register of the code that
holds a reference has a place outside the preserved registers, and keeps it, if it
is not spilled. If it is, it has a slot for references, which only such registers
share, and it is loaded into and stored from backup registers that are not
preserved and are their own places. A register without a reference never has a
slot for references. -/
theorem compiled_references_visible {c : Compiler} {roles : Convention}
    (hconvention : roles.checked = .ok c.convention) {graph : FlowGraph Tree} {frame : Frame}
    {func : CompiledFunction} (hok : (c.compile selection graph frame).2 = .ok func) :
    ∃ f x a, c.place selection graph = .ok (f, x, a) ∧
      Compiler.ReferencesVisible selection c.convention f a func := by
  obtain ⟨f, x, a, backups, hplace, hcompiled⟩ := Compiler.exists_compiled hok
  exact ⟨f, x, a, hplace, Compiler.referencesVisible hconvention hok hplace hcompiled⟩

/-- Two references and two other values that are all needed at once. -/
def twoReferences : FlowGraph WorkList where
  name := "f"
  initial := 0
  vertices := .ofList [(0, .final
    [.compute "make" [] [.virtual ⟨0, true⟩], .compute "make" [] [.virtual ⟨1, true⟩],
      .compute "make" [] [.virtual ⟨2, false⟩], .compute "make" [] [.virtual ⟨3, false⟩],
      .compute "use" [.virtual ⟨0, true⟩] [], .compute "use" [.virtual ⟨1, true⟩] [],
      .compute "use" [.virtual ⟨2, false⟩] [], .compute "use" [.virtual ⟨3, false⟩] []])]

/-- Three registers, one of which is preserved and another set aside if something
is spilled. -/
def onePreserved : Convention where
  allowed := [.rax, .rcx, .rbx]
  preserved := [.rbx]
  backups := [.rcx]
  alwaysLive := []

/-- One of the references is spilled, and one is not. -/
theorem twoReferences_visible :
    ∃ func f x a, (Compiler.compile ⟨⟨.none, false, false, ""⟩, onePreserved⟩ .sequential
        twoReferences .empty).2 = .ok func ∧
      Compiler.place ⟨⟨.none, false, false, ""⟩, onePreserved⟩ .sequential twoReferences =
        .ok (f, x, a) ∧
      .virtual ⟨0, true⟩ ∈ a.spills ∧ ¬ .virtual ⟨1, true⟩ ∈ a.spills ∧
      Compiler.ReferencesVisible .sequential onePreserved f a func := by
  obtain ⟨func, hok⟩ : ∃ func, (Compiler.compile ⟨⟨.none, false, false, ""⟩, onePreserved⟩
      .sequential twoReferences .empty).2 = .ok func := exists_eq_ok (by decide +kernel)
  have hspills : (Compiler.place ⟨⟨.none, false, false, ""⟩, onePreserved⟩ .sequential
      twoReferences).toOption.map (fun p => (decide (.virtual ⟨0, true⟩ ∈ p.2.2.spills),
        decide (.virtual ⟨1, true⟩ ∈ p.2.2.spills))) = some (true, false) := by decide +kernel
  obtain ⟨f, x, a, hplace, hvisible⟩ := compiled_references_visible
    (c := ⟨⟨.none, false, false, ""⟩, onePreserved⟩)
    (show onePreserved.checked = .ok onePreserved from rfl) hok
  simp only [hplace, Except.toOption, Option.map_some, Option.some.injEq, Prod.mk.injEq,
    decide_eq_true_eq, decide_eq_false_iff_not] at hspills
  exact ⟨func, f, x, a, hok, hplace, hspills.1, hspills.2, hvisible⟩

end Lowering
