import Lowering.Compiler
import Lowering.Proofs.SpillRun

/-!
# Where a compiled function keeps its registers

A function is compiled with its registers in their places, or at a second attempt
with the backup registers set aside and some registers on the stack. Either way
the registers have safe homes.
-/

namespace Lowering

universe u

namespace Convention

variable {roles c : Convention}

theorem checked_eq_ok (h : roles.checked = .ok c) : roles.check = .ok () ∧ c = roles.dedup := by
  unfold checked at h
  split at h
  · simp at h
  · exact ⟨by assumption, (Except.ok.inj h).symm⟩

theorem nodup_backups (h : roles.checked = .ok c) : c.backups.Nodup := by
  obtain ⟨-, rfl⟩ := checked_eq_ok h
  exact (InsertionSet.ofList roles.backups).nodup

/-- A convention passes the check exactly if its roles do not contradict each other. -/
theorem check_eq_ok_iff : roles.check = .ok () ↔
    (∀ r ∈ roles.preserved, r ∈ roles.allowed) ∧ (∀ r ∈ roles.backups, r ∈ roles.allowed) ∧
      (∀ r ∈ roles.backups, ¬ r ∈ roles.preserved) ∧ (∀ r ∈ roles.alwaysLive, r ∈ roles.allowed) ∧
      ∀ r ∈ roles.backups, ¬ r ∈ roles.alwaysLive := by
  simp only [check, check_then_eq_ok_iff, rejectFirst_eq_ok_iff, ite_eq_left_iff, ite_eq_right_iff,
    reduceCtorEq, imp_false, not_not]

theorem backups_allowed (h : roles.checked = .ok c) : ∀ b ∈ c.backups, b ∈ c.allowed := by
  obtain ⟨hcheck, rfl⟩ := checked_eq_ok h
  obtain ⟨-, hallowed, -⟩ := check_eq_ok_iff.mp hcheck
  intro b hb
  exact InsertionSet.mem_ofList.mpr (hallowed b (InsertionSet.mem_ofList.mp hb))

theorem backups_not_preserved (h : roles.checked = .ok c) :
    ∀ b ∈ c.backups, ¬ b ∈ c.preserved := by
  obtain ⟨hcheck, rfl⟩ := checked_eq_ok h
  obtain ⟨-, -, hapart, -⟩ := check_eq_ok_iff.mp hcheck
  intro b hb hpreserved
  exact hapart b (InsertionSet.mem_ofList.mp hb) (InsertionSet.mem_ofList.mp hpreserved)

theorem mem_allowedWithoutBackups {b : HardwareRegister} :
    b ∈ c.allowedWithoutBackups ↔ b ∈ c.allowed ∧ ¬ b ∈ c.backups := by
  simp [allowedWithoutBackups]

end Convention

namespace Allocation

variable {a : Allocation} {x : Interaction} {c : Convention}
  {allowed backups : List HardwareRegister} {solver : Solver Register HardwareRegister}
  {r : Register}

theorem valid_of_allocate (h : allocate solver x allowed = .ok a) : a.Valid x allowed := by
  obtain ⟨_, -, h⟩ := bind_eq_ok_iff.mp h
  obtain ⟨colors, -, h⟩ := bind_eq_ok_iff.mp h
  obtain ⟨_, hvalidate, h⟩ := bind_eq_ok_iff.mp h
  obtain rfl := Except.ok.inj h
  exact validate_eq_ok_iff.mp hvalidate

theorem place?_reserve_of_mem {b : HardwareRegister} (hb : b ∈ backups) :
    (a.reserve backups).place? (.fixed b) = some b := by
  refine InsertionMap.get?_insertAll_of_mem (List.mem_map.mpr ⟨b, hb, rfl⟩) fun d hd => ?_
  obtain ⟨e, -, he⟩ := List.mem_map.mp hd
  obtain ⟨hfixed, rfl⟩ := Prod.mk.inj he
  exact Register.fixed.inj hfixed

theorem place?_reserve_of_not_mem (hr : ∀ b ∈ backups, r ≠ .fixed b) :
    (a.reserve backups).place? r = a.place? r := by
  refine InsertionMap.get?_insertAll_of_not_mem fun hmem => ?_
  simp only [List.map_map, List.mem_map, Function.comp_apply] at hmem
  obtain ⟨b, hb, rfl⟩ := hmem
  exact hr b hb rfl

theorem place?_reserve_eq_some {k : HardwareRegister} :
    (a.reserve backups).place? r = some k ↔
      (k ∈ backups ∧ r = .fixed k) ∨ (∀ b ∈ backups, r ≠ .fixed b) ∧ a.place? r = some k := by
  by_cases hbackup : ∃ b ∈ backups, r = .fixed b
  · obtain ⟨b, hb, rfl⟩ := hbackup
    rw [place?_reserve_of_mem hb, Option.some.injEq]
    constructor
    · rintro rfl
      exact .inl ⟨hb, rfl⟩
    · rintro (⟨-, hk⟩ | ⟨hnot, -⟩)
      · exact Register.fixed.inj hk
      · exact absurd rfl (hnot b hb)
  · have hnot : ∀ b ∈ backups, r ≠ .fixed b := fun b hb heq => hbackup ⟨b, hb, heq⟩
    rw [place?_reserve_of_not_mem hnot]
    constructor
    · exact fun hk => .inr ⟨hnot, hk⟩
    · rintro (⟨hk, hr⟩ | ⟨-, hk⟩)
      · exact absurd hr (hnot k hk)
      · exact hk

/-- Every register of the function has a place or is spilled, interfering
registers have different places, and the given backup registers are no places. -/
structure Placed (a : Allocation) (x : Interaction) (backups : List HardwareRegister) : Prop where
  placed_or_spilled : ∀ r ∈ x.registers, (∃ h, a.place? r = some h) ∨ r ∈ a.spills
  fixed_kept : ∀ h k, a.place? (.fixed h) = some k → k = h
  apart : ∀ r ∈ x.registers, ∀ s ∈ x.registers, s ∈ x.interference.neighbors r →
    ∀ h, a.place? r = some h → a.place? s ≠ some h
  not_backup : ∀ r ∈ x.registers, ∀ h, a.place? r = some h → ¬ h ∈ backups

theorem Valid.placed (h : a.Valid x allowed) : a.Placed x [] where
  placed_or_spilled r hr :=
    (h.placed_or_spilled r hr).imp_left InsertionMap.mem_iff_exists_get?.mp
  fixed_kept := h.fixed_kept
  apart r _ s _ hs k := h.apart r s k hs
  not_backup _ _ _ _ := List.not_mem_nil

/-- If the backup registers were not allowed, then no register of the function is
one of them, and they can be reserved. -/
theorem Valid.placed_reserve (h : a.Valid x c.allowedWithoutBackups) :
    (a.reserve c.backups).Placed x c.backups := by
  have hnot : ∀ r k, a.place? r = some k → ¬ k ∈ c.backups := by
    intro r k hk
    exact (Convention.mem_allowedWithoutBackups.mp (h.place_allowed r k hk)).2
  have hapart : ∀ r ∈ x.registers, ∀ b ∈ c.backups, r ≠ .fixed b := by
    rintro r hr b hb rfl
    obtain ⟨k, hk⟩ := h.exists_place hr (h.fixed_not_spilled _ hr rfl)
    exact hnot _ k hk (h.fixed_kept b k hk ▸ hb)
  have hsame : ∀ r ∈ x.registers, (a.reserve c.backups).place? r = a.place? r := fun r hr =>
    place?_reserve_of_not_mem (hapart r hr)
  constructor
  case placed_or_spilled =>
    intro r hr
    rw [hsame r hr]
    exact (h.placed_or_spilled r hr).imp_left InsertionMap.mem_iff_exists_get?.mp
  case fixed_kept =>
    intro b k hk
    rcases place?_reserve_eq_some.mp hk with ⟨-, heq⟩ | ⟨-, hk⟩
    · exact (Register.fixed.inj heq).symm
    · exact h.fixed_kept b k hk
  case apart =>
    intro r hr s hs hinterferes k
    rw [hsame r hr, hsame s hs]
    exact h.apart r s k hinterferes
  case not_backup =>
    intro r hr k
    rw [hsame r hr]
    exact hnot r k

/-- Either the first attempt spills nothing, or a second one sets the backup
registers aside. -/
theorem allocateWithRetry_cases (h : allocateWithRetry solver x c = .ok a) :
    (allocate solver x c.allowed = .ok a ∧ a.isSpillFree = true) ∨
      ∃ first second, allocate solver x c.allowed = .ok first ∧ first.isSpillFree = false ∧
        allocate solver x c.allowedWithoutBackups = .ok second ∧
        a = second.reserve c.backups := by
  obtain ⟨first, hfirst, h⟩ := bind_eq_ok_iff.mp h
  split_ifs at h with hfree
  · obtain rfl := Except.ok.inj h
    exact .inl ⟨hfirst, hfree⟩
  · obtain ⟨second, hsecond, h⟩ := bind_eq_ok_iff.mp h
    exact .inr ⟨first, second, hfirst, Bool.eq_false_iff.mpr hfree, hsecond,
      (Except.ok.inj h).symm⟩

theorem place_allowed_of_allocateWithRetry (h : allocateWithRetry solver x c = .ok a)
    (hbackups : ∀ b ∈ c.backups, b ∈ c.allowed) {k : HardwareRegister}
    (hk : a.place? r = some k) : k ∈ c.allowed := by
  rcases allocateWithRetry_cases h with ⟨hfirst, -⟩ | ⟨-, second, -, -, hsecond, rfl⟩
  · exact (valid_of_allocate hfirst).place_allowed r k hk
  · rcases place?_reserve_eq_some.mp hk with ⟨hb, -⟩ | ⟨-, hk⟩
    · exact hbackups k hb
    · have hplace := (valid_of_allocate hsecond).place_allowed r k hk
      exact (Convention.mem_allowedWithoutBackups.mp hplace).1

/-- Either nothing is spilled, or the backup registers are set aside. -/
theorem placed_of_allocateWithRetry (h : allocateWithRetry solver x c = .ok a) :
    (a.Placed x [] ∧ a.isSpillFree = true) ∨ a.Placed x c.backups := by
  rcases allocateWithRetry_cases h with ⟨hfirst, hfree⟩ | ⟨-, second, -, -, hsecond, rfl⟩
  · exact .inl ⟨(valid_of_allocate hfirst).placed, hfree⟩
  · exact .inr (valid_of_allocate hsecond).placed_reserve

theorem exists_placed_of_allocateWithRetry (h : allocateWithRetry solver x c = .ok a) :
    ∃ backups, a.Placed x backups := by
  rcases placed_of_allocateWithRetry h with ⟨hplaced, -⟩ | hplaced
  · exact ⟨[], hplaced⟩
  · exact ⟨c.backups, hplaced⟩

end Allocation

namespace Compiler

variable {Tree : Type u} {selection : Selection Tree} {graph : FlowGraph Tree} {frame : Frame}
  {c : Compiler} {f : Fragment} {x : Interaction} {a : Allocation} {func : CompiledFunction}
  {backups : List HardwareRegister} {slots : InsertionMap VirtualRegister FrameSlot}
  {r : Register} {h : HardwareRegister}

/-- The place of a register in the end; only registers that have one matter. -/
def finalPlace (a : Allocation) (r : Register) : HardwareRegister :=
  (finalPlace? a r).getD default

theorem finalPlace?_of_place? (hr : a.place? r = some h) : finalPlace? a r = some h := by
  simp [finalPlace?, hr]

theorem finalPlace_eq (hr : a.place? r = some h) : finalPlace a r = h := by
  rw [finalPlace, finalPlace?_of_place? hr, Option.getD_some]

theorem finalPlace?_fixed (hplaced : a.Placed x backups) (h : HardwareRegister) :
    finalPlace? a (.fixed h) = some h := by
  cases hk : a.place? (.fixed h) with
  | none => simp [finalPlace?, hk, Register.fixed?]
  | some k => rw [finalPlace?_of_place? hk, hplaced.fixed_kept h k hk]

theorem finalPlace_fixed (hplaced : a.Placed x backups) (h : HardwareRegister) :
    finalPlace a (.fixed h) = h := by
  rw [finalPlace, finalPlace?_fixed hplaced, Option.getD_some]

theorem analyze_eq_ok (h : c.analyze f = .ok x) :
    (∀ b ∈ f.blocks, b.instructions ≠ []) ∧
      ∃ y, y = Interaction.ofFragment f c.convention.preserved c.convention.alwaysLive ∧
        x.registers = y.registers ∧ x.interference = y.interference := by
  obtain ⟨y, hy, h⟩ := bind_eq_ok_iff.mp h
  obtain ⟨hblocks, rfl⟩ := Interaction.analyze_eq_ok hy
  obtain rfl := Except.ok.inj h
  refine ⟨hblocks, _, rfl, ?_⟩
  split_ifs <;> exact ⟨rfl, rfl⟩

/-- Places and slots together are safe homes for the registers of the code. -/
theorem homes_of_placed (hpure : f.CopiesArePure) (hanalyze : c.analyze f = .ok x)
    (hplaced : a.Placed x backups) (hnodup : backups.Nodup)
    (huses : ∀ i ∈ f.instructions, Stack.Uses frame.Owns i)
    (hslots : Spill.SlotsFor x (Spill.spilledRegisters a) frame.offset slots)
    (hspills : ∀ r, r ∈ a.spills ↔ ∃ s, Spill.slot? slots r = some s) :
    Spill.Homes f slots backups frame.Owns (finalPlace a) := by
  obtain ⟨-, y, rfl, hregisters, hinterference⟩ := analyze_eq_ok hanalyze
  have hmem : ∀ r ∈ Liveness.registers f.points, r ∈ x.registers := fun r hr =>
    hregisters ▸ Interaction.mem_registers_of_mem_points hr
  have hplace : ∀ r ∈ Liveness.registers f.points, Spill.slot? slots r = none →
      ∃ h, a.place? r = some h := by
    intro r hr hnone
    refine (hplaced.placed_or_spilled r (hmem r hr)).resolve_right fun hspilled => ?_
    simpa [hnone] using (hspills r).mp hspilled
  refine Spill.homes_of_slotsFor hpure hinterference huses hslots hnodup ?_ ?_ ?_
  · intro b _ d _ heq
    rwa [finalPlace_fixed hplaced, finalPlace_fixed hplaced] at heq
  · intro r hr hnone b hb heq
    obtain ⟨h, hh⟩ := hplace r hr hnone
    rw [finalPlace_eq hh, finalPlace_fixed hplaced] at heq
    exact hplaced.not_backup r (hmem r hr) h hh (heq ▸ hb)
  · intro r hr w hw hrnone hwnone hinterferes _ heq
    obtain ⟨h, hh⟩ := hplace r hr hrnone
    obtain ⟨k, hk⟩ := hplace w hw hwnone
    rw [finalPlace_eq hh, finalPlace_eq hk] at heq
    exact hplaced.apart r (hmem r hr) w (hmem w hw) hinterferes h hh (heq ▸ hk)

/-- How a compiled function came about: its code is the code of the graph, with
spill code by way of the given backup registers, and its registers are in the
places of the given allocation. -/
structure Compiled (c : Compiler) (selection : Selection Tree) (graph : FlowGraph Tree)
    (frame : Frame) (func : CompiledFunction) (f : Fragment) (x : Interaction) (a : Allocation)
    (backups : List HardwareRegister) : Prop where
  layOut : graph.layOut selection = .ok f
  analyze : c.analyze f = .ok x
  placed : a.Placed x backups
  backups_eq : backups = [] ∨ backups = c.convention.backups
  slots : Spill.SlotsFor x (Spill.spilledRegisters a) frame.offset func.slots
  spills : ∀ r, r ∈ a.spills ↔ ∃ s, Spill.slot? func.slots r = some s
  code : Spill.expandFragment selection func.slots backups f = .ok func.code
  places : ∀ i ∈ func.code.instructions, ∀ r, r ∈ i.reads ∨ r ∈ i.writes →
    func.allocation.place? r = some (finalPlace a r)

theorem compiled_of_isSpillFree {name : String} (hlayOut : graph.layOut selection = .ok f)
    (hanalyze : c.analyze f = .ok x) (hplaced : a.Placed x backups)
    (hbackups : backups = [] ∨ backups = c.convention.backups) (hfree : a.isSpillFree = true) :
    Compiled c selection graph frame ⟨name, f, a, ∅⟩ f x a backups := by
  have hnone := Allocation.not_mem_spills_of_isSpillFree hfree
  have hempty : (Spill.spilledRegisters a).isEmpty = true := by
    rw [InsertionSet.isEmpty, List.isEmpty_iff, List.eq_nil_iff_forall_not_mem]
    exact fun v hv => hnone _ (Spill.mem_spilledRegisters.mp hv)
  refine ⟨hlayOut, hanalyze, hplaced, hbackups, Spill.slotsFor_empty hempty, fun r => ?_,
    Spill.expandFragment_of_no_slots Spill.slot?_empty, fun i hi r hr => ?_⟩
  · simp [hnone r, Spill.slot?_empty]
  · obtain ⟨-, y, rfl, hregisters, -⟩ := analyze_eq_ok hanalyze
    have hmem : r ∈ x.registers := hregisters ▸
      Interaction.mem_registers_of_mem_points (Fragment.mem_registers_iff.mpr ⟨i, hi, hr⟩)
    obtain ⟨h, hh⟩ := (hplaced.placed_or_spilled r hmem).resolve_right (hnone r)
    rw [finalPlace_eq hh]
    exact hh

theorem exists_of_finish {name : String} {s : SpilledCode}
    (hfinish : c.finish name s a = .ok func) :
    ∃ final, afterSpilling c.convention s.code a = .ok final ∧
      func = ⟨name, s.code, final, s.slots⟩ := by
  obtain ⟨final, hafter, hfinish⟩ := bind_eq_ok_iff.mp hfinish
  refine ⟨final, hafter, ?_⟩
  split_ifs at hfinish with hdisabled
  · exact (Except.ok.inj hfinish).symm
  · obtain ⟨_, -, hfinish⟩ := bind_eq_ok_iff.mp hfinish
    obtain ⟨_, -, hfinish⟩ := bind_eq_ok_iff.mp hfinish
    exact (Except.ok.inj hfinish).symm

/-- After spilling, every register that the code uses has its final place. -/
theorem place?_of_finish {name : String} {s : SpilledCode}
    (hfinish : c.finish name s a = .ok func) :
    func.code = s.code ∧ func.slots = s.slots ∧
      ∀ i ∈ func.code.instructions, ∀ r, r ∈ i.reads ∨ r ∈ i.writes →
        func.allocation.place? r = some (finalPlace a r) := by
  obtain ⟨final, hafter, rfl⟩ := exists_of_finish hfinish
  obtain ⟨_, hreject, hafter⟩ := bind_eq_ok_iff.mp hafter
  obtain rfl := Except.ok.inj hafter
  rw [mapError_eq_ok_iff, rejectFirst_eq_ok_iff] at hreject
  refine ⟨rfl, rfl, fun i hi r hr => ?_⟩
  have hmem : r ∈ registersOf c.convention s.code := by
    have huses : r ∈ s.code.instructions.flatMap fun i => i.reads ++ i.writes :=
      List.mem_flatMap.mpr ⟨i, hi, List.mem_append.mpr hr⟩
    simp [registersOf, huses]
  have hplace : finalPlace? a r ≠ none := by simpa using hreject r hmem
  obtain ⟨h, hh⟩ := Option.ne_none_iff_exists'.mp hplace
  rw [Allocation.place?, InsertionMap.get?_ofPartial, if_pos hmem, finalPlace, hh]
  rfl

theorem finalPlace?_of_finish {name : String} {s : SpilledCode}
    (hfinish : c.finish name s a = .ok func) (hr : func.allocation.place? r = some h) :
    finalPlace? a r = some h := by
  obtain ⟨final, hafter, rfl⟩ := exists_of_finish hfinish
  obtain ⟨_, -, hafter⟩ := bind_eq_ok_iff.mp hafter
  obtain rfl := Except.ok.inj hafter
  rw [Allocation.place?, InsertionMap.get?_ofPartial] at hr
  split_ifs at hr
  exact hr

/-! ## The ways a compilation can go -/

theorem place_eq_ok (h : c.place selection graph = .ok (f, x, a)) :
    graph.layOut selection = .ok f ∧ c.analyze f = .ok x ∧
      Allocation.allocateWithRetry Coloring.firstFit x c.convention = .ok a := by
  obtain ⟨f', hlayOut, h⟩ := bind_eq_ok_iff.mp h
  obtain ⟨x', hanalyze, h⟩ := bind_eq_ok_iff.mp h
  obtain ⟨a', hallocate, h⟩ := bind_eq_ok_iff.mp h
  cases Except.ok.inj h
  exact ⟨hlayOut, hanalyze, hallocate⟩

section Compile

variable {e : Error} {frame' : Frame} {s : SpilledCode}

theorem compile_of_place_error (hplace : c.place selection graph = .error e) :
    c.compile selection graph frame = (frame, .error e) := by
  simp [compile, hplace]

theorem compile_of_isSpillFree (hplace : c.place selection graph = .ok (f, x, a))
    (hfree : a.isSpillFree = true) :
    c.compile selection graph frame = (frame, .ok ⟨graph.name, f, a, ∅⟩) := by
  simp [compile, hplace, hfree]

theorem compile_of_moveToStack_error (hplace : c.place selection graph = .ok (f, x, a))
    (hfree : a.isSpillFree = false)
    (hmoved : Spill.moveToStack selection Coloring.firstFit frame f x a c.convention.backups =
      (frame', .error e)) : c.compile selection graph frame = (frame', .error e) := by
  simp [compile, hplace, hfree, hmoved]

theorem compile_of_moveToStack_ok (hplace : c.place selection graph = .ok (f, x, a))
    (hfree : a.isSpillFree = false)
    (hmoved : Spill.moveToStack selection Coloring.firstFit frame f x a c.convention.backups =
      (frame', .ok s)) :
    c.compile selection graph frame = (frame', c.finish graph.name s a) := by
  simp [compile, hplace, hfree, hmoved]

/-- Registers cannot be placed, or all of them fit, or the others cannot be moved to
the stack, or they are moved there. -/
theorem place_cases (c : Compiler) (selection : Selection Tree) (graph : FlowGraph Tree)
    (frame : Frame) :
    (∃ e, c.place selection graph = .error e) ∨
    ∃ f x a, c.place selection graph = .ok (f, x, a) ∧
      (a.isSpillFree = true ∨ a.isSpillFree = false ∧ ∃ frame',
        (∃ e, Spill.moveToStack selection Coloring.firstFit frame f x a c.convention.backups =
          (frame', .error e)) ∨
        ∃ s, Spill.moveToStack selection Coloring.firstFit frame f x a c.convention.backups =
          (frame', .ok s)) := by
  rcases hplace : c.place selection graph with e | ⟨f, x, a⟩
  · exact .inl ⟨e, rfl⟩
  refine .inr ⟨f, x, a, rfl, ?_⟩
  by_cases hfree : a.isSpillFree = true
  · exact .inl hfree
  rcases hmoved : Spill.moveToStack selection Coloring.firstFit frame f x a c.convention.backups
    with ⟨frame', e | s⟩
  · exact .inr ⟨Bool.eq_false_iff.mpr hfree, frame', .inl ⟨e, rfl⟩⟩
  · exact .inr ⟨Bool.eq_false_iff.mpr hfree, frame', .inr ⟨s, rfl⟩⟩

/-- What is compiled fits, or some of its registers were moved to the stack. -/
theorem compile_eq_ok (hok : (c.compile selection graph frame).2 = .ok func) :
    ∃ f x a, c.place selection graph = .ok (f, x, a) ∧
      ((a.isSpillFree = true ∧ func = ⟨graph.name, f, a, ∅⟩) ∨
        a.isSpillFree = false ∧ ∃ frame' s,
          Spill.moveToStack selection Coloring.firstFit frame f x a c.convention.backups =
            (frame', .ok s) ∧ c.finish graph.name s a = .ok func) := by
  rcases place_cases c selection graph frame with
    ⟨e, hplace⟩ | ⟨f, x, a, hplace, hfree | ⟨hfree, frame', ⟨e, hmoved⟩ | ⟨s, hmoved⟩⟩⟩
  · simp [compile_of_place_error hplace] at hok
  · rw [compile_of_isSpillFree hplace hfree] at hok
    exact ⟨f, x, a, hplace, .inl ⟨hfree, (Except.ok.inj hok).symm⟩⟩
  · simp [compile_of_moveToStack_error hplace hfree hmoved] at hok
  · rw [compile_of_moveToStack_ok hplace hfree hmoved] at hok
    exact ⟨f, x, a, hplace, .inr ⟨hfree, frame', s, hmoved, hok⟩⟩

end Compile

theorem placed_of_place (hplace : c.place selection graph = .ok (f, x, a))
    (hfree : a.isSpillFree = false) : a.Placed x c.convention.backups := by
  obtain ⟨-, -, hallocate⟩ := place_eq_ok hplace
  apply (Allocation.placed_of_allocateWithRetry hallocate).resolve_left
  rintro ⟨-, hfree'⟩
  exact absurd (hfree.symm.trans hfree') Bool.false_ne_true

theorem exists_compiled (hok : (c.compile selection graph frame).2 = .ok func) :
    ∃ f x a backups, c.place selection graph = .ok (f, x, a) ∧
      Compiled c selection graph frame func f x a backups := by
  obtain ⟨f, x, a, hplace, ⟨hfree, rfl⟩ | ⟨hfree, frame', s, hmoved, hfinish⟩⟩ := compile_eq_ok hok
  · obtain ⟨hlayOut, hanalyze, hallocate⟩ := place_eq_ok hplace
    rcases Allocation.placed_of_allocateWithRetry hallocate with ⟨hplaced, -⟩ | hplaced
    · exact ⟨f, x, a, [], hplace,
        compiled_of_isSpillFree hlayOut hanalyze hplaced (.inl rfl) hfree⟩
    · exact ⟨f, x, a, _, hplace,
        compiled_of_isSpillFree hlayOut hanalyze hplaced (.inr rfl) hfree⟩
  · obtain ⟨hlayOut, hanalyze, -⟩ := place_eq_ok hplace
    obtain ⟨hspills, hslots, hcode⟩ := Spill.moveToStack_eq_ok (congrArg Prod.snd hmoved)
    obtain ⟨hcode', hslots', hplaces⟩ := place?_of_finish hfinish
    refine ⟨f, x, a, _, hplace, ⟨hlayOut, hanalyze, placed_of_place hplace hfree, .inr rfl, ?_, ?_,
      ?_, hplaces⟩⟩
    · exact hslots' ▸ hslots
    · exact hslots' ▸ hspills
    · rw [hslots', hcode']
      exact hcode

/-- The places in a compiled function are the final places of its registers. -/
theorem finalPlace?_of_compile (hok : (c.compile selection graph frame).2 = .ok func)
    (hplace : c.place selection graph = .ok (f, x, a)) (hr : func.allocation.place? r = some h) :
    finalPlace? a r = some h := by
  obtain ⟨f', x', a', hplace', hcases⟩ := compile_eq_ok hok
  obtain ⟨rfl, rfl, rfl⟩ : f = f' ∧ x = x' ∧ a = a' := by
    simpa using hplace.symm.trans hplace'
  rcases hcases with ⟨-, rfl⟩ | ⟨-, -, s, -, hfinish⟩
  · exact finalPlace?_of_place? hr
  · exact finalPlace?_of_finish hfinish hr

theorem holdsReference_of_compile (hok : (c.compile selection graph frame).2 = .ok func)
    {v : VirtualRegister} {slot : FrameSlot} (hslot : func.slots.get? v = some slot) :
    slot.holdsReference = v.holdsReference := by
  obtain ⟨f, x, a, -, ⟨-, rfl⟩ | ⟨-, frame', s, hmoved, hfinish⟩⟩ := compile_eq_ok hok
  · simp at hslot
  · obtain ⟨final, -, rfl⟩ := exists_of_finish hfinish
    exact Spill.holdsReference_of_moveToStack (congrArg Prod.snd hmoved) hslot

end Compiler

end Lowering
