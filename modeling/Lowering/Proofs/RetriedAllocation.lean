import Lowering.Proofs.FinalAllocation

/-!
# What an allocation with a second attempt gives

If nothing is spilled at the first attempt, the allocation is that of the first
attempt. Otherwise the backup registers are set aside: they are their own places,
and no register of the function is one of them or is placed in one. Spill code can
use them then, and its checks of the allocation do not fail.

The second attempt has fewer places to choose from, and yet it may spill nothing
where the first one did. The backup registers are set aside then too, although
there is no spill code to use them.
-/

namespace Lowering

universe u

/-! ## Errors of a kind -/

/-- The only errors that a computation can end with are of the given kind. -/
def FailsOnlyWith {ε : Type} {α : Type u} (kind : ε → Prop) (x : Except ε α) : Prop :=
  ∀ e, x = .error e → kind e

namespace FailsOnlyWith

variable {ε : Type} {α β : Type u} {kind : ε → Prop} {x : Except ε α}

theorem ok (a : α) : FailsOnlyWith kind (.ok a) := nofun

theorem error {e : ε} (he : kind e) : FailsOnlyWith kind (.error e : Except ε α) := by
  rintro _ ⟨⟩
  exact he

theorem bind {y : α → Except ε β} (hx : FailsOnlyWith kind x)
    (hy : ∀ a, FailsOnlyWith kind (y a)) : FailsOnlyWith kind (x >>= y) := by
  cases x with
  | error e => exact error (hx e rfl)
  | ok a => exact hy a

theorem mapError {δ : Type} {kind : δ → Prop} {cause : ε → δ}
    (hx : FailsOnlyWith (fun e => kind (cause e)) x) : FailsOnlyWith kind (x.mapError cause) := by
  cases x with
  | error e => exact error (hx e rfl)
  | ok a => exact ok a

theorem mapM {g : α → Except ε β} {l : List α} (hg : ∀ a ∈ l, FailsOnlyWith kind (g a)) :
    FailsOnlyWith kind (l.mapM g) := by
  induction l with
  | nil => exact ok []
  | cons a l ih =>
      rw [List.forall_mem_cons] at hg
      rw [List.mapM_cons]
      exact hg.1.bind fun b => (ih hg.2).bind fun bs => ok (b :: bs)

theorem foldlM {g : β → α → Except ε β} (hg : ∀ b a, FailsOnlyWith kind (g b a)) (l : List α)
    (b : β) : FailsOnlyWith kind (l.foldlM g b) := by
  induction l generalizing b with
  | nil => exact ok b
  | cons a l ih =>
      rw [List.foldlM_cons]
      exact (hg b a).bind ih

/-- A list is refused for a fault of one of its items. -/
theorem rejectFirst {ι : Type} {items : List ι} {fault? : ι → Option ε}
    (h : ∀ a ∈ items, ∀ e, fault? a = some e → kind e) :
    FailsOnlyWith kind (Lowering.rejectFirst items fault?) := by
  intro e he
  obtain ⟨a, ha, hfault⟩ := List.exists_of_findSome?_eq_some (rejectFirst_eq_error_iff.mp he)
  exact h a ha e hfault

end FailsOnlyWith

/-! ## The faults of spill code -/

namespace SpillFault

/-- The fault is one of an allocation that leaves spill code no way to work. -/
def BlamesPlaces : SpillFault → Prop
  | .backupAssigned _ _ => True
  | .fixedSpilled _ => True
  | _ => False

end SpillFault

namespace Spill

variable {Tree : Type u} {selection : Selection Tree}
  {slots : InsertionMap VirtualRegister FrameSlot} {a : Allocation}
  {backups : List HardwareRegister}

theorem addKind_failsOnlyWith (colors : InsertionMap VirtualRegister Nat)
    (found : InsertionMap Nat Bool) (v : VirtualRegister) :
    FailsOnlyWith (fun e => ¬ e.BlamesPlaces) (addKind colors found v) := by
  unfold addKind
  split
  · exact .error id
  · split
    · exact .ok _
    · split_ifs
      · exact .ok _
      · exact .error id

theorem expandInstruction_failsOnlyWith (i : Instruction) :
    FailsOnlyWith (fun e => ¬ e.BlamesPlaces) (expandInstruction selection slots backups i) := by
  dsimp only [expandInstruction]
  split_ifs
  · exact .ok _
  · exact .ok _
  · exact .error id
  · exact .ok _

/-- Code has no expansion only if one of its instructions has none. -/
theorem expandFragment_failsOnlyWith (f : Fragment) :
    FailsOnlyWith (fun fault => ∃ i ∈ f.instructions,
      expandInstruction selection slots backups i = .error fault)
      (expandFragment selection slots backups f) := by
  have hblock : ∀ b ∈ f.blocks, FailsOnlyWith (fun fault => ∃ i ∈ f.instructions,
      expandInstruction selection slots backups i = .error fault)
      (expandBlock selection slots backups b) := by
    intro b hb
    rw [expandBlock_eq_bind]
    refine (FailsOnlyWith.mapM fun i hi fault hfault => ?_).bind fun _ => .ok _
    exact ⟨i, List.mem_flatMap.mpr ⟨b, hb, hi⟩, hfault⟩
  exact (FailsOnlyWith.mapM hblock).bind fun _ => .ok _

theorem assignSlots_failsOnlyWith (solver : Solver VirtualRegister Nat) (frame : Frame)
    (x : Interaction) (spilled : InsertionSet VirtualRegister) :
    FailsOnlyWith (fun e => ∀ fault, e = .spilling fault → ¬ fault.BlamesPlaces)
      (assignSlots solver frame x spilled) := by
  apply FailsOnlyWith.bind
  · apply FailsOnlyWith.mapError
    intro loop _ fault hfault
    simp at hfault
  · intro colors
    apply FailsOnlyWith.bind
    · apply FailsOnlyWith.mapError
      intro e he fault hfault
      obtain rfl := Error.spilling.inj hfault
      exact FailsOnlyWith.foldlM (addKind_failsOnlyWith colors) _ _ e he
    · exact fun found => FailsOnlyWith.ok _

/-- After its checks of the allocation, moving registers to the stack may fail, but
no longer because of their places. -/
theorem moveToStack_failsOnlyWith (hcheck : checkAllocation a backups = .ok ())
    (selection : Selection Tree) (solver : Solver VirtualRegister Nat) (frame : Frame)
    (f : Fragment) (x : Interaction) :
    FailsOnlyWith (fun e => ∀ fault, e = .spilling fault → ¬ fault.BlamesPlaces)
      (moveToStack selection solver frame f x a backups).2 := by
  simp only [moveToStack, hcheck]
  split_ifs
  · exact .ok _
  · split
    next e he => exact .error (assignSlots_failsOnlyWith solver frame x _ e he)
    next =>
      split
      next e he =>
        apply FailsOnlyWith.error
        intro fault hfault
        obtain rfl := Error.spilling.inj hfault
        obtain ⟨i, -, hi⟩ := expandFragment_failsOnlyWith f e he
        exact expandInstruction_failsOnlyWith i e hi
      next => exact .ok _

end Spill

/-! ## Backup registers set aside -/

namespace Allocation

variable {a : Allocation} {x : Interaction} {roles c : Convention}
  {allowed backups : List HardwareRegister} {solver : Solver Register HardwareRegister}
  {r : Register}

theorem admissible_of_allocate (h : allocate solver x allowed = .ok a) : x.Admissible allowed := by
  obtain ⟨_, hinput, -⟩ := bind_eq_ok_iff.mp h
  exact Interaction.checkInput_eq_ok_iff.mp (mapError_eq_ok_iff.mp hinput)

/-- The registers of a function are placed or spilled, and the backup registers of
the convention are set aside as their own places. -/
structure SetsAside (a : Allocation) (x : Interaction) (c : Convention) : Prop where
  backup_unused : ∀ b ∈ c.backups, ¬ .fixed b ∈ x.registers
  mem_registers_iff : ∀ r, r ∈ x.registers ↔
    r ∈ a.spills ∨ r ∈ a.assigned ∧ ∀ b ∈ c.backups, r ≠ .fixed b
  not_both : ∀ r ∈ a.spills, ¬ r ∈ a.assigned
  spills_virtual : ∀ r ∈ a.spills, ∃ v, r = .virtual v
  backup_kept : ∀ b ∈ c.backups, a.place? (.fixed b) = some b
  backup_only : ∀ r, ∀ b ∈ c.backups, a.place? r = some b → r = .fixed b
  place_allowed : ∀ r h, a.place? r = some h → h ∈ c.allowed
  fixed_kept : ∀ h, .fixed h ∈ x.registers ∨ .fixed h ∈ a.assigned →
    a.place? (.fixed h) = some h
  apart : ∀ r s h, s ∈ x.interference.neighbors r → a.place? r = some h → a.place? s ≠ some h

/-- An attempt without the backup registers refuses functions that use them. -/
theorem backup_unused_of_allocate (h : allocate solver x c.allowedWithoutBackups = .ok a) :
    ∀ b ∈ c.backups, ¬ .fixed b ∈ x.registers := by
  intro b hb hmem
  have hallowed := (admissible_of_allocate h).fixed_allowed b hmem
  exact (Convention.mem_allowedWithoutBackups.mp hallowed).2 hb

/-- The backup registers can be set aside after an attempt without them. -/
theorem setsAside_reserve (hbackups : ∀ b ∈ c.backups, b ∈ c.allowed)
    (h : allocate solver x c.allowedWithoutBackups = .ok a) :
    (a.reserve c.backups).SetsAside x c := by
  have hvalid := valid_of_allocate h
  have hinput := admissible_of_allocate h
  have hplaced := hvalid.placed_reserve
  have hallowed : ∀ r k, a.place? r = some k → k ∈ c.allowed ∧ ¬ k ∈ c.backups := fun r k hk =>
    Convention.mem_allowedWithoutBackups.mp (hvalid.place_allowed r k hk)
  have hunused := backup_unused_of_allocate h
  have hne : ∀ r ∈ x.registers, ∀ b ∈ c.backups, r ≠ .fixed b := by
    rintro _ hr b hb rfl
    exact hunused b hb hr
  have hassigned : ∀ {r}, r ∈ (a.reserve c.backups).assigned ↔
      ∃ k, (a.reserve c.backups).place? r = some k := InsertionMap.mem_iff_exists_get?
  have hknown : ∀ r k, a.place? r = some k → r ∈ x.registers := fun r k hk =>
    hvalid.assigned_known r (InsertionMap.mem_iff_exists_get?.mpr ⟨k, hk⟩)
  constructor
  case backup_unused => exact hunused
  case mem_registers_iff =>
    intro r
    rw [hassigned]
    constructor
    · intro hr
      exact (hplaced.placed_or_spilled r hr).symm.imp_right fun hk => ⟨hk, hne r hr⟩
    · rintro (hspilled | ⟨⟨k, hk⟩, hnot⟩)
      · exact (hvalid.spilled_known r hspilled).1
      · rcases place?_reserve_eq_some.mp hk with ⟨hb, rfl⟩ | ⟨-, hk⟩
        · exact absurd rfl (hnot k hb)
        · exact hknown r k hk
  case not_both =>
    intro r hspilled hmem
    obtain ⟨hr, hnot⟩ := hvalid.spilled_known r hspilled
    obtain ⟨k, hk⟩ := hassigned.mp hmem
    rcases place?_reserve_eq_some.mp hk with ⟨hb, rfl⟩ | ⟨-, hk⟩
    · exact hunused k hb hr
    · exact hnot (InsertionMap.mem_iff_exists_get?.mpr ⟨k, hk⟩)
  case spills_virtual =>
    intro r hspilled
    cases r with
    | fixed h =>
        have hr := (hvalid.spilled_known _ hspilled).1
        exact absurd hspilled (hvalid.fixed_not_spilled _ hr rfl)
    | virtual v => exact ⟨v, rfl⟩
  case backup_kept => exact fun b => place?_reserve_of_mem
  case backup_only =>
    intro r b hb hk
    rcases place?_reserve_eq_some.mp hk with ⟨-, hr⟩ | ⟨-, hk⟩
    · exact hr
    · exact absurd hb (hallowed r b hk).2
  case place_allowed =>
    intro r k hk
    rcases place?_reserve_eq_some.mp hk with ⟨hb, -⟩ | ⟨-, hk⟩
    · exact hbackups k hb
    · exact (hallowed r k hk).1
  case fixed_kept =>
    intro k hmem
    have hplace : ∃ k', (a.reserve c.backups).place? (.fixed k) = some k' := by
      rcases hmem with hr | hmem
      · apply (hplaced.placed_or_spilled _ hr).resolve_right
        exact hvalid.fixed_not_spilled _ hr rfl
      · exact hassigned.mp hmem
    obtain ⟨k', hk'⟩ := hplace
    rwa [hplaced.fixed_kept k k' hk'] at hk'
  case apart =>
    intro r s k hinterferes
    have hr := hinput.interference_known r (.inl (Relation.mem_keys_of_mem_neighbors hinterferes))
    have hs := hinput.interference_known s (.inr ⟨r, hinterferes⟩)
    exact hplaced.apart r hr s hs hinterferes k

/-- The checks of spill code find nothing wrong with backup registers set aside. -/
theorem SetsAside.checkAllocation (h : a.SetsAside x c) :
    Spill.checkAllocation a c.backups = .ok () := by
  rw [Spill.checkAllocation_eq_ok_iff]
  constructor
  · intro v k hk hb
    exact absurd (h.backup_only _ k hb hk) nofun
  · intro k hspilled
    obtain ⟨v, hv⟩ := h.spills_virtual _ hspilled
    exact absurd hv nofun

/-! ## Answers without spills -/

/-- By coloring, not all registers of a function can be placed in the registers
that the convention allows. -/
def FirstSpills (x : Interaction) (c : Convention) : Prop :=
  ∃ first, allocate Coloring.firstFit x c.allowed = .ok first ∧ first.isSpillFree = false

/-- What holds of an allocation without spills. If the first attempt did spill, it
has places for the backup registers too, and only that can be wrong with it. -/
structure SpillFreeAnswer (a : Allocation) (x : Interaction) (c : Convention) : Prop where
  mem_assigned_iff : ∀ r, r ∈ a.assigned ↔
    r ∈ x.registers ∨ FirstSpills x c ∧ ∃ b ∈ c.backups, r = .fixed b
  backup_unused : FirstSpills x c → ∀ b ∈ c.backups, ¬ .fixed b ∈ x.registers
  accepted_iff : a.validate x c.allowed = .ok () ↔ (FirstSpills x c → c.backups = [])
  accepted_restrictTo : (a.restrictTo x.registers).validate x c.allowed = .ok ()

theorem not_firstSpills (h : allocate Coloring.firstFit x c.allowed = .ok a)
    (hfree : a.isSpillFree = true) : ¬ FirstSpills x c := by
  rintro ⟨first, hfirst, hspills⟩
  obtain rfl := Except.ok.inj (hfirst.symm.trans h)
  exact absurd (hspills.symm.trans hfree) Bool.false_ne_true

/-- An accepted allocation without spills has places for the registers of the
function and no others. -/
theorem Valid.mem_assigned_iff (h : a.Valid x allowed) (hfree : a.isSpillFree = true) :
    r ∈ a.assigned ↔ r ∈ x.registers :=
  ⟨h.assigned_known r, fun hr =>
    (h.placed_or_spilled r hr).resolve_right (not_mem_spills_of_isSpillFree hfree r)⟩

theorem SetsAside.mem_assigned_iff (h : a.SetsAside x c) (hfree : a.isSpillFree = true) :
    r ∈ a.assigned ↔ r ∈ x.registers ∨ ∃ b ∈ c.backups, r = .fixed b := by
  have hregisters := h.mem_registers_iff r
  rw [or_iff_right (not_mem_spills_of_isSpillFree hfree r)] at hregisters
  rw [hregisters]
  constructor
  · intro hr
    by_cases hbackup : ∃ b ∈ c.backups, r = .fixed b
    · exact .inr hbackup
    · exact .inl ⟨hr, fun b hb heq => hbackup ⟨b, hb, heq⟩⟩
  · rintro (⟨hr, -⟩ | ⟨b, hb, rfl⟩)
    · exact hr
    · exact InsertionMap.mem_iff_exists_get?.mpr ⟨b, h.backup_kept b hb⟩

theorem spillFreeAnswer (hbackups : ∀ b ∈ c.backups, b ∈ c.allowed)
    (h : allocateWithRetry Coloring.firstFit x c = .ok a) (hfree : a.isSpillFree = true) :
    a.SpillFreeAnswer x c := by
  have hassigned : (∀ r, r ∈ a.assigned ↔
        r ∈ x.registers ∨ FirstSpills x c ∧ ∃ b ∈ c.backups, r = .fixed b) ∧
      (FirstSpills x c → ∀ b ∈ c.backups, ¬ .fixed b ∈ x.registers) := by
    rcases allocateWithRetry_cases h with
      ⟨hfirst, -⟩ | ⟨first, second, hfirst, hspills, hsecond, rfl⟩
    · have hnot := not_firstSpills hfirst hfree
      refine ⟨fun r => ?_, fun hspills => absurd hspills hnot⟩
      rw [(valid_of_allocate hfirst).mem_assigned_iff hfree]
      simp [hnot]
    · have haside := setsAside_reserve hbackups hsecond
      refine ⟨fun r => ?_, fun _ => haside.backup_unused⟩
      rw [haside.mem_assigned_iff hfree, and_iff_right ⟨first, hfirst, hspills⟩]
  obtain ⟨hassigned, hunused⟩ := hassigned
  obtain ⟨backups, hplaced⟩ := exists_placed_of_allocateWithRetry h
  have hnone := not_mem_spills_of_isSpillFree hfree
  have hallowed : ∀ r k, a.place? r = some k → k ∈ c.allowed := fun r k =>
    place_allowed_of_allocateWithRetry h hbackups
  refine ⟨hassigned, hunused, ⟨fun haccepted hspills => ?_, fun hno => ?_⟩, ?_⟩
  · have hvalid := validate_eq_ok_iff.mp haccepted
    rw [List.eq_nil_iff_forall_not_mem]
    intro b hb
    exact hunused hspills b hb
      (hvalid.assigned_known _ ((hassigned _).mpr (.inr ⟨hspills, b, hb, rfl⟩)))
  · refine validate_eq_ok_iff.mpr (hplaced.valid hnone fun r k hk => ⟨?_, hallowed r k hk⟩)
    rcases (hassigned r).mp (InsertionMap.mem_iff_exists_get?.mpr ⟨k, hk⟩) with
      hr | ⟨hspills, b, hb, -⟩
    · exact hr
    · simp [hno hspills] at hb
  · exact validate_eq_ok_iff.mpr (hplaced.valid_restrictTo hnone hallowed)

end Allocation

/-- A function that was compiled without slots has the places that were found for
its code. -/
theorem Compiler.allocation_of_no_slots {Tree : Type u} {selection : Selection Tree}
    {graph : FlowGraph Tree} {frame : Frame} {c : Compiler} {func : CompiledFunction}
    (hok : (c.compile selection graph frame).2 = .ok func) (hslots : func.slots.isEmpty = true) :
    ∃ x, c.analyze func.code = .ok x ∧
      Allocation.allocateWithRetry Coloring.firstFit x c.convention = .ok func.allocation ∧
      func.allocation.isSpillFree = true := by
  obtain ⟨f, x, a, hplace, ⟨hfree, rfl⟩ | ⟨hfree, frame', s, hmoved, hfinish⟩⟩ := compile_eq_ok hok
  · obtain ⟨-, hanalyze, hallocate⟩ := place_eq_ok hplace
    exact ⟨x, hanalyze, hallocate, hfree⟩
  · obtain ⟨hspills, -, -⟩ := Spill.moveToStack_eq_ok (congrArg Prod.snd hmoved)
    obtain ⟨-, hsame, -⟩ := place?_of_finish hfinish
    have hentries : s.slots.entries = [] := List.isEmpty_iff.mp (hsame ▸ hslots)
    have hnone : ∀ r, ¬ r ∈ a.spills := by
      intro r hr
      obtain ⟨slot, hslot⟩ := (hspills r).mp hr
      obtain ⟨v, -, hv⟩ := Option.bind_eq_some_iff.mp hslot
      have hentry := InsertionMap.get?_eq_some_iff.mp hv
      simp [hentries] at hentry
    have hfree' : a.isSpillFree = true := by
      rw [Allocation.isSpillFree, InsertionSet.isEmpty, List.isEmpty_iff,
        List.eq_nil_iff_forall_not_mem]
      exact hnone
    exact absurd (hfree.symm.trans hfree') Bool.false_ne_true

/-- For a checked convention and whatever solver, an allocation with a second
attempt is one of two things. Either it has no spills, is the allocation of the
first attempt, and places exactly the registers of the function. Or the first
attempt spilled, and the backup registers are set aside: the function does not
use them, its registers are the spilled ones and those with a place apart from
the backup registers, only virtual registers are spilled, only the backup
registers are placed in backup registers, each in itself, all places are allowed,
fixed registers are their own places, and interfering registers have different
ones. Such an allocation passes the checks of spill code, and when its registers
are moved to the stack, no fault is found with their places. -/
theorem allocateWithRetry_first_or_setsAside {roles c : Convention}
    (hconvention : roles.checked = .ok c) (solver : Solver Register HardwareRegister)
    (x : Interaction) {a : Allocation} (h : Allocation.allocateWithRetry solver x c = .ok a) :
    (a.isSpillFree = true ∧ Allocation.allocate solver x c.allowed = .ok a ∧
      ∀ r, r ∈ a.assigned ↔ r ∈ x.registers) ∨
    ((∃ first, Allocation.allocate solver x c.allowed = .ok first ∧ first.isSpillFree = false) ∧
      a.SetsAside x c ∧ Spill.checkAllocation a c.backups = .ok () ∧
      ∀ {Tree : Type u} (selection : Selection Tree) (slotSolver : Solver VirtualRegister Nat)
        (frame : Frame) (f : Fragment) (y : Interaction),
        (∀ b r, (Spill.moveToStack selection slotSolver frame f y a c.backups).2 ≠
          .error (.spilling (.backupAssigned b r))) ∧
        ∀ b, (Spill.moveToStack selection slotSolver frame f y a c.backups).2 ≠
          .error (.spilling (.fixedSpilled b))) := by
  rcases Allocation.allocateWithRetry_cases h with
    ⟨hfirst, hfree⟩ | ⟨first, second, hfirst, hspills, hsecond, rfl⟩
  · refine .inl ⟨hfree, hfirst, fun r => ?_⟩
    exact (Allocation.valid_of_allocate hfirst).mem_assigned_iff hfree
  · have haside := Allocation.setsAside_reserve (Convention.backups_allowed hconvention) hsecond
    refine .inr ⟨⟨first, hfirst, hspills⟩, haside, haside.checkAllocation, ?_⟩
    intro Tree selection slotSolver frame f y
    have hfails := Spill.moveToStack_failsOnlyWith haside.checkAllocation selection slotSolver
      frame f y
    exact ⟨fun b r herror => hfails _ herror _ rfl trivial,
      fun b herror => hfails _ herror _ rfl trivial⟩

/-- Three registers that all interfere. -/
def threeApart : Interaction :=
  let registers := .ofList [.virtual ⟨0, false⟩, .virtual ⟨1, false⟩, .virtual ⟨2, false⟩]
  { registers := registers
    interference := (Relation.discrete registers).addEdges (orderedPairs registers.toList)
    copying := .discrete registers }

/-- Two hardware registers do not suffice for them, and one is set aside. -/
theorem threeApart_setsAside :
    ∃ a, Allocation.allocateWithRetry Coloring.firstFit threeApart twoRegisters = .ok a ∧
      a.isSpillFree = false ∧ a.SetsAside threeApart twoRegisters ∧
      Spill.checkAllocation a [.rcx] = .ok () := by
  obtain ⟨a, ha⟩ : ∃ a, Allocation.allocateWithRetry Coloring.firstFit threeApart twoRegisters =
      .ok a := exists_eq_ok (by decide +kernel)
  have hspills : (Allocation.allocateWithRetry Coloring.firstFit threeApart
      twoRegisters).toOption.map Allocation.isSpillFree = some false := by decide +kernel
  rw [ha] at hspills
  have hfree : a.isSpillFree = false := Option.some.inj hspills
  rcases allocateWithRetry_first_or_setsAside.{0} (show twoRegisters.checked = .ok twoRegisters
    from rfl) Coloring.firstFit threeApart ha with ⟨hfree', -⟩ | ⟨-, haside, hcheck, -⟩
  · exact absurd (hfree.symm.trans hfree') Bool.false_ne_true
  · exact ⟨a, ha, hfree, haside, hcheck⟩

/-! ## Fewer places may suffice where more do not -/

/-- A function whose registers are not all placed in three hardware registers, but
are placed in two of them. -/
def betterWithFewer : FlowGraph WorkList where
  name := "f"
  initial := 0
  vertices := .ofList [(0, .final
    [.compute "a" [] [.fixed .rdx, .virtual ⟨0, false⟩], .compute "b" [] [.fixed .rax],
      .compute "c" [] [.virtual ⟨0, false⟩, .virtual ⟨1, false⟩],
      .compute "d" [] [.virtual ⟨0, false⟩, .virtual ⟨2, false⟩],
      .compute "e" [] [.virtual ⟨1, false⟩, .virtual ⟨3, false⟩]])]

/-- Three registers, one of which is set aside if something is spilled. -/
def threeRegisters : Convention where
  allowed := [.rax, .rcx, .rdx]
  preserved := []
  backups := [.rcx]
  alwaysLive := []

theorem place_betterWithFewer : ∃ f x a,
    Compiler.place ⟨⟨.none, false, false, ""⟩, threeRegisters⟩ .sequential betterWithFewer =
      .ok (f, x, a) ∧
    a.isSpillFree = true ∧ .fixed .rcx ∈ a.assigned ∧ ¬ .fixed .rcx ∈ x.registers := by
  have hplaces : (Compiler.place ⟨⟨.none, false, false, ""⟩, threeRegisters⟩ .sequential
      betterWithFewer).toOption.map (fun p => (p.2.2.isSpillFree,
        decide (Register.fixed .rcx ∈ p.2.2.assigned),
        decide (Register.fixed .rcx ∈ p.2.1.registers))) = some (true, true, false) := by
    decide +kernel
  rcases hplace : Compiler.place ⟨⟨.none, false, false, ""⟩, threeRegisters⟩ .sequential
    betterWithFewer with e | ⟨f, x, a⟩
  · simp [hplace, Except.toOption] at hplaces
  · simp only [hplace, Except.toOption, Option.map_some, Option.some.injEq, Prod.mk.injEq,
      decide_eq_true_eq, decide_eq_false_iff_not] at hplaces
    exact ⟨f, x, a, rfl, hplaces⟩

/-- The convention is checked, nothing is spilled, and no slot is needed. Yet a
register that the function does not use has a place, and the allocation is not
accepted for the code. -/
theorem spillFree_answer_not_accepted :
    threeRegisters.checked = .ok threeRegisters ∧
    ∃ func x, (Compiler.compile ⟨⟨.none, false, false, ""⟩, threeRegisters⟩ .sequential
        betterWithFewer .empty).2 = .ok func ∧
      func.slots.isEmpty = true ∧
      Compiler.analyze ⟨⟨.none, false, false, ""⟩, threeRegisters⟩ func.code = .ok x ∧
      Allocation.allocateWithRetry Coloring.firstFit x threeRegisters = .ok func.allocation ∧
      func.allocation.isSpillFree = true ∧
      .fixed .rcx ∈ func.allocation.assigned ∧ ¬ .fixed .rcx ∈ x.registers ∧
      func.allocation.validate x threeRegisters.allowed ≠ .ok () := by
  obtain ⟨f, x, a, hplace, hfree, hassigned, hunused⟩ := place_betterWithFewer
  obtain ⟨-, hanalyze, hallocate⟩ := Compiler.place_eq_ok hplace
  refine ⟨rfl, _, x, congrArg Prod.snd (Compiler.compile_of_isSpillFree hplace hfree), rfl,
    hanalyze, hallocate, hfree, hassigned, hunused, fun haccepted => ?_⟩
  exact hunused ((Allocation.validate_eq_ok_iff.mp haccepted).assigned_known _ hassigned)

/-- For a checked convention, an allocation without spills places exactly the
registers of the function, if the first attempt did not spill. If it did, the
allocation places these and the backup registers, none of which the function uses.
It is accepted, unless it places backup registers for that reason, and what it says
about the registers of the function is accepted in any case. This goes for the
allocation of every function that is compiled without slots, and its code. -/
theorem spillFree_answer_accepted_iff {c : Compiler} {roles : Convention}
    (hconvention : roles.checked = .ok c.convention) :
    (∀ x a, Allocation.allocateWithRetry Coloring.firstFit x c.convention = .ok a →
      a.isSpillFree = true → a.SpillFreeAnswer x c.convention) ∧
    ∀ {Tree : Type u} (selection : Selection Tree) (graph : FlowGraph Tree) (frame : Frame)
      (func : CompiledFunction), (c.compile selection graph frame).2 = .ok func →
      func.slots.isEmpty = true →
      ∃ x, c.analyze func.code = .ok x ∧
        Allocation.allocateWithRetry Coloring.firstFit x c.convention = .ok func.allocation ∧
        func.allocation.isSpillFree = true ∧ func.allocation.SpillFreeAnswer x c.convention := by
  have hanswer : ∀ x a, Allocation.allocateWithRetry Coloring.firstFit x c.convention = .ok a →
      a.isSpillFree = true → a.SpillFreeAnswer x c.convention := fun x a =>
    Allocation.spillFreeAnswer (Convention.backups_allowed hconvention)
  refine ⟨hanswer, fun selection graph frame func hok hslots => ?_⟩
  obtain ⟨x, hanalyze, hallocate, hfree⟩ := Compiler.allocation_of_no_slots hok hslots
  exact ⟨x, hanalyze, hallocate, hfree, hanswer x _ hallocate hfree⟩

/-- Without the place of the backup register, the allocation would be accepted. -/
theorem betterWithFewer_accepted_but_for_backup :
    ∃ func x, (Compiler.compile ⟨⟨.none, false, false, ""⟩, threeRegisters⟩ .sequential
        betterWithFewer .empty).2 = .ok func ∧
      func.slots.isEmpty = true ∧
      Compiler.analyze ⟨⟨.none, false, false, ""⟩, threeRegisters⟩ func.code = .ok x ∧
      Allocation.FirstSpills x threeRegisters ∧
      func.allocation.SpillFreeAnswer x threeRegisters := by
  obtain ⟨f, x, a, hplace, hfree, hassigned, hunused⟩ := place_betterWithFewer
  obtain ⟨-, hanalyze, hallocate⟩ := Compiler.place_eq_ok hplace
  have hanswer := (spillFree_answer_accepted_iff.{0}
    (c := ⟨⟨.none, false, false, ""⟩, threeRegisters⟩)
    (show threeRegisters.checked = .ok threeRegisters from rfl)).1 x a hallocate hfree
  have hspills := (((hanswer.mem_assigned_iff _).mp hassigned).resolve_left hunused).1
  exact ⟨_, x, congrArg Prod.snd (Compiler.compile_of_isSpillFree hplace hfree), rfl, hanalyze,
    hspills, hanswer⟩

end Lowering
