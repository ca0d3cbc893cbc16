import Lowering.Proofs.CompiledRun
import Lowering.Proofs.SuccessfulAllocation

/-!
# Nothing fails after spilling

The places that were found for the code before spilling follow the rules for the
code with spills too. So the check at the end never fails, and a function is
compiled alike with it and without it.
-/

namespace Lowering

universe u

/-! ## Errors that blame an allocation -/

/-- The outcome is that an allocation breaks its own rules. -/
def BlamesAllocation {α : Type u} (x : Except Error α) : Prop :=
  ∃ fault, x = .error (.invalidAllocation fault)

section Blames

variable {α β : Type u} {x : Except Error α}

theorem not_blames_ok (a : α) : ¬ BlamesAllocation (.ok a) := by
  rintro ⟨fault, h⟩
  simp at h

theorem blames_error_iff {e : Error} :
    BlamesAllocation (.error e : Except Error α) ↔ ∃ fault, e = .invalidAllocation fault := by
  simp [BlamesAllocation]

theorem not_blames_bind {y : α → Except Error β} (hx : ¬ BlamesAllocation x)
    (hy : ∀ a, x = .ok a → ¬ BlamesAllocation (y a)) : ¬ BlamesAllocation (x >>= y) := by
  cases x with
  | error e =>
      rw [blames_error_iff] at hx
      exact fun h => hx (blames_error_iff.mp h)
  | ok a => exact hy a rfl

theorem not_blames_mapError {ε : Type} {e : Except ε α} {cause : ε → Error}
    (hcause : ∀ d fault, cause d ≠ .invalidAllocation fault) :
    ¬ BlamesAllocation (e.mapError cause) := by
  cases e with
  | error d =>
      rintro ⟨fault, h⟩
      exact hcause d fault (Except.error.inj h)
  | ok a => exact not_blames_ok a

end Blames

/-! ## Allocations that are accepted -/

namespace Allocation

variable {a : Allocation} {x : Interaction} {c : Convention} {r : Register}
  {allowed backups : List HardwareRegister}

/-- The part of an allocation that is about the given registers. -/
def restrictTo (a : Allocation) (registers : InsertionSet Register) : Allocation where
  assigned := .ofPartial registers a.place?
  spills := a.spills.filter fun r => decide (r ∈ registers)

theorem place?_restrictTo {registers : InsertionSet Register} :
    (a.restrictTo registers).place? r = if r ∈ registers then a.place? r else none :=
  InsertionMap.get?_ofPartial registers a.place? r

theorem place?_restrictTo_eq_some {registers : InsertionSet Register} {h : HardwareRegister} :
    (a.restrictTo registers).place? r = some h ↔ r ∈ registers ∧ a.place? r = some h := by
  rw [place?_restrictTo]
  split_ifs with hr <;> simp [hr]

theorem Placed.restrictTo (h : a.Placed x backups) :
    (a.restrictTo x.registers).Placed x backups where
  placed_or_spilled r hr := by
    apply (h.placed_or_spilled r hr).imp
    · rintro ⟨k, hk⟩
      exact ⟨k, place?_restrictTo_eq_some.mpr ⟨hr, hk⟩⟩
    · exact fun hspilled => InsertionSet.mem_filter.mpr ⟨hspilled, decide_eq_true hr⟩
  fixed_kept k k' hk := h.fixed_kept k k' (place?_restrictTo_eq_some.mp hk).2
  apart r hr s hs hinterferes k hk hsame :=
    h.apart r hr s hs hinterferes k (place?_restrictTo_eq_some.mp hk).2
      (place?_restrictTo_eq_some.mp hsame).2
  not_backup r hr k hk := h.not_backup r hr k (place?_restrictTo_eq_some.mp hk).2

/-- Places that keep registers apart follow all rules, if no other register has
one and nothing is spilled. -/
theorem Placed.valid (h : a.Placed x backups) (hnone : ∀ r, ¬ r ∈ a.spills)
    (hknown : ∀ r k, a.place? r = some k → r ∈ x.registers ∧ k ∈ allowed) : a.Valid x allowed where
  assigned_known r hr := by
    obtain ⟨k, hk⟩ := InsertionMap.mem_iff_exists_get?.mp hr
    exact (hknown r k hk).1
  spilled_known r hr := absurd hr (hnone r)
  placed_or_spilled r hr :=
    (h.placed_or_spilled r hr).imp_left InsertionMap.mem_iff_exists_get?.mpr
  place_allowed r k hk := (hknown r k hk).2
  fixed_kept := h.fixed_kept
  fixed_not_spilled r _ _ := hnone r
  apart r s k hinterferes hk hsame :=
    h.apart r (hknown r k hk).1 s (hknown s k hsame).1 hinterferes k hk hsame

theorem Placed.valid_restrictTo (h : a.Placed x backups) (hnone : ∀ r, ¬ r ∈ a.spills)
    (hallowed : ∀ r k, a.place? r = some k → k ∈ allowed) :
    (a.restrictTo x.registers).Valid x allowed := by
  apply h.restrictTo.valid
  · exact fun r hr => hnone r (InsertionSet.mem_filter.mp hr).1
  · intro r k hk
    obtain ⟨hr, hk⟩ := place?_restrictTo_eq_some.mp hk
    exact ⟨hr, hallowed r k hk⟩

/-- Allocation fails for its input only. -/
theorem not_blames_allocate (x : Interaction) (allowed : List HardwareRegister) :
    ¬ BlamesAllocation (allocate Coloring.firstFit x allowed) := by
  by_cases h : x.Admissible allowed ∧ allowed.Nodup
  · obtain ⟨a, ha, -⟩ := allocate_of_admissible h.1 h.2
    rw [ha]
    exact not_blames_ok a
  · obtain ⟨fault, hfault⟩ := allocate_of_not_admissible h
    rintro ⟨fault', hblamed⟩
    simp [hfault] at hblamed

theorem not_blames_allocateWithRetry (x : Interaction) (c : Convention) :
    ¬ BlamesAllocation (allocateWithRetry Coloring.firstFit x c) := by
  apply not_blames_bind (not_blames_allocate x c.allowed)
  intro first _
  split_ifs
  · exact not_blames_ok first
  · apply not_blames_bind (not_blames_allocate x c.allowedWithoutBackups)
    exact fun second _ => not_blames_ok _

end Allocation

namespace Spill

theorem not_blames_assignSlots (frame : Frame) (x : Interaction)
    (spilled : InsertionSet VirtualRegister) :
    ¬ BlamesAllocation (assignSlots Coloring.firstFit frame x spilled) := by
  apply not_blames_bind (not_blames_mapError (by simp))
  intro colors _
  apply not_blames_bind (not_blames_mapError (by simp))
  exact fun kinds _ => not_blames_ok _

/-- Moving registers to the stack may fail, but not for the rules of allocations. -/
theorem not_blames_moveToStack {Tree : Type u} (selection : Selection Tree) (frame : Frame)
    (f : Fragment) (x : Interaction) (a : Allocation) (backups : List HardwareRegister) :
    ¬ BlamesAllocation (moveToStack selection Coloring.firstFit frame f x a backups).2 := by
  unfold moveToStack
  split
  · rintro ⟨fault, h⟩
    simp at h
  · dsimp only
    split_ifs
    · exact not_blames_ok _
    · split
      next e he =>
        rintro ⟨fault, h⟩
        obtain rfl := Except.error.inj h
        exact not_blames_assignSlots frame x _ ⟨fault, he⟩
      next =>
        split
        · rintro ⟨fault, h⟩
          simp at h
        · exact not_blames_ok _

end Spill

namespace Compiler

variable {Tree : Type u} {selection : Selection Tree} {graph : FlowGraph Tree}
  {frame frame' : Frame} {c : Compiler} {f : Fragment} {x y : Interaction} {a : Allocation}
  {s : SpilledCode} {r : Register} {roles : Convention}

theorem analyze_of_nonempty (h : ∀ b ∈ f.blocks, b.instructions ≠ []) :
    ∃ x, c.analyze f = .ok x :=
  ⟨_, bind_eq_ok_iff.mpr ⟨_, Interaction.analyze_of_nonempty h, rfl⟩⟩

theorem mem_registersOf : r ∈ registersOf c.convention f ↔
    r ∈ (Interaction.ofFragment f c.convention.preserved c.convention.alwaysLive).registers := by
  rw [Interaction.mem_registers_iff, Fragment.mem_registers_iff]
  simp [registersOf, eq_comm, or_assoc]

/-- The final places of the registers of code. -/
def finalAllocation (c : Convention) (code : Fragment) (a : Allocation) : Allocation :=
  ⟨.ofPartial (registersOf c code) (finalPlace? a), ∅⟩

theorem place?_finalAllocation_eq_some {h : HardwareRegister} :
    (finalAllocation c.convention f a).place? r = some h ↔
      r ∈ (Interaction.ofFragment f c.convention.preserved c.convention.alwaysLive).registers ∧
        finalPlace? a r = some h := by
  rw [finalAllocation, Allocation.place?, InsertionMap.get?_ofPartial, ← mem_registersOf]
  split_ifs with hr <;> simp [hr]

theorem afterSpilling_of_placed
    (h : ∀ r ∈ (Interaction.ofFragment f c.convention.preserved c.convention.alwaysLive).registers,
      ∃ k, finalPlace? a r = some k) :
    afterSpilling c.convention f a = .ok (finalAllocation c.convention f a) := by
  refine bind_eq_ok_iff.mpr ⟨(), mapError_eq_ok_iff.mpr (rejectFirst_eq_ok_iff.mpr ?_), rfl⟩
  intro r hr
  obtain ⟨k, hk⟩ := h r (mem_registersOf.mp hr)
  simp [hk]

/-! ## The code with spills -/

/-- Code with labelled blocks whose registers are placed apart from the backup
registers, and the same code with its spilled registers on the stack. -/
structure SpillsMoved (c : Compiler) (selection : Selection Tree) (f : Fragment) (x : Interaction)
    (a : Allocation) (s : SpilledCode) : Prop where
  plain : selection.Plain
  labelled : f.Labelled
  analyze : c.analyze f = .ok x
  placed : a.Placed x c.convention.backups
  allowed : ∀ r h, a.place? r = some h → h ∈ c.convention.allowed
  backups_allowed : ∀ b ∈ c.convention.backups, b ∈ c.convention.allowed
  nodup : c.convention.backups.Nodup
  spills : ∀ r, r ∈ a.spills ↔ ∃ slot, Spill.slot? s.slots r = some slot
  code : Spill.expandFragment selection s.slots c.convention.backups f = .ok s.code

namespace SpillsMoved

variable (h : SpillsMoved c selection f x a s)
include h

theorem rewriting : f.Rewriting (Spill.Kept s.slots c.convention.backups)
    (Spill.codeFor selection s.slots c.convention.backups) :=
  Spill.rewriting_of_expandFragment h.plain h.labelled h.nodup h.code

theorem code_eq :
    s.code = f.replace (Spill.codeFor selection s.slots c.convention.backups) :=
  (Spill.expandFragment_eq_ok h.code).2

theorem exists_analyze : ∃ y, c.analyze s.code = .ok y := by
  rw [h.code_eq]
  exact analyze_of_nonempty h.rewriting.nonempty_replace

/-- A register of the code with spills is one of the code and where it was placed,
or it is a backup register. -/
theorem place_cases (hy : c.analyze s.code = .ok y) (hr : r ∈ y.registers) :
    (r ∈ x.registers ∧ Spill.Kept s.slots c.convention.backups r ∧
      ∃ k, a.place? r = some k ∧ finalPlace? a r = some k) ∨
    ∃ b ∈ c.convention.backups, r = .fixed b ∧ finalPlace? a r = some b := by
  obtain ⟨-, _, rfl, hregisters, -⟩ := analyze_eq_ok h.analyze
  obtain ⟨-, _, rfl, hregisters', -⟩ := analyze_eq_ok hy
  rw [hregisters'] at hr
  rcases Spill.kept_or_backup_of_mem_registers h.plain h.labelled h.nodup h.code hr with
    hkept | ⟨b, hb, rfl⟩
  · rw [h.code_eq] at hr
    have hmem : r ∈ x.registers :=
      hregisters ▸ Interaction.mem_registers_of_replace h.rewriting hkept hr
    have hplaced : ∃ k, a.place? r = some k := by
      apply (h.placed.placed_or_spilled r hmem).resolve_right
      intro hspilled
      simpa [hkept.1] using (h.spills r).mp hspilled
    obtain ⟨k, hk⟩ := hplaced
    exact .inl ⟨hmem, hkept, k, hk, finalPlace?_of_place? hk⟩
  · exact .inr ⟨b, hb, rfl, finalPlace?_fixed h.placed b⟩

theorem exists_finalPlace (hy : c.analyze s.code = .ok y) (hr : r ∈ y.registers) :
    ∃ k, finalPlace? a r = some k ∧ k ∈ c.convention.allowed := by
  rcases h.place_cases hy hr with ⟨-, -, k, hk, hfinal⟩ | ⟨b, hb, -, hfinal⟩
  · exact ⟨k, hfinal, h.allowed r k hk⟩
  · exact ⟨b, hfinal, h.backups_allowed b hb⟩

/-- Registers that interfere in the code with spills have different places. -/
theorem finalPlace_apart (hy : c.analyze s.code = .ok y) {q : Register} (hr : r ∈ y.registers)
    (hq : q ∈ y.registers) (hinterferes : q ∈ y.interference.neighbors r) {k : HardwareRegister}
    (hk : finalPlace? a r = some k) : finalPlace? a q ≠ some k := by
  intro hsame
  obtain ⟨-, _, rfl, -, hinterference⟩ := analyze_eq_ok h.analyze
  obtain ⟨-, _, rfl, -, hinterference'⟩ := analyze_eq_ok hy
  rcases h.place_cases hy hr with ⟨hmem, hkept, l, hl, hfinal⟩ | ⟨b, hb, rfl, hfinal⟩
  · obtain rfl := Option.some.inj (hfinal.symm.trans hk)
    rcases h.place_cases hy hq with ⟨hmem', hkept', l', hl', hfinal'⟩ | ⟨b, hb, -, hfinal'⟩
    · obtain rfl := Option.some.inj (hfinal'.symm.trans hsame)
      rw [hinterference', h.code_eq] at hinterferes
      have hbefore := Interaction.mem_interference_of_replace h.rewriting hkept hkept' hinterferes
      exact h.placed.apart r hmem q hmem' (hinterference ▸ hbefore) l' hl hl'
    · obtain rfl := Option.some.inj (hfinal'.symm.trans hsame)
      exact h.placed.not_backup r hmem b hl hb
  · obtain rfl := Option.some.inj (hfinal.symm.trans hk)
    rcases h.place_cases hy hq with ⟨hmem', -, l', hl', hfinal'⟩ | ⟨b', -, rfl, hfinal'⟩
    · obtain rfl := Option.some.inj (hfinal'.symm.trans hsame)
      exact h.placed.not_backup q hmem' l' hl' hb
    · obtain rfl := Option.some.inj (hfinal'.symm.trans hsame)
      rw [hinterference'] at hinterferes
      exact Interaction.not_mem_interference_self hinterferes

theorem placed_finalAllocation (hy : c.analyze s.code = .ok y) :
    (finalAllocation c.convention s.code a).Placed y [] := by
  obtain ⟨-, _, rfl, hregisters, -⟩ := analyze_eq_ok hy
  constructor
  case placed_or_spilled =>
    intro r hr
    obtain ⟨k, hk, -⟩ := h.exists_finalPlace hy hr
    exact .inl ⟨k, place?_finalAllocation_eq_some.mpr ⟨hregisters ▸ hr, hk⟩⟩
  case fixed_kept =>
    intro b k hk
    have hfinal := (place?_finalAllocation_eq_some.mp hk).2
    rw [finalPlace?_fixed h.placed] at hfinal
    exact (Option.some.inj hfinal).symm
  case apart =>
    intro r hr q hq hinterferes k hk hsame
    exact h.finalPlace_apart hy hr hq hinterferes (place?_finalAllocation_eq_some.mp hk).2
      (place?_finalAllocation_eq_some.mp hsame).2
  case not_backup => exact fun _ _ _ _ => List.not_mem_nil

/-- The places for the code with spills follow the rules. -/
theorem valid_finalAllocation (hy : c.analyze s.code = .ok y) :
    (finalAllocation c.convention s.code a).Valid y c.convention.allowed := by
  apply (h.placed_finalAllocation hy).valid fun r => InsertionSet.not_mem_empty r
  intro r k hk
  obtain ⟨-, _, rfl, hregisters, -⟩ := analyze_eq_ok hy
  obtain ⟨hr, hfinal⟩ := place?_finalAllocation_eq_some.mp hk
  rw [← hregisters] at hr
  obtain ⟨k', hk', hallowed⟩ := h.exists_finalPlace hy hr
  obtain rfl := Option.some.inj (hk'.symm.trans hfinal)
  exact ⟨hr, hallowed⟩

theorem afterSpilling_eq_ok :
    afterSpilling c.convention s.code a = .ok (finalAllocation c.convention s.code a) := by
  obtain ⟨y, hy⟩ := h.exists_analyze
  obtain ⟨-, _, rfl, hregisters, -⟩ := analyze_eq_ok hy
  apply afterSpilling_of_placed
  intro r hr
  obtain ⟨k, hk, -⟩ := h.exists_finalPlace hy (hregisters ▸ hr)
  exact ⟨k, hk⟩

/-- The last step of a compilation succeeds, with its check or without. -/
theorem finish_eq_ok (name : String) :
    c.finish name s a =
      .ok ⟨name, s.code, finalAllocation c.convention s.code a, s.slots⟩ := by
  refine bind_eq_ok_iff.mpr ⟨_, h.afterSpilling_eq_ok, ?_⟩
  split_ifs
  · rfl
  · obtain ⟨y, hy⟩ := h.exists_analyze
    have hvalid := Allocation.validate_eq_ok_iff.mpr (h.valid_finalAllocation hy)
    exact bind_eq_ok_iff.mpr ⟨y, hy, bind_eq_ok_iff.mpr ⟨(), hvalid, rfl⟩⟩

end SpillsMoved

/-! ## The whole compilation -/

theorem labelled_of_place (hplain : selection.Plain)
    (hplace : c.place selection graph = .ok (f, x, a)) : f.Labelled := by
  obtain ⟨hlayOut, -⟩ := place_eq_ok hplace
  rcases graph.layOut_labelled hplain with ⟨f', hok, hlabelled⟩ | ⟨fault, herror⟩
  · obtain rfl := Except.ok.inj (hok.symm.trans hlayOut)
    exact hlabelled
  · simp [herror] at hlayOut

theorem place_allowed_of_place (hconvention : roles.checked = .ok c.convention)
    (hplace : c.place selection graph = .ok (f, x, a)) {k : HardwareRegister}
    (hk : a.place? r = some k) : k ∈ c.convention.allowed :=
  Allocation.place_allowed_of_allocateWithRetry (place_eq_ok hplace).2.2
    (Convention.backups_allowed hconvention) hk

theorem spillsMoved (hplain : selection.Plain) (hconvention : roles.checked = .ok c.convention)
    (hplace : c.place selection graph = .ok (f, x, a)) (hfree : a.isSpillFree = false)
    (hmoved : Spill.moveToStack selection Coloring.firstFit frame f x a c.convention.backups =
      (frame', .ok s)) : SpillsMoved c selection f x a s := by
  obtain ⟨hspills, -, hcode⟩ := Spill.moveToStack_eq_ok (congrArg Prod.snd hmoved)
  constructor
  · exact hplain
  · exact labelled_of_place hplain hplace
  · exact (place_eq_ok hplace).2.1
  · exact placed_of_place hplace hfree
  · exact fun r k => place_allowed_of_place hconvention hplace
  · exact Convention.backups_allowed hconvention
  · exact Convention.nodup_backups hconvention
  · exact hspills
  · exact hcode

/-- Registers fail to be placed because of the input only. -/
theorem not_blames_place (hplain : selection.Plain) (c : Compiler) (graph : FlowGraph Tree) :
    ¬ BlamesAllocation (c.place selection graph) := by
  rcases graph.layOut_labelled hplain with ⟨f, hok, hlabelled⟩ | ⟨fault, herror⟩
  · apply not_blames_bind
    · rw [hok]
      exact not_blames_ok f
    · intro f' hf'
      obtain rfl := Except.ok.inj (hok.symm.trans hf')
      obtain ⟨x, hx⟩ := analyze_of_nonempty (c := c) hlabelled.nonempty
      apply not_blames_bind
      · rw [hx]
        exact not_blames_ok x
      · intro x' _
        apply not_blames_bind (Allocation.not_blames_allocateWithRetry x' c.convention)
        exact fun a _ => not_blames_ok _
  · rintro ⟨fault', h⟩
    simp [place, herror, bind, Except.bind] at h

theorem not_blames_compile (hplain : selection.Plain)
    (hconvention : roles.checked = .ok c.convention) :
    ¬ BlamesAllocation (c.compile selection graph frame).2 := by
  rcases place_cases c selection graph frame with
    ⟨e, hplace⟩ | ⟨f, x, a, hplace, hfree | ⟨hfree, frame', ⟨e, hmoved⟩ | ⟨s, hmoved⟩⟩⟩
  · have hnot := not_blames_place hplain c graph
    rw [hplace, blames_error_iff] at hnot
    rwa [compile_of_place_error hplace, blames_error_iff]
  · rw [compile_of_isSpillFree hplace hfree]
    exact not_blames_ok _
  · have hnot := Spill.not_blames_moveToStack selection frame f x a c.convention.backups
    rw [hmoved, blames_error_iff] at hnot
    rwa [compile_of_moveToStack_error hplace hfree hmoved, blames_error_iff]
  · rw [compile_of_moveToStack_ok hplace hfree hmoved,
      (spillsMoved hplain hconvention hplace hfree hmoved).finish_eq_ok]
    exact not_blames_ok _

/-- The check at the end makes no difference. -/
theorem compile_disableValidation (hplain : selection.Plain)
    (hconvention : roles.checked = .ok c.convention) (flag : Bool) :
    Compiler.compile { c with options.disableValidation := flag } selection graph frame =
      c.compile selection graph frame := by
  have hsame : Compiler.place { c with options.disableValidation := flag } selection graph =
      c.place selection graph := rfl
  rcases place_cases c selection graph frame with
    ⟨e, hplace⟩ | ⟨f, x, a, hplace, hfree | ⟨hfree, frame', ⟨e, hmoved⟩ | ⟨s, hmoved⟩⟩⟩
  · rw [compile_of_place_error hplace, compile_of_place_error (hsame.trans hplace)]
  · rw [compile_of_isSpillFree hplace hfree, compile_of_isSpillFree (hsame.trans hplace) hfree]
  · rw [compile_of_moveToStack_error hplace hfree hmoved,
      compile_of_moveToStack_error (hsame.trans hplace) hfree hmoved]
  · have hwith := spillsMoved (c := { c with options.disableValidation := flag }) hplain
      hconvention (hsame.trans hplace) hfree hmoved
    have hwithout := spillsMoved hplain hconvention hplace hfree hmoved
    rw [compile_of_moveToStack_ok hplace hfree hmoved,
      compile_of_moveToStack_ok (hsame.trans hplace) hfree hmoved, hwith.finish_eq_ok,
      hwithout.finish_eq_ok]

/-- What is compiled has nothing spilled, and its places follow the rules. -/
theorem valid_of_compile (hplain : selection.Plain)
    (hconvention : roles.checked = .ok c.convention) {func : CompiledFunction}
    (hok : (c.compile selection graph frame).2 = .ok func) :
    func.allocation.isSpillFree = true ∧ ∃ y, c.analyze func.code = .ok y ∧
      (func.allocation.restrictTo y.registers).Valid y c.convention.allowed := by
  obtain ⟨f, x, a, hplace, ⟨hfree, rfl⟩ | ⟨hfree, frame', s, hmoved, hfinish⟩⟩ := compile_eq_ok hok
  · obtain ⟨-, hanalyze, hallocate⟩ := place_eq_ok hplace
    obtain ⟨backups, hplaced⟩ := Allocation.exists_placed_of_allocateWithRetry hallocate
    refine ⟨hfree, x, hanalyze, ?_⟩
    exact hplaced.valid_restrictTo (Allocation.not_mem_spills_of_isSpillFree hfree)
      fun r k => place_allowed_of_place hconvention hplace
  · have hspills := spillsMoved hplain hconvention hplace hfree hmoved
    rw [hspills.finish_eq_ok] at hfinish
    obtain rfl := Except.ok.inj hfinish
    obtain ⟨y, hy⟩ := hspills.exists_analyze
    refine ⟨rfl, y, hy, ?_⟩
    apply (hspills.placed_finalAllocation hy).valid_restrictTo
    · exact fun r => InsertionSet.not_mem_empty r
    · exact (hspills.valid_finalAllocation hy).place_allowed

end Compiler

/-- For a checked convention, with whatever options, and for a selection whose
copies are pure and whose moves to and from the stack are just that, no
compilation of a graph ends with the error that an allocation breaks its own
rules. Once the spilled registers are on the stack, the code with spills can be
analyzed, its registers have places, and these are accepted; so the function is
compiled. The result is the same with and without that last check. Whatever is
compiled has no spills and a place for each register that its code uses, and of
its places those for the registers of the analyzed code are accepted. -/
theorem compile_never_fails_after_spilling {Tree : Type u} {selection : Selection Tree}
    (hplain : selection.Plain) {c : Compiler} {roles : Convention}
    (hconvention : roles.checked = .ok c.convention) (graph : FlowGraph Tree) (frame : Frame) :
    (∀ fault, (c.compile selection graph frame).2 ≠ .error (.invalidAllocation fault)) ∧
    (∀ f x a frame' s, c.place selection graph = .ok (f, x, a) → a.isSpillFree = false →
      Spill.moveToStack selection Coloring.firstFit frame f x a c.convention.backups =
        (frame', .ok s) →
      ∃ y final, c.analyze s.code = .ok y ∧
        Compiler.afterSpilling c.convention s.code a = .ok final ∧
        final.validate y c.convention.allowed = .ok () ∧
        c.compile selection graph frame = (frame', .ok ⟨graph.name, s.code, final, s.slots⟩)) ∧
    (∀ flag, Compiler.compile { c with options.disableValidation := flag } selection graph frame =
      c.compile selection graph frame) ∧
    ∀ func, (c.compile selection graph frame).2 = .ok func →
      func.allocation.isSpillFree = true ∧
      (∀ i ∈ func.code.instructions, ∀ r, r ∈ i.reads ∨ r ∈ i.writes →
        ∃ h, func.allocation.place? r = some h) ∧
      ∃ y, c.analyze func.code = .ok y ∧
        (func.allocation.restrictTo y.registers).validate y c.convention.allowed = .ok () := by
  refine ⟨fun fault h => ?_, fun f x a frame' s hplace hfree hmoved => ?_, ?_, fun func hok => ?_⟩
  · exact Compiler.not_blames_compile hplain hconvention ⟨fault, h⟩
  · have hspills := Compiler.spillsMoved hplain hconvention hplace hfree hmoved
    obtain ⟨y, hy⟩ := hspills.exists_analyze
    have hvalid := Allocation.validate_eq_ok_iff.mpr (hspills.valid_finalAllocation hy)
    refine ⟨y, _, hy, hspills.afterSpilling_eq_ok, hvalid, ?_⟩
    rw [Compiler.compile_of_moveToStack_ok hplace hfree hmoved, hspills.finish_eq_ok]
  · exact Compiler.compile_disableValidation hplain hconvention
  · obtain ⟨hfree, y, hy, hvalid⟩ := Compiler.valid_of_compile hplain hconvention hok
    obtain ⟨f, x, a, backups, -, hcompiled⟩ := Compiler.exists_compiled hok
    refine ⟨hfree, fun i hi r hr => ⟨_, hcompiled.places i hi r hr⟩, y, hy, ?_⟩
    exact Allocation.validate_eq_ok_iff.mpr hvalid

/-- Two of the three values are moved to the stack. -/
theorem threeValues_accepted_after_spilling :
    ∃ f x a frame' s y final,
      Compiler.place ⟨⟨.none, false, false, ""⟩, twoRegisters⟩ .sequential threeValues =
        .ok (f, x, a) ∧
      a.isSpillFree = false ∧
      Spill.moveToStack .sequential Coloring.firstFit .empty f x a [.rcx] = (frame', .ok s) ∧
      Compiler.analyze ⟨⟨.none, false, false, ""⟩, twoRegisters⟩ s.code = .ok y ∧
      Compiler.afterSpilling twoRegisters s.code a = .ok final ∧
      final.validate y [.rax, .rcx] = .ok () := by
  have hslots : (Compiler.compile ⟨⟨.none, false, false, ""⟩, twoRegisters⟩ .sequential threeValues
      .empty).2.toOption.map (fun func => func.slots.size) = some 2 := by decide +kernel
  obtain ⟨-, haccepted, -⟩ := compile_never_fails_after_spilling
    (c := ⟨⟨.none, false, false, ""⟩, twoRegisters⟩) Selection.sequential_plain
    (show twoRegisters.checked = .ok twoRegisters from rfl) threeValues .empty
  rcases Compiler.place_cases ⟨⟨.none, false, false, ""⟩, twoRegisters⟩ .sequential threeValues
    .empty with
    ⟨e, hplace⟩ | ⟨f, x, a, hplace, hfree | ⟨hfree, frame', ⟨e, hmoved⟩ | ⟨s, hmoved⟩⟩⟩
  · simp [Compiler.compile_of_place_error hplace, Except.toOption] at hslots
  · rw [Compiler.compile_of_isSpillFree hplace hfree] at hslots
    have hnone : (0 : Nat) = 2 := Option.some.inj hslots
    exact absurd hnone (by decide)
  · simp [Compiler.compile_of_moveToStack_error hplace hfree hmoved, Except.toOption] at hslots
  · obtain ⟨y, final, hy, hafter, hvalid, -⟩ := haccepted f x a frame' s hplace hfree hmoved
    exact ⟨f, x, a, frame', s, y, final, hplace, hfree, hmoved, hy, hafter, hvalid⟩

end Lowering
