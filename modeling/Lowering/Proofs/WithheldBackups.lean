import Lowering.Proofs.RetriedAllocation

/-!
# What the second attempt refuses

The second attempt at an allocation checks its input again, with the backup
registers withheld. A function that names a backup register passes the check of the
first attempt and not that of the second. Nothing else can make the second attempt
fail.
-/

namespace Lowering

theorem Convention.nodup_allowed {roles c : Convention} (h : roles.checked = .ok c) :
    c.allowed.Nodup := by
  obtain ⟨-, rfl⟩ := checked_eq_ok h
  exact (InsertionSet.ofList roles.allowed).nodup

namespace Interaction

variable {x : Interaction} {c : Convention} {r : Register} {b : HardwareRegister}
  {fault : InputFault}

/-- The backup register is the first one among the registers of the function. -/
def NamesFirst (x : Interaction) (backups : List HardwareRegister) (b : HardwareRegister) : Prop :=
  b ∈ backups ∧ ∃ before after, x.registers.toList = before ++ .fixed b :: after ∧
    ∀ d ∈ backups, ¬ .fixed d ∈ before

theorem NamesFirst.mem_registers {backups : List HardwareRegister} (h : x.NamesFirst backups b) :
    .fixed b ∈ x.registers := by
  obtain ⟨-, before, after, hlist, -⟩ := h
  rw [InsertionSet.mem_iff, hlist]
  exact List.mem_append_right before List.mem_cons_self

/-- Of the fixed registers that were allowed at first, the backup registers are not
allowed any more. -/
theorem fixedFault?_withheld (h : x.Admissible c.allowed) (hr : r ∈ x.registers) :
    fixedFault? c.allowedWithoutBackups r = some fault ↔
      ∃ b ∈ c.backups, r = .fixed b ∧ fault = .fixedNotAllowed b := by
  cases r with
  | virtual v => simp [fixedFault?, Register.fixed?]
  | fixed k =>
      have hallowed := h.fixed_allowed k hr
      by_cases hk : k ∈ c.backups
      · simp [fixedFault?, Register.fixed?, Convention.mem_allowedWithoutBackups, hk, eq_comm]
      · simp [fixedFault?, Register.fixed?, Convention.mem_allowedWithoutBackups, hk, hallowed]

/-- An input that was accepted with all allowed registers is refused without the
backup registers for the first of these that it names, and for nothing else. -/
theorem checkInput_withheld (h : x.Admissible c.allowed) :
    x.checkInput c.allowedWithoutBackups = .error fault ↔
      ∃ b, x.NamesFirst c.backups b ∧ fault = .fixedNotAllowed b := by
  have haccepted := checkInput_eq_ok_iff.mpr h
  simp only [checkInput, check_then_eq_ok_iff] at haccepted
  obtain ⟨hinterference, hcopying, hloop, -⟩ := haccepted
  have hlast : x.checkInput c.allowedWithoutBackups =
      rejectFirst x.registers.toList (fixedFault? c.allowedWithoutBackups) := by
    unfold checkInput
    rw [hinterference, hcopying, hloop]
    rfl
  rw [hlast, rejectFirst_eq_error_iff, List.findSome?_eq_some_iff]
  constructor
  · rintro ⟨before, r, after, hlist, hfault, hnone⟩
    have hmem : ∀ q ∈ before ++ r :: after, q ∈ x.registers := by
      rw [← hlist]
      exact fun q hq => hq
    obtain ⟨b, hb, rfl, rfl⟩ := (fixedFault?_withheld h (hmem r (by simp))).mp hfault
    refine ⟨b, ⟨hb, before, after, hlist, fun d hd hbefore => ?_⟩, rfl⟩
    have hsome := (fixedFault?_withheld h (hmem _ (by simp [hbefore]))).mpr ⟨d, hd, rfl, rfl⟩
    simp [hnone _ hbefore] at hsome
  · rintro ⟨b, hfirst, rfl⟩
    have hb := hfirst.mem_registers
    obtain ⟨hbackup, before, after, hlist, hnot⟩ := hfirst
    refine ⟨before, .fixed b, after, hlist, ?_, fun q hq => ?_⟩
    · exact (fixedFault?_withheld h hb).mpr ⟨b, hbackup, rfl, rfl⟩
    · rw [Option.eq_none_iff_forall_ne_some]
      intro fault hfault
      have hmem : q ∈ x.registers := by
        rw [InsertionSet.mem_iff, hlist]
        exact List.mem_append_left _ hq
      obtain ⟨d, hd, rfl, -⟩ := (fixedFault?_withheld h hmem).mp hfault
      exact hnot d hd hq

/-- If a function names a backup register, one of them is the first. -/
theorem exists_namesFirst (h : x.Admissible c.allowed) :
    (∃ b, x.NamesFirst c.backups b) ↔ ∃ b ∈ c.backups, .fixed b ∈ x.registers := by
  constructor
  · rintro ⟨b, hfirst⟩
    exact ⟨b, hfirst.1, hfirst.mem_registers⟩
  · rintro ⟨b, hb, hmem⟩
    cases hcheck : x.checkInput c.allowedWithoutBackups with
    | error fault =>
        obtain ⟨d, hfirst, -⟩ := (checkInput_withheld h).mp hcheck
        exact ⟨d, hfirst⟩
    | ok _ =>
        have hadmissible := checkInput_eq_ok_iff.mp hcheck
        have hallowed := hadmissible.fixed_allowed b hmem
        exact absurd hb (Convention.mem_allowedWithoutBackups.mp hallowed).2

end Interaction

namespace Allocation

variable {x : Interaction} {c : Convention}

/-- The second attempt fails for a backup register that the function names, and for
nothing else. -/
theorem allocate_withheld (hnodup : c.allowed.Nodup) (h : x.Admissible c.allowed) {e : Error} :
    allocate Coloring.firstFit x c.allowedWithoutBackups = .error e ↔
      ∃ b, x.NamesFirst c.backups b ∧ e = .invalidInput (.fixedNotAllowed b) := by
  cases hcheck : x.checkInput c.allowedWithoutBackups with
  | error fault =>
      have hrefused : allocate Coloring.firstFit x c.allowedWithoutBackups =
          .error (.invalidInput fault) := by
        unfold allocate
        rw [hcheck]
        rfl
      rw [hrefused, Except.error.injEq]
      constructor
      · rintro rfl
        obtain ⟨b, hfirst, rfl⟩ := (Interaction.checkInput_withheld h).mp hcheck
        exact ⟨b, hfirst, rfl⟩
      · rintro ⟨b, hfirst, rfl⟩
        have hsame := (Interaction.checkInput_withheld h).mpr ⟨b, hfirst, rfl⟩
        rw [Except.error.inj (hcheck.symm.trans hsame)]
  | ok _ =>
      obtain ⟨a, ha, -⟩ := allocate_of_admissible (Interaction.checkInput_eq_ok_iff.mp hcheck)
        (hnodup.filter _)
      rw [ha]
      refine iff_of_false nofun ?_
      rintro ⟨b, hfirst, -⟩
      have hrefused := (Interaction.checkInput_withheld h).mpr ⟨b, hfirst, rfl⟩
      exact absurd (hcheck.symm.trans hrefused) nofun

/-- If the first attempt is accepted, the whole fails exactly if it spills and the
second attempt fails. -/
theorem allocateWithRetry_eq_error_iff {solver : Solver Register HardwareRegister}
    {first : Allocation} (hfirst : allocate solver x c.allowed = .ok first) {e : Error} :
    allocateWithRetry solver x c = .error e ↔
      first.isSpillFree = false ∧ allocate solver x c.allowedWithoutBackups = .error e := by
  unfold allocateWithRetry
  rw [hfirst]
  cases hfree : first.isSpillFree with
  | true => simp [bind, Except.bind, hfree, pure, Except.pure]
  | false =>
      cases allocate solver x c.allowedWithoutBackups <;>
        simp [bind, Except.bind, hfree, pure, Except.pure]

end Allocation

/-- Let the first attempt accept a function under a checked convention, with or
without spills. The allocation with a second attempt succeeds exactly if the first
attempt did not spill, or the function names no backup register. Otherwise the
second attempt refuses the first backup register that the function names, as a fixed
register that is not allowed, although the convention does allow it. -/
theorem allocateWithRetry_fails_iff_names_backup {roles c : Convention}
    (hconvention : roles.checked = .ok c) (x : Interaction) {first : Allocation}
    (hfirst : Allocation.allocate Coloring.firstFit x c.allowed = .ok first) :
    ((∃ a, Allocation.allocateWithRetry Coloring.firstFit x c = .ok a) ↔
      first.isSpillFree = true ∨ ∀ b ∈ c.backups, ¬ .fixed b ∈ x.registers) ∧
    ∀ e, Allocation.allocateWithRetry Coloring.firstFit x c = .error e ↔
      first.isSpillFree = false ∧ ∃ b, x.NamesFirst c.backups b ∧ b ∈ c.allowed ∧
        e = .invalidInput (.fixedNotAllowed b) := by
  have hadmissible := Allocation.admissible_of_allocate hfirst
  have hfails : ∀ e, Allocation.allocateWithRetry Coloring.firstFit x c = .error e ↔
      first.isSpillFree = false ∧ ∃ b, x.NamesFirst c.backups b ∧
        e = .invalidInput (.fixedNotAllowed b) := by
    intro e
    rw [Allocation.allocateWithRetry_eq_error_iff hfirst,
      Allocation.allocate_withheld (Convention.nodup_allowed hconvention) hadmissible]
  constructor
  · have hfailure : (∃ e, Allocation.allocateWithRetry Coloring.firstFit x c = .error e) ↔
        first.isSpillFree = false ∧ ∃ b ∈ c.backups, .fixed b ∈ x.registers := by
      rw [← Interaction.exists_namesFirst hadmissible]
      simp only [hfails]
      constructor
      · rintro ⟨e, hspills, b, hb, -⟩
        exact ⟨hspills, b, hb⟩
      · rintro ⟨hspills, b, hb⟩
        exact ⟨_, hspills, b, hb, rfl⟩
    have hsuccess : (∃ a, Allocation.allocateWithRetry Coloring.firstFit x c = .ok a) ↔
        ¬ ∃ e, Allocation.allocateWithRetry Coloring.firstFit x c = .error e := by
      cases Allocation.allocateWithRetry Coloring.firstFit x c <;> simp
    rw [hsuccess, hfailure, not_and_or, Bool.not_eq_false]
    simp only [not_exists, not_and]
  · intro e
    rw [hfails]
    apply and_congr_right
    intro _
    apply exists_congr
    intro b
    apply and_congr_right
    intro hb
    exact (and_iff_right (Convention.backups_allowed hconvention b hb.1)).symm

/-- A function that keeps values in two fixed registers while it makes a third. -/
def usesBoth : Fragment where
  name := "f"
  blocks := [.unlinked ⟨"b"⟩
    [.operate (.compute "set" [] [.fixed .rax, .fixed .rcx]),
      .operate (.compute "make" [] [.virtual ⟨0, false⟩]),
      .operate (.compute "use" [.virtual ⟨0, false⟩, .fixed .rax, .fixed .rcx] [])]]

/-- The function is accepted at first and its value is spilled. But one of its two
registers is the backup register, so it is refused in the end. -/
theorem usesBoth_refused : ∃ x first,
    Interaction.analyze usesBoth [] [] = .ok x ∧ twoRegisters.checked = .ok twoRegisters ∧
    Allocation.allocate Coloring.firstFit x twoRegisters.allowed = .ok first ∧
    (¬ ∃ a, Allocation.allocateWithRetry Coloring.firstFit x twoRegisters = .ok a) ∧
    Allocation.allocateWithRetry Coloring.firstFit x twoRegisters =
      .error (.invalidInput (.fixedNotAllowed .rcx)) := by
  have hfirst : Allocation.allocate Coloring.firstFit (.ofFragment usesBoth [] [])
      twoRegisters.allowed = .ok ⟨.ofList [(.fixed .rax, .rax), (.fixed .rcx, .rcx)],
        .ofList [.virtual ⟨0, false⟩]⟩ := by decide +kernel
  have hconvention : twoRegisters.checked = .ok twoRegisters := rfl
  obtain ⟨hsucceeds, hfails⟩ := allocateWithRetry_fails_iff_names_backup hconvention _ hfirst
  refine ⟨_, _, Interaction.analyze_of_nonempty (by decide), hconvention, hfirst, ?_, ?_⟩
  · rw [hsucceeds]
    decide +kernel
  · refine (hfails _).mpr ⟨rfl, .rcx, ⟨by decide, [.fixed .rax], [.virtual ⟨0, false⟩], ?_⟩,
      by decide, rfl⟩
    decide +kernel

end Lowering
