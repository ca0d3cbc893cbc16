import Lowering.Allocation
import Lowering.Proofs.Relations

/-!
# What an accepted allocation satisfies

The checks of an allocation, read as one statement about places and spills.
-/

namespace Lowering

universe u

theorem bind_eq_ok_iff {ε : Type} {α β : Type u} {x : Except ε α} {y : α → Except ε β}
    {b : β} :
    (x >>= y) = .ok b ↔ ∃ a, x = .ok a ∧ y a = .ok b := by
  cases x with
  | error e => simp [bind, Except.bind]
  | ok a => simp [bind, Except.bind]

theorem mapError_eq_ok_iff {ε δ : Type} {α : Type u} {x : Except ε α} {f : ε → δ} {a : α} :
    x.mapError f = .ok a ↔ x = .ok a := by
  cases x with
  | error e => exact iff_of_false nofun nofun
  | ok b =>
      constructor
      · exact fun h => congrArg Except.ok (Except.ok.inj h)
      · exact fun h => congrArg Except.ok (Except.ok.inj h)

theorem check_then_eq_ok_iff {ε : Type} {check : Except ε Unit} {rest : Except ε Unit} :
    (check >>= fun _ => rest) = .ok () ↔ check = .ok () ∧ rest = .ok () := by
  rw [bind_eq_ok_iff]
  constructor
  · rintro ⟨_, hcheck, hrest⟩
    exact ⟨hcheck, hrest⟩
  · rintro ⟨hcheck, hrest⟩
    exact ⟨(), hcheck, hrest⟩

theorem exists_eq_ok {ε : Type} {α : Type u} {x : Except ε α} (h : x.isOk = true) :
    ∃ a, x = .ok a := by
  cases x with
  | error e => exact absurd h Bool.false_ne_true
  | ok a => exact ⟨a, rfl⟩

namespace Allocation

variable {a : Allocation} {i : Interaction} {allowed : List HardwareRegister}

/-- The rules that an allocation has to follow. -/
structure Valid (a : Allocation) (i : Interaction) (allowed : List HardwareRegister) : Prop where
  assigned_known : ∀ r ∈ a.assigned, r ∈ i.registers
  spilled_known : ∀ r ∈ a.spills, r ∈ i.registers ∧ ¬ r ∈ a.assigned
  placed_or_spilled : ∀ r ∈ i.registers, r ∈ a.assigned ∨ r ∈ a.spills
  place_allowed : ∀ r h, a.place? r = some h → h ∈ allowed
  fixed_kept : ∀ h k, a.place? (.fixed h) = some k → k = h
  fixed_not_spilled : ∀ r ∈ i.registers, r.isFixed = true → ¬ r ∈ a.spills
  apart : ∀ r s h, s ∈ i.interference.neighbors r → a.place? r = some h → a.place? s ≠ some h

theorem strayFault?_eq_none {r : Register} : strayFault? i r = none ↔ r ∈ i.registers := by
  simp [strayFault?]

theorem spillFault?_eq_none {r : Register} :
    spillFault? i a r = none ↔ r ∈ i.registers ∧ ¬ r ∈ a.assigned := by
  unfold spillFault?
  by_cases hr : r ∈ i.registers <;> simp [hr]

theorem lostFault?_eq_none {r : Register} :
    lostFault? a r = none ↔ r ∈ a.assigned ∨ r ∈ a.spills := by
  unfold lostFault?
  by_cases hr : r ∈ a.assigned ∨ r ∈ a.spills <;> simp [hr]

theorem placeFault?_eq_none {r : Register} {h : HardwareRegister} :
    placeFault? allowed (r, h) = none ↔ h ∈ allowed ∧ ∀ k, r = .fixed k → k = h := by
  unfold placeFault?
  by_cases hh : h ∈ allowed
  · cases r <;> simp [hh, Register.fixed?]
  · simp [hh]

theorem fixedFault?_eq_none {r : Register} :
    fixedFault? a r = none ↔ (r.isFixed = true → ¬ r ∈ a.spills) := by
  simp [fixedFault?]

theorem clashFault?_eq_none {e : Register × InsertionSet Register} :
    clashFault? a e = none ↔
      ∀ h, a.place? e.1 = some h → ∀ b ∈ e.2, a.place? b ≠ some h := by
  unfold clashFault?
  cases hplace : a.place? e.1 with
  | none => simp
  | some h => simp [InsertionSet.mem_iff]

/-- An allocation is accepted exactly if it follows the rules. -/
theorem validate_eq_ok_iff : a.validate i allowed = .ok () ↔ a.Valid i allowed := by
  simp only [validate, mapError_eq_ok_iff, check, check_then_eq_ok_iff, rejectFirst_eq_ok_iff]
  constructor
  · rintro ⟨hstray, hspill, hlost, hplace, hfixed, hclash⟩
    have hentry : ∀ r h, a.place? r = some h → h ∈ allowed ∧ ∀ k, r = .fixed k → k = h :=
      fun r h hr => placeFault?_eq_none.mp (hplace (r, h) (InsertionMap.get?_eq_some_iff.mp hr))
    exact {
      assigned_known := fun r hr => strayFault?_eq_none.mp (hstray r hr)
      spilled_known := fun r hr => spillFault?_eq_none.mp (hspill r hr)
      placed_or_spilled := fun r hr => lostFault?_eq_none.mp (hlost r hr)
      place_allowed := fun r h hr => (hentry r h hr).1
      fixed_kept := fun h k hk => ((hentry _ k hk).2 h rfl).symm
      fixed_not_spilled := fun r hr => fixedFault?_eq_none.mp (hfixed r hr)
      apart := by
        intro r s h hs hr
        obtain ⟨e, he, rfl, hmem⟩ := Relation.mem_neighbors_iff_entry.mp hs
        exact clashFault?_eq_none.mp (hclash e he) h hr s hmem }
  · intro hvalid
    refine ⟨fun r hr => ?_, fun r hr => ?_, fun r hr => ?_, ?_, fun r hr => ?_, fun e he => ?_⟩
    · exact strayFault?_eq_none.mpr (hvalid.assigned_known r hr)
    · exact spillFault?_eq_none.mpr (hvalid.spilled_known r hr)
    · exact lostFault?_eq_none.mpr (hvalid.placed_or_spilled r hr)
    · rintro ⟨r, h⟩ he
      have hr : a.place? r = some h := InsertionMap.get?_eq_some_iff.mpr he
      refine placeFault?_eq_none.mpr ⟨hvalid.place_allowed r h hr, ?_⟩
      rintro k rfl
      exact (hvalid.fixed_kept k h hr).symm
    · exact fixedFault?_eq_none.mpr (hvalid.fixed_not_spilled r hr)
    · refine clashFault?_eq_none.mpr fun h hr s hs => ?_
      exact hvalid.apart e.1 s h (Relation.mem_neighbors_iff_entry.mpr ⟨e, he, rfl, hs⟩) hr

/-- A register of the function that is not spilled has a place. -/
theorem Valid.exists_place (hvalid : a.Valid i allowed) {r : Register} (hr : r ∈ i.registers)
    (hspill : ¬ r ∈ a.spills) : ∃ h, a.place? r = some h :=
  InsertionMap.mem_iff_exists_get?.mp ((hvalid.placed_or_spilled r hr).resolve_right hspill)

theorem not_mem_spills_of_isSpillFree (h : a.isSpillFree = true) (r : Register) :
    ¬ r ∈ a.spills := by
  have hnil : a.spills.toList = [] := List.isEmpty_iff.mp h
  rw [InsertionSet.mem_iff, hnil]
  exact List.not_mem_nil

/-- The place of a register; only registers that have one matter. -/
def place (a : Allocation) (r : Register) : HardwareRegister :=
  (a.place? r).getD default

theorem place_eq {r : Register} {h : HardwareRegister} (hr : a.place? r = some h) :
    a.place r = h := by
  simp [place, hr]

end Allocation

end Lowering
