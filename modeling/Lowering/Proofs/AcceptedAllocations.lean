import Lowering.Proofs.RetriedAllocation

/-!
# Exactly the correct allocations are accepted

An allocation is checked in several passes, each of which looks for one kind of fault
and stops at the first one that it finds. Together the passes leave no gap: a correct
allocation passes all of them, and any other one is refused for a fault that it has.

The places that registers get by coloring are checked in the same way. So they are
correct whatever the colors are, and whoever found them.
-/

namespace Lowering.Allocation

variable {a : Allocation} {i : Interaction} {allowed : List HardwareRegister}

/-- The registers of the function are divided into those that have a place and those
that are spilled. All places are allowed, the fixed registers are their own places, and
no two registers with the same place interfere, in whichever direction. -/
structure Correct (a : Allocation) (i : Interaction) (allowed : List HardwareRegister) :
    Prop where
  disjoint : ∀ r ∈ a.assigned, ¬ r ∈ a.spills
  covers : ∀ r, r ∈ a.assigned ∨ r ∈ a.spills ↔ r ∈ i.registers
  place_allowed : ∀ r h, a.place? r = some h → h ∈ allowed
  fixed_kept : ∀ h, .fixed h ∈ i.registers → a.place? (.fixed h) = some h
  apart : ∀ r s h, s ∈ i.interference.neighbors r ∨ r ∈ i.interference.neighbors s →
    ¬ (a.place? r = some h ∧ a.place? s = some h)

/-- What a fault says of an allocation. The last one is that of a function which has been
rewritten, so no allocation has it. -/
def HasFault (a : Allocation) (i : Interaction) (allowed : List HardwareRegister) :
    AllocationFault → Prop
  | .strayAssigned r => r ∈ a.assigned ∧ ¬ r ∈ i.registers
  | .straySpilled r => r ∈ a.spills ∧ ¬ r ∈ i.registers
  | .assignedAndSpilled r => r ∈ a.assigned ∧ r ∈ a.spills
  | .unplaced r => r ∈ i.registers ∧ ¬ (r ∈ a.assigned ∨ r ∈ a.spills)
  | .placeNotAllowed r h => a.place? r = some h ∧ ¬ h ∈ allowed
  | .fixedMoved r h => a.place? r = some h ∧ ∃ k, r = .fixed k ∧ k ≠ h
  | .fixedSpilled r => r ∈ i.registers ∧ r.isFixed = true ∧ r ∈ a.spills
  | .clash r s h => s ∈ i.interference.neighbors r ∧ a.place? r = some h ∧ a.place? s = some h
  | .unplacedAfterSpilling _ => False

/-! ## The rules, with and without passes -/

theorem Valid.correct (h : a.Valid i allowed) : a.Correct i allowed where
  disjoint r hr hspill := (h.spilled_known r hspill).2 hr
  covers r := by
    refine ⟨?_, h.placed_or_spilled r⟩
    rintro (hr | hr)
    · exact h.assigned_known r hr
    · exact (h.spilled_known r hr).1
  place_allowed := h.place_allowed
  fixed_kept k hk := by
    obtain ⟨place, hplace⟩ := h.exists_place hk (h.fixed_not_spilled _ hk rfl)
    rw [hplace, h.fixed_kept k place hplace]
  apart := by
    rintro r s k (hrelated | hrelated) ⟨hr, hs⟩
    · exact h.apart r s k hrelated hr hs
    · exact h.apart s r k hrelated hs hr

theorem Correct.mem_assigned_of_fixed (h : a.Correct i allowed) {k : HardwareRegister}
    (hk : .fixed k ∈ i.registers) : .fixed k ∈ a.assigned :=
  InsertionMap.mem_iff_exists_get?.mpr ⟨k, h.fixed_kept k hk⟩

theorem Correct.valid (h : a.Correct i allowed) : a.Valid i allowed where
  assigned_known r hr := (h.covers r).mp (.inl hr)
  spilled_known r hr := ⟨(h.covers r).mp (.inr hr), fun hassigned => h.disjoint r hassigned hr⟩
  placed_or_spilled r := (h.covers r).mpr
  place_allowed := h.place_allowed
  fixed_kept k place hplace := by
    have hk : .fixed k ∈ i.registers :=
      (h.covers _).mp (.inl (InsertionMap.mem_iff_exists_get?.mpr ⟨place, hplace⟩))
    exact Option.some.inj (hplace.symm.trans (h.fixed_kept k hk))
  fixed_not_spilled r hr hfixed := by
    obtain ⟨k, hk⟩ := Option.isSome_iff_exists.mp hfixed
    obtain rfl := Register.fixed?_eq_some_iff.mp hk
    exact h.disjoint _ (h.mem_assigned_of_fixed hr)
  apart r s k hrelated hr hs := h.apart r s k (.inl hrelated) ⟨hr, hs⟩

theorem correct_iff_valid : a.Correct i allowed ↔ a.Valid i allowed :=
  ⟨Correct.valid, Valid.correct⟩

/-! ## The fault that is reported -/

variable {r : Register} {fault : AllocationFault}

theorem hasFault_of_strayFault? (hr : r ∈ a.assigned) (h : strayFault? i r = some fault) :
    a.HasFault i allowed fault := by
  unfold strayFault? at h
  split_ifs at h with hknown
  obtain rfl := Option.some.inj h
  exact ⟨hr, hknown⟩

theorem hasFault_of_spillFault? (hr : r ∈ a.spills) (h : spillFault? i a r = some fault) :
    a.HasFault i allowed fault := by
  unfold spillFault? at h
  split_ifs at h with hknown hassigned
  · obtain rfl := Option.some.inj h
    exact ⟨hassigned, hr⟩
  · obtain rfl := Option.some.inj h
    exact ⟨hr, hknown⟩

theorem hasFault_of_lostFault? (hr : r ∈ i.registers) (h : lostFault? a r = some fault) :
    a.HasFault i allowed fault := by
  unfold lostFault? at h
  split_ifs at h with hfound
  obtain rfl := Option.some.inj h
  exact ⟨hr, hfound⟩

theorem hasFault_of_placeFault? {e : Register × HardwareRegister} (he : e ∈ a.assigned.entries)
    (h : placeFault? allowed e = some fault) : a.HasFault i allowed fault := by
  have hplace : a.place? e.1 = some e.2 := InsertionMap.get?_eq_some_iff.mpr he
  unfold placeFault? at h
  split_ifs at h with hallowed
  · split at h
    · next k hk =>
      split_ifs at h with hkept
      obtain rfl := Option.some.inj h
      exact ⟨hplace, k, Register.fixed?_eq_some_iff.mp hk, hkept⟩
    · exact absurd h (by simp)
  · obtain rfl := Option.some.inj h
    exact ⟨hplace, hallowed⟩

theorem hasFault_of_fixedFault? (hr : r ∈ i.registers) (h : fixedFault? a r = some fault) :
    a.HasFault i allowed fault := by
  unfold fixedFault? at h
  split_ifs at h with hspilled
  obtain rfl := Option.some.inj h
  exact ⟨hr, hspilled⟩

theorem hasFault_of_clashFault? {e : Register × InsertionSet Register}
    (he : e ∈ i.interference.entries) (h : clashFault? a e = some fault) :
    a.HasFault i allowed fault := by
  unfold clashFault? at h
  split at h
  · exact absurd h (by simp)
  · next k hk =>
    obtain ⟨s, hs, hfault⟩ := List.exists_of_findSome?_eq_some h
    split_ifs at hfault with hsame
    obtain rfl := Option.some.inj hfault
    exact ⟨Relation.mem_neighbors_iff_entry.mpr ⟨e, he, rfl, hs⟩, hk, hsame⟩

/-- Each pass reports only faults that the allocation has. -/
theorem check_failsOnlyWith : FailsOnlyWith (a.HasFault i allowed) (a.check i allowed) := by
  unfold check
  refine .bind (.rejectFirst fun r hr _ => hasFault_of_strayFault? hr) fun _ => ?_
  refine .bind (.rejectFirst fun r hr _ => hasFault_of_spillFault? hr) fun _ => ?_
  refine .bind (.rejectFirst fun r hr _ => hasFault_of_lostFault? hr) fun _ => ?_
  refine .bind (.rejectFirst fun e he _ => hasFault_of_placeFault? he) fun _ => ?_
  refine .bind (.rejectFirst fun r hr _ => hasFault_of_fixedFault? hr) fun _ => ?_
  exact .rejectFirst fun e he _ => hasFault_of_clashFault? he

/-- An allocation is accepted exactly if it is correct. Any other one is refused as an
invalid allocation, for a fault that it has. So whatever colors a solver answers, an
allocation made from them is correct. -/
theorem validate_accepts_exactly_correct (a : Allocation) (i : Interaction)
    (allowed : List HardwareRegister) :
    (a.validate i allowed = .ok () ↔ a.Correct i allowed) ∧
    (¬ a.Correct i allowed → ∃ fault, a.validate i allowed = .error (.invalidAllocation fault) ∧
      a.HasFault i allowed fault) ∧
    ∀ solver result, allocate solver i allowed = .ok result → result.Correct i allowed := by
  refine ⟨validate_eq_ok_iff.trans correct_iff_valid.symm, ?_, ?_⟩
  · intro hnot
    cases hcheck : a.check i allowed with
    | error fault =>
        refine ⟨fault, ?_, check_failsOnlyWith fault hcheck⟩
        rw [validate, hcheck]
        rfl
    | ok _ =>
        have haccepted : a.validate i allowed = .ok () := mapError_eq_ok_iff.mpr hcheck
        exact absurd (validate_eq_ok_iff.mp haccepted).correct hnot
  · intro solver result hresult
    exact (valid_of_allocate hresult).correct

/-- Two values of which one is listed as interfering with the other, and a fixed
register. -/
def valuesBesideFixed : Interaction where
  registers := .ofList [.virtual ⟨0, false⟩, .virtual ⟨1, false⟩, .fixed .rax]
  interference := .ofList [(.virtual ⟨0, false⟩, .ofList [.virtual ⟨1, false⟩])]
  copying := ∅

/-- Colors for the two values and the fixed register. -/
def valueColors (first second : HardwareRegister) : InsertionMap Register HardwareRegister :=
  .ofList [(.virtual ⟨0, false⟩, first), (.virtual ⟨1, false⟩, second), (.fixed .rax, .rax)]

/-- A solver that keeps the values apart is believed, also if one of them shares its
place with the fixed register. One that does not is not. -/
theorem valuesBesideFixed_guarded :
    (∃ result, allocate (fun _ => .ok (valueColors .rcx .rax)) valuesBesideFixed [.rax, .rcx] =
      .ok result ∧ result.Correct valuesBesideFixed [.rax, .rcx]) ∧
    (¬ (ofColors valuesBesideFixed.registers (valueColors .rcx .rcx)).Correct valuesBesideFixed
      [.rax, .rcx]) ∧
    allocate (fun _ => .ok (valueColors .rcx .rcx)) valuesBesideFixed [.rax, .rcx] =
      .error (.invalidAllocation (.clash (.virtual ⟨0, false⟩) (.virtual ⟨1, false⟩) .rcx)) := by
  obtain ⟨result, hresult⟩ : ∃ result, allocate (fun _ => .ok (valueColors .rcx .rax))
      valuesBesideFixed [.rax, .rcx] = .ok result := exists_eq_ok (by decide +kernel)
  have hbelieved := (validate_accepts_exactly_correct result valuesBesideFixed [.rax, .rcx]).2.2
    _ result hresult
  have hrefused : (ofColors valuesBesideFixed.registers (valueColors .rcx .rcx)).validate
      valuesBesideFixed [.rax, .rcx] ≠ .ok () := by decide +kernel
  refine ⟨⟨result, hresult, hbelieved⟩, fun hcorrect => hrefused ?_, by decide +kernel⟩
  exact (validate_accepts_exactly_correct _ valuesBesideFixed [.rax, .rcx]).1.mpr hcorrect

end Lowering.Allocation
