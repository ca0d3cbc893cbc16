import Lowering.Allocation.ByColoring
import Lowering.Proofs.PinnedColoring
import Lowering.Proofs.ValidAllocation

/-!
# Allocation by coloring succeeds

An interaction that passes the checks of its input poses a coloring problem whose
pins are distinct: the only vertex pinned to a hardware register is that register.
Unless a hardware register is allowed twice, the problem has no loop, so it has a
solution, and the allocation made from it follows all the rules.
-/

namespace Lowering

namespace Relation

variable {V : Type} [DecidableEq V] {g : Relation V} {l : List V} {v : V}

theorem neighbors_foldl_addVertex : (l.foldl addVertex g).neighbors v = g.neighbors v := by
  induction l generalizing g with
  | nil => rfl
  | cons u l ih => rw [List.foldl_cons, ih, neighbors_addVertex]

theorem mem_keys_foldl_addVertex : v ∈ (l.foldl addVertex g).keys ↔ v ∈ g.keys ∨ v ∈ l := by
  induction l generalizing g with
  | nil => simp
  | cons u l ih => simp [ih, or_assoc]

end Relation

theorem Register.fixed?_eq_some_iff {r : Register} {h : HardwareRegister} :
    r.fixed? = some h ↔ r = .fixed h := by
  cases r <;> simp [Register.fixed?]

namespace Interaction

variable {i : Interaction} {allowed : List HardwareRegister} {v u : Register}

/-! ## What the input check accepts -/

/-- The inputs for which there is an allocation problem. -/
structure Admissible (i : Interaction) (allowed : List HardwareRegister) : Prop where
  interference_known : ∀ r, i.interference.Mentions r → r ∈ i.registers
  copying_known : ∀ r, i.copying.Mentions r → r ∈ i.registers
  irreflexive : ¬ ∃ r, r ∈ i.interference.neighbors r
  fixed_allowed : ∀ h, .fixed h ∈ i.registers → h ∈ allowed

theorem unknownFault?_eq_none {kind : RelationKind} {e : Register × InsertionSet Register} :
    i.unknownFault? kind e = none ↔ ∀ r, r = e.1 ∨ r ∈ e.2 → r ∈ i.registers := by
  simp [unknownFault?, InsertionSet.mem_iff]

theorem forall_unknownFault?_eq_none {kind : RelationKind} {g : Relation Register} :
    (∀ e ∈ g.entries, i.unknownFault? kind e = none) ↔ ∀ r, g.Mentions r → r ∈ i.registers := by
  simp only [unknownFault?_eq_none, Relation.mentions_iff_entry]
  constructor
  · rintro h r ⟨e, he, hr⟩
    exact h e he r hr
  · intro h e he r hr
    exact h r ⟨e, he, hr⟩

theorem fixedFault?_eq_none {r : Register} :
    fixedFault? allowed r = none ↔ ∀ h, r = .fixed h → h ∈ allowed := by
  cases r <;> simp [fixedFault?, Register.fixed?]

theorem checkInput_eq_ok_iff : i.checkInput allowed = .ok () ↔ i.Admissible allowed := by
  have hloop : (∀ r ∈ i.interference.selfLoop?.toList,
      some (InputFault.selfInterference r) = none) ↔ ¬ ∃ r, r ∈ i.interference.neighbors r := by
    rw [← Relation.selfLoop?_eq_none_iff]
    cases i.interference.selfLoop? <;> simp
  simp only [checkInput, check_then_eq_ok_iff, rejectFirst_eq_ok_iff,
    forall_unknownFault?_eq_none, hloop, fixedFault?_eq_none]
  constructor
  · rintro ⟨hinterference, hcopying, hirrefl, hfixed⟩
    exact ⟨hinterference, hcopying, hirrefl, fun h hh => hfixed _ hh h rfl⟩
  · intro h
    refine ⟨h.interference_known, h.copying_known, h.irreflexive, ?_⟩
    rintro _ hr h' rfl
    exact h.fixed_allowed h' hr

/-- What is wrong with an input that has no allocation. -/
theorem not_admissible_iff : ¬ (i.Admissible allowed ∧ allowed.Nodup) ↔
    (∃ r, (i.interference.Mentions r ∨ i.copying.Mentions r) ∧ ¬ r ∈ i.registers) ∨
    (∃ r, r ∈ i.interference.neighbors r) ∨
    (∃ h, .fixed h ∈ i.registers ∧ ¬ h ∈ allowed) ∨ ¬ allowed.Nodup := by
  constructor
  · intro h
    by_contra hnone
    push Not at hnone
    obtain ⟨hknown, hirrefl, hfixed, hnodup⟩ := hnone
    apply h
    refine ⟨⟨fun r hr => hknown r (.inl hr), fun r hr => hknown r (.inr hr), ?_, hfixed⟩, hnodup⟩
    rintro ⟨r, hr⟩
    exact hirrefl r hr
  · rintro hfault ⟨hadmissible, hnodup⟩
    rcases hfault with ⟨r, hr | hr, hnot⟩ | hself | ⟨h, hh, hnot⟩ | htwice
    · exact hnot (hadmissible.interference_known r hr)
    · exact hnot (hadmissible.copying_known r hr)
    · exact hadmissible.irreflexive hself
    · exact hnot (hadmissible.fixed_allowed h hh)
    · exact htwice hnodup

/-! ## The coloring problem -/

theorem mem_neighbors_graph : u ∈ (i.graph allowed).neighbors v ↔
    (u ∈ i.interference.neighbors v ∨ v ∈ i.interference.neighbors u) ∨
      (v, u) ∈ orderedPairs (allowed.map .fixed) ∨
        (u, v) ∈ orderedPairs (allowed.map .fixed) := by
  have hempty : ¬ u ∈ (Relation.discrete i.registers).neighbors v := by
    rw [Relation.neighbors_discrete]
    exact InsertionSet.not_mem_empty u
  rw [graph, Relation.mem_neighbors_addEdges, Relation.neighbors_foldl_addVertex,
    Relation.mem_neighbors_addEdges, Relation.mem_pairs, Relation.mem_pairs,
    Relation.mem_neighbors_symmetricClosure, Relation.mem_neighbors_symmetricClosure,
    or_comm (a := v ∈ _), or_self]
  simp only [hempty, false_or]

theorem mem_keys_graph (h : i.Admissible allowed) :
    v ∈ (i.graph allowed).keys ↔ v ∈ i.registers ∨ v ∈ allowed.map .fixed := by
  rw [graph, Relation.mem_keys_addEdges, Relation.mem_keys_foldl_addVertex,
    Relation.mem_keys_addEdges, Relation.keys_discrete]
  constructor
  · rintro (((hv | ⟨⟨a, b⟩, hp, hv⟩) | hv) | ⟨⟨a, b⟩, hp, hv⟩)
    · exact .inl hv
    · rw [Relation.mem_pairs, Relation.mem_neighbors_symmetricClosure] at hp
      apply Or.inl
      apply h.interference_known
      rcases hp with hab | hba
      · rcases hv with rfl | rfl
        · exact .inl (Relation.mem_keys_of_mem_neighbors hab)
        · exact .inr ⟨a, hab⟩
      · rcases hv with rfl | rfl
        · exact .inr ⟨b, hba⟩
        · exact .inl (Relation.mem_keys_of_mem_neighbors hba)
    · exact .inr hv
    · have hsub := (mem_orderedPairs.mp hp).subset
      rcases hv with rfl | rfl
      · exact .inr (hsub List.mem_cons_self)
      · exact .inr (hsub (List.mem_cons_of_mem _ List.mem_cons_self))
  · rintro (hv | hv)
    · exact .inl (.inl (.inl hv))
    · exact .inl (.inr hv)

/-- Edges are listed in both directions, so all vertices are known. -/
theorem mem_vertices_coloringProblem (h : i.Admissible allowed) :
    v ∈ (i.coloringProblem allowed).vertices ↔ v ∈ i.registers ∨ v ∈ allowed.map .fixed := by
  rw [← mem_keys_graph h]
  refine Relation.mem_keys_symmetricClosure.trans ⟨?_, .inl⟩
  rintro (hv | ⟨u, hu⟩)
  · exact hv
  · have hback : u ∈ (i.graph allowed).neighbors v :=
      mem_neighbors_graph.mpr ((mem_neighbors_graph.mp hu).imp Or.symm Or.symm)
    exact Relation.mem_keys_of_mem_neighbors hback

/-- The graph has a loop if a register interferes with itself or is allowed twice. -/
theorem exists_loop_graph : (∃ v, v ∈ (i.graph allowed).neighbors v) ↔
    (∃ r, r ∈ i.interference.neighbors r) ∨ ¬ allowed.Nodup := by
  have hnodup : (∃ v, (v, v) ∈ orderedPairs (allowed.map Register.fixed)) ↔ ¬ allowed.Nodup := by
    rw [← List.nodup_map_iff (f := Register.fixed) fun _ _ => Register.fixed.inj,
      List.nodup_iff_sublist]
    simp only [mem_orderedPairs, not_forall, not_not]
  rw [← hnodup, ← exists_or]
  apply exists_congr
  intro v
  rw [mem_neighbors_graph, or_self, or_self]

theorem get?_fixed_coloringProblem (h : i.Admissible allowed) {k : HardwareRegister} :
    (i.coloringProblem allowed).fixed.get? v = some k ↔
      v ∈ (i.coloringProblem allowed).vertices ∧ v = .fixed k := by
  rw [mem_vertices_coloringProblem h, ← mem_keys_graph h, ← Register.fixed?_eq_some_iff]
  change (InsertionMap.ofPartial (i.graph allowed).keys Register.fixed?).get? v = some k ↔ _
  rw [InsertionMap.get?_ofPartial]
  split_ifs with hv
  · simp [hv]
  · simp [hv]

theorem pinsApart_coloringProblem (h : i.Admissible allowed) :
    (i.coloringProblem allowed).PinsApart := by
  constructor
  case injective =>
    intro a _ b _ k ha hb
    rw [get?_fixed_coloringProblem h] at ha hb
    exact ha.2.trans hb.2.symm
  case allowed =>
    intro v hv k hk
    obtain ⟨-, rfl⟩ := (get?_fixed_coloringProblem h).mp hk
    rcases (mem_vertices_coloringProblem h).mp hv with hmem | hmem
    · exact h.fixed_allowed k hmem
    · obtain ⟨k', hk', heq⟩ := List.mem_map.mp hmem
      exact Register.fixed.inj heq ▸ hk'

end Interaction

namespace Allocation

variable {i : Interaction} {allowed : List HardwareRegister}
  {registers : InsertionSet Register} {colors : InsertionMap Register HardwareRegister}
  {r : Register} {h : HardwareRegister}

theorem place?_ofColors : (ofColors registers colors).place? r = some h ↔
    r ∈ registers ∧ colors.get? r = some h := by
  rw [place?, ofColors, InsertionMap.get?_ofPartial]
  split_ifs with hr
  · simp [hr]
  · simp [hr]

theorem mem_assigned_ofColors :
    r ∈ (ofColors registers colors).assigned ↔ r ∈ registers ∧ ∃ h, colors.get? r = some h := by
  rw [InsertionMap.mem_iff_exists_get?, ← exists_and_left]
  exact exists_congr fun h => place?_ofColors

theorem mem_spills_ofColors :
    r ∈ (ofColors registers colors).spills ↔ r ∈ registers ∧ colors.get? r = none := by
  simp [ofColors]

/-- A solution of the coloring problem makes an allocation that follows the rules. -/
theorem valid_ofColors (hadmissible : i.Admissible allowed)
    (hsolves : (i.coloringProblem allowed).Solves colors) :
    (ofColors i.registers colors).Valid i allowed := by
  have hpin : ∀ h, .fixed h ∈ i.registers → colors.get? (.fixed h) = some h := by
    intro h hh
    have hv : .fixed h ∈ (i.coloringProblem allowed).vertices :=
      (Interaction.mem_vertices_coloringProblem hadmissible).mpr (.inl hh)
    apply hsolves.pins _ hv
    exact (Interaction.get?_fixed_coloringProblem hadmissible).mpr ⟨hv, rfl⟩
  constructor
  case assigned_known => exact fun r hr => (mem_assigned_ofColors.mp hr).1
  case spilled_known =>
    intro r hr
    obtain ⟨hmem, hnone⟩ := mem_spills_ofColors.mp hr
    refine ⟨hmem, fun hassigned => ?_⟩
    obtain ⟨-, h, hh⟩ := mem_assigned_ofColors.mp hassigned
    rw [hnone] at hh
    exact absurd hh (by simp)
  case placed_or_spilled =>
    intro r hr
    rw [mem_assigned_ofColors, mem_spills_ofColors]
    rcases Option.eq_none_or_eq_some (colors.get? r) with hnone | hsome
    · exact .inr ⟨hr, hnone⟩
    · exact .inl ⟨hr, hsome⟩
  case place_allowed => exact fun r h hr => hsolves.allowed r h (place?_ofColors.mp hr).2
  case fixed_kept =>
    intro h k hk
    obtain ⟨hmem, hk⟩ := place?_ofColors.mp hk
    exact Option.some.inj (hk.symm.trans (hpin h hmem))
  case fixed_not_spilled =>
    intro r hr hfixed hspill
    obtain ⟨h, hh⟩ := Option.isSome_iff_exists.mp hfixed
    obtain rfl := Register.fixed?_eq_some_iff.mp hh
    have hnone := (mem_spills_ofColors.mp hspill).2
    rw [hpin h hr] at hnone
    exact absurd hnone (by simp)
  case apart =>
    intro r s h hs hr hsh
    apply hsolves.proper r s h (Interaction.mem_neighbors_graph.mpr (.inl (.inl hs)))
    · exact (place?_ofColors.mp hr).2
    · exact (place?_ofColors.mp hsh).2

theorem allocate_of_admissible (hadmissible : i.Admissible allowed) (hnodup : allowed.Nodup) :
    ∃ a, allocate Coloring.firstFit i allowed = .ok a ∧ a.Valid i allowed := by
  have hloop : (i.coloringProblem allowed).graph.selfLoop? = none := by
    rw [Relation.selfLoop?_eq_none_iff]
    intro hloop
    rcases Interaction.exists_loop_graph.mp hloop with hself | htwice
    · exact hadmissible.irreflexive hself
    · exact htwice hnodup
  obtain ⟨colors, hcolors, hsolves⟩ :=
    Coloring.firstFit_solves (Interaction.pinsApart_coloringProblem hadmissible) hloop
  have hvalid := valid_ofColors hadmissible hsolves
  refine ⟨_, ?_, hvalid⟩
  apply bind_eq_ok_iff.mpr
  refine ⟨(), mapError_eq_ok_iff.mpr (Interaction.checkInput_eq_ok_iff.mpr hadmissible), ?_⟩
  apply bind_eq_ok_iff.mpr
  refine ⟨colors, mapError_eq_ok_iff.mpr hcolors, ?_⟩
  apply bind_eq_ok_iff.mpr
  exact ⟨(), validate_eq_ok_iff.mpr hvalid, rfl⟩

/-- Any other input is refused. -/
theorem allocate_of_not_admissible (h : ¬ (i.Admissible allowed ∧ allowed.Nodup)) :
    ∃ fault, allocate Coloring.firstFit i allowed = .error (.invalidInput fault) := by
  unfold allocate
  cases hcheck : i.checkInput allowed with
  | error fault => exact ⟨fault, rfl⟩
  | ok u =>
      have hadmissible := Interaction.checkInput_eq_ok_iff.mp hcheck
      have htwice : ¬ allowed.Nodup := fun hnodup => h ⟨hadmissible, hnodup⟩
      have hloop : (i.coloringProblem allowed).graph.selfLoop? ≠ none := fun hnone =>
        Relation.selfLoop?_eq_none_iff.mp hnone (Interaction.exists_loop_graph.mpr (.inr htwice))
      obtain ⟨v, hv⟩ := Option.ne_none_iff_exists'.mp hloop
      have hsolver : Coloring.firstFit (i.coloringProblem allowed) = .error ⟨v⟩ :=
        Coloring.firstFit_eq_error_iff.mpr hv
      rw [hsolver]
      exact ⟨_, rfl⟩

/-- Allocation by coloring refuses exactly the inputs that mention a register of
another function, in which a register interferes with itself, in which a fixed
register is not allowed, or for which a hardware register is allowed twice. For all
others it gives each register an allowed place or spills it, keeps interfering
registers apart and fixed registers in place. It never breaks the rules by which
its result is checked. -/
theorem allocate_firstFit_follows_rules (i : Interaction) (allowed : List HardwareRegister) :
    ((∃ fault, allocate Coloring.firstFit i allowed = .error (.invalidInput fault)) ↔
      (∃ r, (i.interference.Mentions r ∨ i.copying.Mentions r) ∧ ¬ r ∈ i.registers) ∨
      (∃ r, r ∈ i.interference.neighbors r) ∨
      (∃ h, .fixed h ∈ i.registers ∧ ¬ h ∈ allowed) ∨ ¬ allowed.Nodup) ∧
    ((¬ ∃ fault, allocate Coloring.firstFit i allowed = .error (.invalidInput fault)) →
      ∃ a, allocate Coloring.firstFit i allowed = .ok a ∧
        (∀ r, r ∈ i.registers ↔ r ∈ a.assigned ∨ r ∈ a.spills) ∧
        (∀ r, ¬ (r ∈ a.assigned ∧ r ∈ a.spills)) ∧
        (∀ r h, a.place? r = some h → h ∈ allowed) ∧
        (∀ r s h, s ∈ i.interference.neighbors r → a.place? r = some h → a.place? s ≠ some h) ∧
        ∀ h, .fixed h ∈ i.registers → a.place? (.fixed h) = some h) ∧
    ∀ fault, allocate Coloring.firstFit i allowed ≠ .error (.invalidAllocation fault) := by
  rw [← Interaction.not_admissible_iff]
  by_cases hgood : i.Admissible allowed ∧ allowed.Nodup
  · obtain ⟨a, ha, hvalid⟩ := allocate_of_admissible hgood.1 hgood.2
    have hok : ¬ ∃ fault, allocate Coloring.firstFit i allowed = .error (.invalidInput fault) := by
      simp [ha]
    refine ⟨iff_of_false hok (not_not.mpr hgood), fun _ => ⟨a, ha, ?_⟩, by simp [ha]⟩
    refine ⟨fun r => ⟨hvalid.placed_or_spilled r, ?_⟩, fun r hr => ?_, hvalid.place_allowed,
      hvalid.apart, fun h hh => ?_⟩
    · rintro (hr | hr)
      · exact hvalid.assigned_known r hr
      · exact (hvalid.spilled_known r hr).1
    · exact (hvalid.spilled_known r hr.2).2 hr.1
    · obtain ⟨k, hk⟩ := hvalid.exists_place hh (hvalid.fixed_not_spilled _ hh rfl)
      rw [hk, hvalid.fixed_kept h k hk]
  · have hrefused := allocate_of_not_admissible hgood
    refine ⟨iff_of_true hrefused hgood, fun hok => absurd hrefused hok, ?_⟩
    obtain ⟨fault, hfault⟩ := hrefused
    simp [hfault]

end Allocation

end Lowering
