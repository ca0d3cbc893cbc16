import Lowering.Proofs.CopyClasses
import Lowering.Proofs.PinnedColoring

/-!
# Pins that several vertices share

Several vertices may be pinned to one color, and a pin need not be a color of the
list. A pinned group hands its color to all its members, whatever neighbors of
theirs are pinned to and whatever the list is. A coloring is therefore accepted
exactly if the pins that vertices take in this way fit: no two neighbors take the
same pin, and no vertex takes one from outside the list unless it is its own.

Pins that do not fit are not ruled out before groups are merged. They fit if already
the pins that vertices might take from those they are connected to by copies do.
-/

namespace Lowering

namespace ColoringProblem

variable {V C : Type} [DecidableEq V]

/-- A coloring is accepted if it keeps every pin, gives other vertices only colors of
the list, and gives no two neighbors the same color. -/
structure Accepts (p : ColoringProblem V C) (colors : InsertionMap V C) : Prop where
  pins : ∀ v c, p.graph.Mentions v → p.fixed.get? v = some c → colors.get? v = some c
  allowed : ∀ v c, colors.get? v = some c → p.fixed.get? v = none → c ∈ p.allowed
  proper : ∀ a b c, b ∈ p.graph.neighbors a → colors.get? a = some c → colors.get? b ≠ some c

/-- The pins that vertices take fit. -/
structure PinsFit (p : ColoringProblem V C) (takes : V → C → Prop) : Prop where
  allowed : ∀ v c, takes v c → p.fixed.get? v = none → c ∈ p.allowed
  apart : ∀ a b c, b ∈ p.graph.neighbors a → takes a c → ¬ takes b c

theorem PinsFit.mono {p : ColoringProblem V C} {takes more : V → C → Prop} (h : p.PinsFit more)
    (hsub : ∀ v c, takes v c → more v c) : p.PinsFit takes where
  allowed v c hv := h.allowed v c (hsub v c hv)
  apart a b c hab ha hb := h.apart a b c hab (hsub a c ha) (hsub b c hb)

/-- A vertex is connected by copies to one that is pinned to a color. -/
def MayTakePin (p : ColoringProblem V C) (v : V) (c : C) : Prop :=
  ∃ u, p.CopyRelated v u ∧ p.fixed.get? u = some c

end ColoringProblem

namespace Coloring

variable {V C : Type} [DecidableEq V] [DecidableEq C] {p : ColoringProblem V C} {v : V} {c : C}

theorem TakesPin.mayTakePin (hloop : p.graph.selfLoop? = none) (h : TakesPin p v c) :
    p.MayTakePin v c := by
  obtain ⟨g, hg, hv, hc⟩ := h
  obtain ⟨m, hm, hpin⟩ := (sound_removedGroups hloop hg).2 c hc
  exact ⟨m, copyRelated_of_removedGroup hg hv hm, hpin⟩

/-- The coloring of a graph without loops keeps every pin. It is accepted exactly if
the pins that vertices take from their groups fit, and so in particular if the pins
that they may take from vertices to which they are connected by copies do. -/
theorem firstFit_accepted_iff_pins_fit (p : ColoringProblem V C)
    (hloop : ¬ ∃ v, v ∈ p.graph.neighbors v) :
    ∃ colors, firstFit p = .ok colors ∧
      (∀ v c, p.graph.Mentions v → p.fixed.get? v = some c → colors.get? v = some c) ∧
      (p.Accepts colors ↔ p.PinsFit (TakesPin p)) ∧
      (p.PinsFit p.MayTakePin → p.Accepts colors) := by
  have hnoloop := Relation.selfLoop?_eq_none_iff.mpr hloop
  obtain ⟨colors, hok⟩ := exists_firstFit_eq_ok hnoloop
  have hget := (firstFit_eq_ok hok).2
  have hpins : ∀ v c, p.graph.Mentions v → p.fixed.get? v = some c → colors.get? v = some c := by
    intro v c hv hc
    have hvertex : v ∈ p.vertices := Relation.mem_keys_symmetricClosure.mpr hv
    exact (hget v c).mpr ⟨hvertex, (takesPin_of_pinned hnoloop hvertex hc).get?_assign⟩
  have htaken : ∀ v c, TakesPin p v c → colors.get? v = some c := fun v c h =>
    (hget v c).mpr ⟨h.mem_vertices, h.get?_assign⟩
  have haccepts : p.PinsFit (TakesPin p) → p.Accepts colors := by
    intro hfit
    refine ⟨hpins, fun v c hc hfree => ?_, fun a b c hab ha hb => ?_⟩
    · rcases takesPin_or_mem_allowed ((hget v c).mp hc).2 with htakes | hallowed
      · exact hfit.allowed v c htakes hfree
      · exact hallowed
    · exact proper_assign hnoloop hfit.apart a b c
        (mem_neighbors_conflicts.mpr (.inl (.inl hab))) ((hget a c).mp ha).2 ((hget b c).mp hb).2
  refine ⟨colors, hok, hpins, ⟨fun h => ⟨?_, ?_⟩, haccepts⟩, fun hfit => ?_⟩
  · exact fun v c hv => h.allowed v c (htaken v c hv)
  · exact fun a b c hab ha hb => h.proper a b c hab (htaken a c ha) (htaken b c hb)
  · exact haccepts (hfit.mono fun v c => TakesPin.mayTakePin hnoloop)

/-- An edge, and a third vertex that one of its ends is a copy of. That vertex and the
other end are pinned to one color. -/
def sharedPin : ColoringProblem Nat Nat :=
  { graph := (Relation.addVertex ∅ 0).addEdge 1 2
    coalesce := Relation.addArc ∅ 0 1
    fixed := (InsertionMap.insert ∅ 0 5).insert 2 5
    allowed := [5, 6] }

/-- Both ends of the edge get the pin, although no two neighbors are pinned to one
color and another color is in the list. -/
theorem sharedPin_not_accepted :
    (¬ ∃ v, v ∈ sharedPin.graph.neighbors v) ∧
      (∀ a b c, b ∈ sharedPin.graph.neighbors a → sharedPin.fixed.get? a = some c →
        sharedPin.fixed.get? b ≠ some c) ∧
      ∃ colors, firstFit sharedPin = .ok colors ∧ ¬ sharedPin.Accepts colors := by
  have hloop : ¬ ∃ v, v ∈ sharedPin.graph.neighbors v :=
    Relation.selfLoop?_eq_none_iff.mp (by decide +kernel)
  have hedge : ∀ a b, b ∈ sharedPin.graph.neighbors a → a = 1 ∧ b = 2 ∨ a = 2 ∧ b = 1 := by
    intro a b hab
    have hpairs : sharedPin.graph.pairs = [(1, 2), (2, 1)] := by decide +kernel
    rw [← Relation.mem_pairs, hpairs] at hab
    simpa using hab
  have hfree : sharedPin.fixed.get? 1 = none := by decide +kernel
  obtain ⟨colors, hok, -, hiff, -⟩ := firstFit_accepted_iff_pins_fit sharedPin hloop
  refine ⟨hloop, fun a b c hab ha hb => ?_, colors, hok, fun haccepts => ?_⟩
  · rcases hedge a b hab with ⟨rfl, -⟩ | ⟨-, rfl⟩
    · exact absurd (hfree.symm.trans ha) (by simp)
    · exact absurd (hfree.symm.trans hb) (by simp)
  · have hmem : 2 ∈ sharedPin.graph.neighbors 1 := by decide +kernel
    have htakes : TakesPin sharedPin 1 5 ∧ TakesPin sharedPin 2 5 := by
      unfold TakesPin
      decide +kernel
    exact (hiff.mp haccepts).apart 1 2 5 hmem htakes.1 htakes.2

end Coloring

end Lowering
