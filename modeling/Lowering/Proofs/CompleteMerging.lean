import Lowering.Proofs.CopyClasses
import Lowering.Proofs.EnoughColors

/-!
# Copies that are all merged

With as many colors as vertices, every merge is safe. So no group is removed as long as
two groups of one class could be merged. If no two vertices of a class are in conflict,
then nothing else keeps its groups apart, and when the first group is removed, the class
is one group. All its vertices get the color of that group.
-/

namespace Lowering

variable {V C : Type} [DecidableEq V]

/-- The vertices that are connected to a vertex by copies can share a color: none of them
are neighbors, and at most one color is that of a pin. -/
structure ColoringProblem.CanShare (p : ColoringProblem V C) (v : V) : Prop where
  apart : ∀ a b, p.CopyRelated v a → p.CopyRelated v b → ¬ b ∈ p.graph.neighbors a
  pins : ∀ a b c d, p.CopyRelated v a → p.CopyRelated v b → p.fixed.get? a = some c →
    p.fixed.get? b = some d → c = d

/-- Copies do not lead out of the graph. -/
theorem ColoringProblem.CopyRelated.mem_vertices_iff {p : ColoringProblem V C} {a b : V}
    (hab : p.CopyRelated a b) : a ∈ p.vertices ↔ b ∈ p.vertices := by
  induction hab with
  | rel a b hcopy => exact iff_of_true hcopy.1 hcopy.2.1
  | refl a => rfl
  | symm a b _ ih => exact ih.symm
  | trans a b c _ _ ih ih' => exact ih.trans ih'

namespace Coloring

namespace State

variable {conflicts : Relation V} {fixed : InsertionMap V C} {s : State V C} {colors : Nat}
  {v u : V} {g h : Group V C}

/-! ## Merges with enough colors -/

/-- If there are as many colors as groups, then no merge can cost a color. -/
theorem isSafeMerge_of_size_le (hjoined : s.Joined conflicts) (hsound : s.Sound conflicts fixed)
    (henough : s.groups.size ≤ colors) (v u : V) : s.isSafeMerge colors v u = true := by
  refine List.all_eq_true.mpr fun t ht => ?_
  obtain ⟨-, k, -, hk, -⟩ := hjoined v t ht
  simp [(degree_lt_size hjoined hsound hk).trans_le henough]

/-- If there is nothing to merge, then groups of one class are neighbors, unless merging
them could cost a color. -/
theorem mem_neighbors_of_merge?_eq_none (hnone : s.merge? colors = none)
    (hv : s.groups.get? v = some g) (hu : s.groups.get? u = some h) (hne : u ≠ v)
    (hclass : h.copyClass = g.copyClass) (hsafe : s.isSafeMerge colors v u = true) :
    u ∈ s.neighbors v := by
  have hmergeable : s.mergeable? colors v = none :=
    Option.map_eq_none_iff.mp (List.findSome?_eq_none_iff.mp hnone v
      (InsertionMap.mem_iff_exists_get?.mpr ⟨g, hv⟩))
  have hrejected := List.find?_eq_none.mp hmergeable u
    (mem_copies.mpr ⟨hne, g, h, hv, hu, hclass⟩)
  simpa [hsafe] using hrejected

/-! ## Classes of groups -/

/-- The members of a group have its class. -/
def Classed (classes : InsertionMap V V) (s : State V C) : Prop :=
  ∀ v g, s.groups.get? v = some g → ∀ a ∈ g.members, classes.get? a = some g.copyClass

theorem Classed.step {classes : InsertionMap V V} (hs : s.Classed classes) (colors : Nat) :
    (s.step colors).Classed classes := by
  have hremove : ∀ {v g} (flag : Bool), s.groups.get? v = some g →
      (s.remove v flag).Classed classes := by
    intro v g flag hg t k hk a ha
    obtain ⟨-, k', hk', rfl⟩ := get?_remove hg hk
    exact hs t k' hk' a ha
  rcases s.step_choices colors with
    ⟨v, u, hmerge, hstep⟩ | ⟨v, hv, hstep⟩ | ⟨v, hv, hstep⟩ | ⟨-, hstep⟩
  · obtain ⟨g, h, hg, hh, -, -, hclass, -⟩ := merge?_eq_some hmerge
    rw [hstep]
    intro t k hk a ha
    obtain ⟨t', k', hk', ha', hsame⟩ := exists_group_of_merge hg hh hclass hk ha
    exact hsame ▸ hs t' k' hk' a ha'
  · obtain ⟨g, hg⟩ := hv.exists_group
    exact hstep ▸ hremove false hg
  · obtain ⟨g, hg⟩ := hv.exists_group
    exact hstep ▸ hremove true hg
  · rwa [hstep]

end State

variable [DecidableEq C] {p : ColoringProblem V C} {n : Nat} {v a b : V} {g h : Group V C}

theorem classed_stateAfter (p : ColoringProblem V C) (n : Nat) :
    (stateAfter p n).Classed p.classes := by
  refine State.steps_keep (P := State.Classed p.classes) (fun _ hs => hs.step _) ?_ n
  intro t k hk a ha
  obtain ⟨ht, rfl⟩ := eq_of_get?_start hk
  obtain rfl := List.mem_singleton.mp ha
  obtain ⟨x, hx⟩ := p.classesSound_classes.exists_class_iff.mp ht
  simp [hx]

/-- Members of groups are connected by copies exactly if the groups have one class. -/
theorem copyRelated_iff_copyClass_eq {t t' : V} (hg : (stateAfter p n).groups.get? t = some g)
    (hh : (stateAfter p n).groups.get? t' = some h) (ha : a ∈ g.members) (hb : b ∈ h.members) :
    p.CopyRelated a b ↔ g.copyClass = h.copyClass := by
  have hclass := classed_stateAfter p n t g hg a ha
  have hclass' := classed_stateAfter p n t' h hh b hb
  constructor
  · intro hab
    exact Option.some.inj (hclass.symm.trans (hab.class_eq.trans hclass'))
  · intro hsame
    exact p.classesSound_classes.related a b g.copyClass hclass (hsame ▸ hclass')

/-! ## Classes become groups -/

/-- Where a class can share a color, its members are not in conflict. -/
theorem not_mem_conflicts_of_canShare (hshare : p.CanShare v) (ha : p.CopyRelated v a)
    (hb : p.CopyRelated v b) : ¬ b ∈ p.conflicts.neighbors a := by
  intro hab
  rcases mem_neighbors_conflicts.mp hab with (hedge | hedge) | hpins
  · exact hshare.apart a b ha hb hedge
  · exact hshare.apart b a hb ha hedge
  · obtain ⟨c, d, hc, hd, hne⟩ := exists_pins_of_pinnedApart hpins
    exact hne (hshare.pins a b c d ha hb hc hd)

/-- If nothing is left to merge, then a class that can share a color is one group. -/
theorem eq_of_merge?_eq_none (hloop : p.graph.selfLoop? = none)
    (henough : p.vertices.size ≤ p.allowed.length) (hshare : p.CanShare v)
    (hnone : (stateAfter p n).merge? p.allowed.length = none)
    {t t' : V} (hg : (stateAfter p n).groups.get? t = some g)
    (hh : (stateAfter p n).groups.get? t' = some h) (hag : a ∈ g.members) (hbh : b ∈ h.members)
    (ha : p.CopyRelated v a) (hb : p.CopyRelated v b) : t' = t := by
  by_contra hne
  have hclass := (copyRelated_iff_copyClass_eq hh hg hbh hag).mp (.trans _ _ _ (.symm _ _ hb) ha)
  have hsize : (stateAfter p n).groups.size ≤ p.allowed.length := by
    rw [size_stateAfter]
    omega
  have hsafe := State.isSafeMerge_of_size_le (joined_stateAfter p n) (sound_stateAfter hloop n)
    hsize t t'
  have hneighbor := State.mem_neighbors_of_merge?_eq_none hnone hg hh hne hclass hsafe
  obtain ⟨g', h', hg', hh', c, hc, d, hd, hconflict⟩ := joined_stateAfter p n t t' hneighbor
  obtain rfl := Option.some.inj (hg.symm.trans hg')
  obtain rfl := Option.some.inj (hh.symm.trans hh')
  exact not_mem_conflicts_of_canShare hshare
    (.trans _ _ _ ha ((copyRelated_iff_copyClass_eq hg hg hag hc).mpr rfl))
    (.trans _ _ _ hb ((copyRelated_iff_copyClass_eq hh hh hbh hd).mpr rfl)) hconflict

theorem exists_group_of_removed_eq_nil (ha : a ∈ p.vertices)
    (hremoved : (stateAfter p n).removed = []) :
    ∃ t g, (stateAfter p n).groups.get? t = some g ∧ a ∈ g.members := by
  have hmem := (perm_members_stateAfter p n).symm.subset ha
  rw [State.members, hremoved, List.flatMap_nil, List.append_nil] at hmem
  obtain ⟨⟨t, g⟩, hentry, hag⟩ := List.mem_flatMap.mp hmem
  exact ⟨t, g, InsertionMap.get?_eq_some_iff.mpr hentry, hag⟩

/-- Until two vertices of a class are together, no group is removed. -/
theorem together_or_nothing_removed (hloop : p.graph.selfLoop? = none)
    (henough : p.vertices.size ≤ p.allowed.length) (hshare : p.CanShare v)
    (ha : p.CopyRelated v a) (hb : p.CopyRelated v b) (hvertex : v ∈ p.vertices) (n : Nat) :
    (stateAfter p n).Together [a, b] ∨ (stateAfter p n).removed = [] := by
  induction n with
  | zero => exact .inr rfl
  | succ n ih =>
      rw [stateAfter_succ]
      rcases ih with htogether | hremoved
      · exact .inl (htogether.step _)
      cases hmerge : (stateAfter p n).merge? p.allowed.length with
      | some pair =>
          obtain ⟨g, h, -, hh, -⟩ := State.merge?_eq_some hmerge
          refine .inr ?_
          rw [State.step, hmerge]
          exact (State.removed_merge hh).trans hremoved
      | none =>
          obtain ⟨t, g, hg, hag⟩ :=
            exists_group_of_removed_eq_nil (ha.mem_vertices_iff.mp hvertex) hremoved
          obtain ⟨t', h, hh, hbh⟩ :=
            exists_group_of_removed_eq_nil (hb.mem_vertices_iff.mp hvertex) hremoved
          obtain rfl := eq_of_merge?_eq_none hloop henough hshare hmerge hg hh hag hbh ha hb
          obtain rfl := Option.some.inj (hg.symm.trans hh)
          have htogether : (stateAfter p n).Together [a, b] := .inl ⟨t', g, hg, by simp [hag, hbh]⟩
          exact .inl (htogether.step _)

/-- In the end a class that can share a color is in one group. -/
theorem exists_removedGroup_of_canShare (hloop : p.graph.selfLoop? = none)
    (henough : p.vertices.size ≤ p.allowed.length) (hshare : p.CanShare v)
    (ha : p.CopyRelated v a) (hb : p.CopyRelated v b) (hvertex : v ∈ p.vertices) :
    ∃ g ∈ removedGroups p, a ∈ g.members ∧ b ∈ g.members := by
  rcases together_or_nothing_removed hloop henough hshare ha hb hvertex p.vertices.size with
    (⟨t, k, hk, -⟩ | ⟨g, hg, hall⟩) | hremoved
  · exact absurd (lt_size_of_group hk) (Nat.lt_irrefl _)
  · exact ⟨g, hg, hall a (by simp), hall b (by simp)⟩
  · obtain ⟨g, hg, -⟩ := exists_removedGroup hvertex
    rw [removedGroups, hremoved] at hg
    exact absurd hg List.not_mem_nil

/-- With as many colors as vertices, a class that can share a color does so. -/
theorem exists_shared_color (hloop : p.graph.selfLoop? = none) (hnodup : p.allowed.Nodup)
    (henough : p.vertices.size ≤ p.allowed.length) (hvertex : v ∈ p.vertices)
    (hshare : p.CanShare v) :
    ∃ colors, firstFit p = .ok colors ∧ ∃ c, ∀ a, p.CopyRelated v a → colors.get? a = some c := by
  obtain ⟨colors, hok, hall⟩ := firstFit_colors_all hloop hnodup henough
  obtain ⟨c, hc⟩ := InsertionMap.mem_iff_exists_get?.mp (hall v hvertex)
  have hcolors := (firstFit_eq_ok hok).2
  refine ⟨colors, hok, c, fun a ha => ?_⟩
  obtain ⟨g, hg, hvg, hag⟩ :=
    exists_removedGroup_of_canShare hloop henough hshare (.refl v) ha hvertex
  refine (hcolors a c).mpr ⟨ha.mem_vertices_iff.mp hvertex, ?_⟩
  rw [← get?_assign_eq hg hvg hag]
  exact ((hcolors v c).mp hc).2

end Coloring

end Lowering
