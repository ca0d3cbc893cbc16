import Lowering.Proofs.CopyClasses
import Lowering.Proofs.SureColors
import Mathlib.Data.List.Dedup

/-!
# Why vertices are left without a color

A color that a vertex has been given is final. So if no color is left for a group when
its turn comes, then every color of the list is that of a neighbor of the group in the
end. The members of the group are connected by copies, and none of them is pinned.

Two counts follow. Without copies, a vertex with fewer neighbors than there are colors is
colored. And in a clique as many vertices are colored as there are colors.
-/

namespace Lowering

namespace ColoringProblem

variable {V C : Type} [DecidableEq V]

/-- One of two vertices is listed under the other. -/
def Adjacent (p : ColoringProblem V C) (a b : V) : Prop :=
  b ∈ p.graph.neighbors a ∨ a ∈ p.graph.neighbors b

instance (p : ColoringProblem V C) (a b : V) : Decidable (p.Adjacent a b) :=
  inferInstanceAs (Decidable (_ ∨ _))

theorem Adjacent.mentions {p : ColoringProblem V C} {a b : V} (h : p.Adjacent a b) :
    p.graph.Mentions b := by
  rcases h with h | h
  · exact .inr ⟨a, h⟩
  · exact .inl (Relation.mem_keys_of_mem_neighbors h)

/-- Vertices without a color that can have none together: every color of the list is that
of a neighbor. -/
structure Blocked (p : ColoringProblem V C) (colors : InsertionMap V C) (vertices : List V) :
    Prop where
  known : ∀ v ∈ vertices, p.graph.Mentions v
  uncolored : ∀ v ∈ vertices, ¬ v ∈ colors
  taken : ∀ c ∈ p.allowed, ∃ a ∈ vertices, ∃ b, p.Adjacent a b ∧ colors.get? b = some c

/-- No vertex should share the color of another one. -/
def Copyless (p : ColoringProblem V C) : Prop :=
  ∀ a b, p.graph.Mentions a → p.graph.Mentions b → b ∈ p.coalesce.neighbors a → a = b

def Unpinned (p : ColoringProblem V C) : Prop :=
  ∀ v, p.graph.Mentions v → p.fixed.get? v = none

/-- Any two vertices are neighbors. -/
def IsClique (p : ColoringProblem V C) : Prop :=
  ∀ a b, p.graph.Mentions a → p.graph.Mentions b → a ≠ b → p.Adjacent a b

theorem Copyless.eq_of_copyRelated {p : ColoringProblem V C} (h : p.Copyless) {a b : V}
    (hab : p.CopyRelated a b) : a = b := by
  induction hab with
  | rel a b hcopy =>
      obtain ⟨ha, hb, hcopy⟩ := hcopy
      exact h a b (Relation.mem_keys_symmetricClosure.mp ha)
        (Relation.mem_keys_symmetricClosure.mp hb) hcopy
  | refl a => rfl
  | symm a b _ ih => exact ih.symm
  | trans a b c _ _ ih ih' => exact ih.trans ih'

end ColoringProblem

namespace Coloring

variable {V C : Type} [DecidableEq V] [DecidableEq C] {p : ColoringProblem V C} {v : V} {c : C}

/-! ## Colors are final -/

/-- Whatever color a vertex has after some turns, it has in the end. -/
theorem get?_assign_of_colorsAfter {first second : List (RemovedGroup V C)}
    (hsplit : removedGroups p = first ++ second) (hc : (colorsAfter p first).get? v = some c) :
    (assign p).get? v = some c := by
  have hassign : assign p =
      second.foldl (colorGroup p.conflicts p.allowed) (colorsAfter p first) := by
    rw [colorsAfter, ← List.foldl_append, ← hsplit]
    rfl
  rw [hassign]
  rcases get?_foldl_colorGroup second (colorsAfter p first) v with
    hkept | ⟨⟨h, hh, hvh, hnone⟩, -⟩
  · exact hkept.trans hc
  · have hmem : h ∈ removedGroups p := by simp [hsplit, hh]
    rcases get?_foldl_colorGroup first (pinned (removedGroups p)) v with
      hkept | ⟨⟨g, hg, hvg, -⟩, -⟩
    · obtain ⟨g, hg, hvg, hpin⟩ := exists_group_of_pinned (hkept.symm.trans hc)
      rw [removedGroup_unique hg hmem hvg hvh, hnone] at hpin
      exact absurd hpin (by simp)
    · exact absurd hvh (not_mem_members_of_split hsplit hg hh hvg)

/-! ## Groups without a color -/

variable {g : RemovedGroup V C}

/-- A member of a group without a pin is in conflict with its neighbors only. -/
theorem adjacent_of_mem_conflicts (hloop : p.graph.selfLoop? = none) (hg : g ∈ removedGroups p)
    (hnone : g.color = none) {a b : V} (ha : a ∈ g.members) (hab : b ∈ p.conflicts.neighbors a) :
    p.Adjacent a b := by
  rcases mem_neighbors_conflicts.mp hab with hedge | hpins
  · exact hedge
  · obtain ⟨c, -, hc, -⟩ := exists_pins_of_pinnedApart hpins
    rw [color_of_pinned hloop hg ha hc] at hnone
    exact absurd hnone (by simp)

/-- If a group gets no color, then neighbors have them all. -/
theorem exists_neighbor_of_uncolored (hloop : p.graph.selfLoop? = none)
    (hg : g ∈ removedGroups p) (hnone : g.color = none) (hv : v ∈ g.members)
    (huncolored : (assign p).get? v = none) (hc : c ∈ p.allowed) :
    ∃ a ∈ g.members, ∃ b, p.Adjacent a b ∧ (assign p).get? b = some c := by
  obtain ⟨first, second, hsplit⟩ := List.append_of_mem hg
  have htaken : c ∈ taken p.conflicts (colorsAfter p first) g.members := by
    by_contra hfree
    obtain ⟨d, hd⟩ := exists_get?_colorGroup hnone ⟨c, hc, hfree⟩ hv
    have hturn : (colorsAfter p (first ++ [g])).get? v = some d := by
      rw [colorsAfter, List.foldl_append]
      exact hd
    have hsplit' : removedGroups p = (first ++ [g]) ++ second := by simp [hsplit]
    exact absurd (huncolored.symm.trans (get?_assign_of_colorsAfter hsplit' hturn)) (by simp)
  obtain ⟨a, ha, b, hab, hb⟩ := exists_of_mem_taken htaken
  exact ⟨a, ha, b, adjacent_of_mem_conflicts hloop hg hnone ha hab,
    get?_assign_of_colorsAfter hsplit hb⟩

/-! ## The whole coloring -/

section Colored

variable {colors : InsertionMap V C}

theorem get?_eq_get?_assign (hok : firstFit p = .ok colors) (hv : p.graph.Mentions v) :
    colors.get? v = (assign p).get? v := by
  have hvertex : v ∈ p.vertices := Relation.mem_keys_symmetricClosure.mpr hv
  apply Option.ext
  intro c
  rw [(firstFit_eq_ok hok).2 v c]
  exact and_iff_right hvertex

/-- A vertex without a color belongs to a group of which no member is pinned, and all
colors are those of neighbors of the group. -/
theorem exists_blocked (hok : firstFit p = .ok colors) (hv : p.graph.Mentions v)
    (huncolored : ¬ v ∈ colors) :
    p.fixed.get? v = none ∧
      ∃ vertices, v ∈ vertices ∧ p.Blocked colors vertices ∧ ∀ u ∈ vertices, p.CopyRelated v u := by
  have hloop := (firstFit_eq_ok hok).1
  have hassign : (assign p).get? v = none := by
    rw [← get?_eq_get?_assign hok hv]
    exact InsertionMap.get?_eq_none.mpr huncolored
  obtain ⟨g, hg, hvg⟩ := exists_removedGroup (Relation.mem_keys_symmetricClosure.mpr hv)
  have hnone : g.color = none := by
    apply Option.eq_none_iff_forall_ne_some.mpr
    intro c hc
    have hpinned : TakesPin p v c := ⟨g, hg, hvg, hc⟩
    exact absurd (hassign.symm.trans hpinned.get?_assign) (by simp)
  have hknown : ∀ u ∈ g.members, p.graph.Mentions u := fun u hu =>
    Relation.mem_keys_symmetricClosure.mp (mem_vertices_of_mem_members hg hu)
  refine ⟨?_, g.members, hvg, ⟨hknown, fun u hu => ?_, fun c hc => ?_⟩,
    fun u hu => copyRelated_of_removedGroup hg hvg hu⟩
  · apply Option.eq_none_iff_forall_ne_some.mpr
    intro c hc
    rw [color_of_pinned hloop hg hvg hc] at hnone
    exact absurd hnone (by simp)
  · rw [← InsertionMap.get?_eq_none, get?_eq_get?_assign hok (hknown u hu),
      get?_assign_eq hg hu hvg, hassign]
  · obtain ⟨a, ha, b, hab, hb⟩ := exists_neighbor_of_uncolored hloop hg hnone hvg hassign hc
    exact ⟨a, ha, b, hab, (get?_eq_get?_assign hok hab.mentions).trans hb⟩

/-! ## Counting -/

theorem mem_of_few_neighbors (hok : firstFit p = .ok colors) (hcopyless : p.Copyless)
    (hv : p.graph.Mentions v)
    (hfew : (p.graph.symmetricClosure.neighbors v).size < p.allowed.dedup.length) :
    v ∈ colors := by
  by_contra huncolored
  obtain ⟨-, vertices, -, hblocked, hrelated⟩ := exists_blocked hok hv huncolored
  have hused : p.allowed.dedup ⊆
      (p.graph.symmetricClosure.neighbors v).toList.filterMap colors.get? := by
    intro c hc
    obtain ⟨a, ha, b, hab, hb⟩ := hblocked.taken c (List.mem_dedup.mp hc)
    obtain rfl := hcopyless.eq_of_copyRelated (hrelated a ha)
    exact List.mem_filterMap.mpr ⟨b, Relation.mem_neighbors_symmetricClosure.mpr hab, hb⟩
  have hlength := (List.subperm_of_subset (List.nodup_dedup _) hused).length_le
  exact absurd hfew (Nat.not_lt.mpr (hlength.trans (List.length_filterMap_le _ _)))

theorem not_takesPin_of_unpinned (hloop : p.graph.selfLoop? = none) (hunpinned : p.Unpinned) :
    ¬ TakesPin p v c := by
  rintro ⟨g, hg, -, hc⟩
  obtain ⟨m, hm, hpin⟩ := (sound_removedGroups hloop hg).2 c hc
  have hmentions := Relation.mem_keys_symmetricClosure.mp (mem_vertices_of_mem_members hg hm)
  exact absurd (hpin.symm.trans (hunpinned m hmentions)) (by simp)

/-- The colors in use, once for each vertex. -/
def used (p : ColoringProblem V C) (colors : InsertionMap V C) : List C :=
  p.vertices.toList.filterMap colors.get?

/-- No two vertices of a clique have the same color. -/
theorem nodup_used (hok : firstFit p = .ok colors) (hclique : p.IsClique)
    (hunpinned : p.Unpinned) : (used p colors).Nodup := by
  obtain ⟨hloop, hcolors⟩ := firstFit_eq_ok hok
  have hproper : Proper p.conflicts (assign p) :=
    proper_assign hloop fun a _ c _ ha => absurd ha (not_takesPin_of_unpinned hloop hunpinned)
  apply List.Nodup.filterMap _ p.vertices.nodup
  intro a b c ha hb
  obtain ⟨hav, ha⟩ := (hcolors a c).mp ha
  obtain ⟨hbv, hb⟩ := (hcolors b c).mp hb
  by_contra hne
  have hadjacent := hclique a b (Relation.mem_keys_symmetricClosure.mp hav)
    (Relation.mem_keys_symmetricClosure.mp hbv) hne
  exact hproper a b c (mem_neighbors_conflicts.mpr (.inl hadjacent)) ha hb

/-- If a clique has as many vertices as there are colors, then each color is used. -/
theorem length_used (hok : firstFit p = .ok colors) (hclique : p.IsClique)
    (hunpinned : p.Unpinned) (hmany : p.allowed.dedup.length ≤ p.vertices.size) :
    (used p colors).length = p.allowed.dedup.length := by
  obtain ⟨hloop, hcolors⟩ := firstFit_eq_ok hok
  have hallowed : used p colors ⊆ p.allowed.dedup := by
    intro c hc
    obtain ⟨v, -, hv⟩ := List.mem_filterMap.mp hc
    have hassign := ((hcolors v c).mp hv).2
    exact List.mem_dedup.mpr ((takesPin_or_mem_allowed hassign).resolve_left
      (not_takesPin_of_unpinned hloop hunpinned))
  refine le_antisymm
    (List.subperm_of_subset (nodup_used hok hclique hunpinned) hallowed).length_le ?_
  by_cases hall : ∀ v ∈ p.vertices, v ∈ colors
  · have hlength : (used p colors).length = p.vertices.size := by
      rw [used, List.length_filterMap_eq_countP, InsertionSet.size]
      exact List.countP_eq_length.mpr fun v hv => InsertionMap.isSome_get?.mpr (hall v hv)
    rwa [hlength]
  · push Not at hall
    obtain ⟨v, hv, huncolored⟩ := hall
    obtain ⟨-, vertices, -, hblocked, -⟩ :=
      exists_blocked hok (Relation.mem_keys_symmetricClosure.mp hv) huncolored
    refine (List.subperm_of_subset (List.nodup_dedup _) fun c hc => ?_).length_le
    obtain ⟨a, -, b, hab, hb⟩ := hblocked.taken c (List.mem_dedup.mp hc)
    exact List.mem_filterMap.mpr ⟨b, Relation.mem_keys_symmetricClosure.mpr hab.mentions, hb⟩

theorem length_uncolored (hok : firstFit p = .ok colors) (hclique : p.IsClique)
    (hunpinned : p.Unpinned) (hmany : p.allowed.dedup.length ≤ p.vertices.size) :
    (p.vertices.toList.filter fun v => ¬ v ∈ colors).length =
      p.vertices.size - p.allowed.dedup.length := by
  have hsum : p.vertices.size = p.vertices.toList.countP (fun v => decide (v ∈ colors)) +
      (p.vertices.toList.filter fun v => ¬ v ∈ colors).length := by
    rw [InsertionSet.size, ← List.countP_eq_length_filter,
      List.length_eq_countP_add_countP fun v => decide (v ∈ colors)]
    simp
  have hused : p.vertices.toList.countP (fun v => decide (v ∈ colors)) =
      p.allowed.dedup.length := by
    rw [← length_used hok hclique hunpinned hmany, used, List.length_filterMap_eq_countP]
    congr 1
    funext v
    rw [Bool.eq_iff_iff, decide_eq_true_iff, InsertionMap.isSome_get?]
  rw [hsum, hused, Nat.add_sub_cancel_left]

end Colored

/-- A vertex is left without a color only if it has no pin and belongs to vertices
without a color that are connected by copies and have neighbors of every color. So without
copies, a vertex with fewer neighbors than there are different colors gets one of them, and
a clique without pins leaves as many vertices without a color as colors are lacking. -/
theorem uncolored_blocked (p : ColoringProblem V C) (hloop : ¬ ∃ v, v ∈ p.graph.neighbors v) :
    ∃ colors, firstFit p = .ok colors ∧
      (∀ v, p.graph.Mentions v → ¬ v ∈ colors →
        p.fixed.get? v = none ∧
          ∃ vertices, v ∈ vertices ∧ p.Blocked colors vertices ∧
            ∀ u ∈ vertices, p.CopyRelated v u) ∧
      (p.Copyless → ∀ v, p.graph.Mentions v →
        (p.graph.symmetricClosure.neighbors v).size < p.allowed.dedup.length → v ∈ colors) ∧
      (p.IsClique → p.Unpinned → p.allowed.dedup.length ≤ p.vertices.size →
        (p.vertices.toList.filter fun v => ¬ v ∈ colors).length =
          p.vertices.size - p.allowed.dedup.length) := by
  obtain ⟨colors, hok⟩ := exists_firstFit_eq_ok (Relation.selfLoop?_eq_none_iff.mpr hloop)
  refine ⟨colors, hok, fun v hv huncolored => exists_blocked hok hv huncolored,
    fun hcopyless v hv hfew => mem_of_few_neighbors hok hcopyless hv hfew,
    fun hclique hunpinned hmany => length_uncolored hok hclique hunpinned hmany⟩

/-- Two copies, one beside a pinned vertex, the other beside a pinned vertex and a free one.
Either copy alone could be colored. -/
def blockedCopies : ColoringProblem Nat Nat :=
  { graph := ((Relation.addArc ∅ 0 1).addArc 2 3).addArc 2 4
    coalesce := Relation.addArc ∅ 1 2
    fixed := .ofList [(0, 1), (3, 2)]
    allowed := [3, 1, 2] }

/-- A triangle to be colored with two colors, one of which is listed twice. -/
def triangle : ColoringProblem Nat Nat :=
  { graph := ((Relation.addArc ∅ 0 1).addArc 1 2).addArc 2 0
    coalesce := ∅
    fixed := ∅
    allowed := [7, 8, 7] }

theorem uncolored_blocked_for_copies_path_and_clique :
    (∃ colors, firstFit blockedCopies = .ok colors ∧ ¬ 1 ∈ colors ∧
        ∃ vertices, 1 ∈ vertices ∧ blockedCopies.Blocked colors vertices) ∧
      (∃ colors, firstFit pinnedEnd = .ok colors ∧ 2 ∈ colors) ∧
      ∃ colors, firstFit triangle = .ok colors ∧
        (triangle.vertices.toList.filter fun v => ¬ v ∈ colors).length = 1 := by
  have hloop : ∀ p ∈ [blockedCopies, pinnedEnd, triangle], ¬ ∃ v, v ∈ p.graph.neighbors v := by
    intro p hp
    have hnone : ∀ p ∈ [blockedCopies, pinnedEnd, triangle], p.graph.selfLoop? = none := by
      decide +kernel
    exact Relation.selfLoop?_eq_none_iff.mp (hnone p hp)
  refine ⟨?_, ?_, ?_⟩
  · obtain ⟨colors, hok, hblocked, -⟩ := uncolored_blocked blockedCopies (hloop _ (by simp))
    have hmentions : blockedCopies.graph.Mentions 1 := .inr ⟨0, by decide⟩
    have huncolored : ¬ 1 ∈ colors := by
      rw [← InsertionMap.get?_eq_none, get?_eq_get?_assign hok hmentions]
      decide +kernel
    obtain ⟨-, vertices, hmem, hvertices, -⟩ := hblocked 1 hmentions huncolored
    exact ⟨colors, hok, huncolored, vertices, hmem, hvertices⟩
  · obtain ⟨colors, hok, -, hfew, -⟩ := uncolored_blocked pinnedEnd (hloop _ (by simp))
    have hcopyless : pinnedEnd.Copyless := by
      intro a b _ _ hab
      exact absurd hab (InsertionSet.not_mem_empty b)
    exact ⟨colors, hok, hfew hcopyless 2 (.inr ⟨1, by decide⟩) (by decide +kernel)⟩
  · obtain ⟨colors, hok, -, -, hcount⟩ := uncolored_blocked triangle (hloop _ (by simp))
    have hclique : triangle.IsClique := by
      have hpairs : ∀ a ∈ triangle.vertices.toList, ∀ b ∈ triangle.vertices.toList,
          a ≠ b → triangle.Adjacent a b := by decide +kernel
      intro a b ha hb hne
      exact hpairs a (Relation.mem_keys_symmetricClosure.mpr ha) b
        (Relation.mem_keys_symmetricClosure.mpr hb) hne
    exact ⟨colors, hok, hcount hclique (fun _ _ => rfl) (by decide +kernel)⟩

end Coloring

end Lowering
