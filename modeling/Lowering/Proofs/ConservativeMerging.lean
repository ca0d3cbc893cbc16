import Lowering.Proofs.SureColors
import Mathlib.Data.Finset.Card

/-!
# Merging never costs a color

Suppose that the vertices of a graph can be removed one after another, each with
fewer neighbors left than there are colors. Then every set of vertices has one with
that few neighbors in the set. Merging keeps this property: where a set contains a
vertex whose neighbor the merged group became only through its first part, that
vertex has few neighbors anyway, and any other set looks as if the group were its
second part alone. So a group with few neighbors is always at hand, no group is
removed at the risk of lacking a color, and every vertex gets one.
-/

namespace Lowering

namespace Relation

universe u

variable {V : Type u} [DecidableEq V] {g : Relation V} {k : Nat}

/-- The vertices of a list can be removed one after another, each with fewer than
`k` neighbors among those that are left. -/
def RemovableInOrder (g : Relation V) (k : Nat) : List V → Prop
  | [] => True
  | v :: rest => (rest.countP fun u => decide (u ∈ g.neighbors v)) < k ∧ g.RemovableInOrder k rest

instance decidableRemovableInOrder (g : Relation V) (k : Nat) :
    (order : List V) → Decidable (g.RemovableInOrder k order)
  | [] => isTrue trivial
  | _ :: rest => @instDecidableAnd _ _ _ (decidableRemovableInOrder g k rest)

/-- All vertices can be removed in some order, each with fewer than `k` neighbors
among those that are left. -/
def GreedilyRemovable (g : Relation V) (k : Nat) : Prop :=
  ∃ order : List V, order.Perm g.keys.toList ∧ g.RemovableInOrder k order

/-- The vertex of a set that is removed first has few neighbors in the set. -/
theorem RemovableInOrder.exists_few_neighbors {order : List V}
    (horder : g.RemovableInOrder k order) (hloop : ∀ v, ¬ v ∈ g.neighbors v) {S : Finset V}
    (hS : S.Nonempty) (hsub : ∀ v ∈ S, v ∈ order) :
    ∃ v ∈ S, (S.filter (· ∈ g.neighbors v)).card < k := by
  induction order with
  | nil =>
      obtain ⟨v, hv⟩ := hS
      exact absurd (hsub v hv) List.not_mem_nil
  | cons v rest ih =>
      obtain ⟨hfew, hrest⟩ := horder
      by_cases hv : v ∈ S
      · refine ⟨v, hv, lt_of_le_of_lt ?_ hfew⟩
        have hafter : S.filter (· ∈ g.neighbors v) ⊆
            (rest.filter fun u => decide (u ∈ g.neighbors v)).toFinset := by
          intro u hu
          obtain ⟨huS, huv⟩ := Finset.mem_filter.mp hu
          have hne : u ≠ v := fun heq => hloop v (heq ▸ huv)
          have hmem := (List.mem_cons.mp (hsub u huS)).resolve_left hne
          simpa using ⟨hmem, huv⟩
        rw [List.countP_eq_length_filter]
        exact (Finset.card_le_card hafter).trans (List.toFinset_card_le _)
      · refine ih hrest fun u hu => (List.mem_cons.mp (hsub u hu)).resolve_left ?_
        rintro rfl
        exact hv hu

end Relation

namespace Coloring

variable {V C : Type} [DecidableEq V]

namespace State

variable {s : State V C} {colors : Nat} {v u : V} {g h : Group V C} {S : Finset V}

/-- Every set of groups that are left contains one with few neighbors in the set. -/
def Sparse (colors : Nat) (s : State V C) : Prop :=
  ∀ S : Finset V, S.Nonempty → (∀ v ∈ S, v ∈ s.groups) →
    ∃ v ∈ S, (S.filter (· ∈ s.neighbors v)).card < colors

theorem card_filter_neighbors_le (s : State V C) (S : Finset V) (v : V) :
    (S.filter (· ∈ s.neighbors v)).card ≤ s.degree v := by
  have hsub : S.filter (· ∈ s.neighbors v) ⊆ (s.neighbors v).toList.toFinset := fun t ht =>
    List.mem_toFinset.mpr (Finset.mem_filter.mp ht).2
  exact (Finset.card_le_card hsub).trans (List.toFinset_card_le _)

theorem isSafeMerge_eq_true (hsafe : s.isSafeMerge colors v u = true) {t : V}
    (ht : t ∈ s.neighbors v) : u ∈ s.neighbors t ∨ s.degree t < colors := by
  simpa using List.all_eq_true.mp hsafe t ht

/-! ## Merging -/

/-- If the neighbors of `v` in a set are neighbors of `u` too, then in that set the
merged group has the neighbors that `u` had. -/
theorem rename_mem_neighbors (hsymm : ∀ a b, b ∈ s.neighbors a → a ∈ s.neighbors b)
    (hv : s.groups.get? v = some g) (hu : s.groups.get? u = some h) (hvu : v ≠ u)
    (hS : ∀ t ∈ S, t ∈ s.neighbors v → u ∈ s.neighbors t) {w t : V} (hwS : w ∈ S) (htS : t ∈ S)
    (hwu : w ≠ u) (ht : t ∈ (s.merge v u).neighbors w) :
    (if t = v then u else t) ∈ s.neighbors (if w = v then u else w) := by
  by_cases hwv : w = v
  · subst hwv
    obtain ⟨hold, -, htw⟩ := (mem_neighbors_merge_self hv hu hvu).mp ht
    rw [if_pos rfl, if_neg htw]
    rcases hold with hold | hold
    · exact hsymm t u (hS t htS hold)
    · exact hold
  · rw [if_neg hwv]
    rcases (mem_neighbors_merge_of_ne hu hwv hwu).mp ht with ⟨hold, -⟩ | ⟨hold, rfl⟩
    · split_ifs with htv
      · exact hS w hwS (hsymm w v (htv ▸ hold))
      · exact hold
    · rwa [if_pos rfl]

/-- A neighbor of `v` alone has as few neighbors as before, and for those of both groups the
merged group can be taken for `u`. -/
theorem Sparse.merge (hs : s.Sparse colors)
    (hsymm : ∀ a b, b ∈ s.neighbors a → a ∈ s.neighbors b) (hself : ¬ v ∈ s.neighbors v)
    (hv : s.groups.get? v = some g) (hu : s.groups.get? u = some h) (hvu : v ≠ u)
    (hsafe : s.isSafeMerge colors v u = true) : (s.merge v u).Sparse colors := by
  intro S hne hS
  have hold : ∀ w ∈ S, w ≠ u ∧ w ∈ s.groups := by
    intro w hw
    obtain ⟨k, hk⟩ := InsertionMap.mem_iff_exists_get?.mp (hS w hw)
    obtain ⟨hwu, k', hk', -⟩ := get?_merge hu hk
    exact ⟨hwu, InsertionMap.mem_iff_exists_get?.mpr ⟨k', hk'⟩⟩
  by_cases hfew : ∃ t ∈ S, t ∈ s.neighbors v ∧ ¬ u ∈ s.neighbors t
  · obtain ⟨t, htS, htv, htu⟩ := hfew
    have hne : t ≠ v := fun heq => hself (heq ▸ htv)
    have hsame : S.filter (· ∈ (s.merge v u).neighbors t) ⊆ S.filter (· ∈ s.neighbors t) := by
      intro x hx
      obtain ⟨hxS, hx⟩ := Finset.mem_filter.mp hx
      rcases (mem_neighbors_merge_of_ne hu hne (hold t htS).1).mp hx with ⟨hx, -⟩ | ⟨hx, -⟩
      · exact Finset.mem_filter.mpr ⟨hxS, hx⟩
      · exact absurd hx htu
    refine ⟨t, htS, ?_⟩
    calc (S.filter (· ∈ (s.merge v u).neighbors t)).card
        ≤ (S.filter (· ∈ s.neighbors t)).card := Finset.card_le_card hsame
      _ ≤ s.degree t := s.card_filter_neighbors_le S t
      _ < colors := (isSafeMerge_eq_true hsafe htv).resolve_left htu
  · push Not at hfew
    let rename : V → V := fun w => if w = v then u else w
    have hinjective : Set.InjOn rename S := by
      intro x hx y hy hxy
      have hxu := (hold x hx).1
      have hyu := (hold y hy).1
      simp only [rename] at hxy
      split_ifs at hxy with hxv hyv hyv
      · exact hxv.trans hyv.symm
      · exact absurd hxy.symm hyu
      · exact absurd hxy hxu
      · exact hxy
    have hleft : ∀ w ∈ S.image rename, w ∈ s.groups := by
      intro w hw
      obtain ⟨x, hx, rfl⟩ := Finset.mem_image.mp hw
      simp only [rename]
      split_ifs
      · exact InsertionMap.mem_iff_exists_get?.mpr ⟨h, hu⟩
      · exact (hold x hx).2
    obtain ⟨w', hw', hcard⟩ := hs _ (hne.image rename) hleft
    obtain ⟨w, hw, rfl⟩ := Finset.mem_image.mp hw'
    refine ⟨w, hw, lt_of_le_of_lt ?_ hcard⟩
    refine Finset.card_le_card_of_injOn rename (fun t ht => ?_)
      (hinjective.mono (Finset.coe_subset.mpr (Finset.filter_subset _ _)))
    obtain ⟨htS, ht⟩ := Finset.mem_filter.mp ht
    exact Finset.mem_coe.mpr (Finset.mem_filter.mpr ⟨Finset.mem_image_of_mem rename htS,
      rename_mem_neighbors hsymm hv hu hvu hfew hw htS (hold w hw).1 ht⟩)

/-! ## Steps -/

theorem Sparse.remove (hs : s.Sparse colors) (hv : s.groups.get? v = some g)
    (mayLackColor : Bool) : (s.remove v mayLackColor).Sparse colors := by
  intro S hne hS
  have hold : ∀ w ∈ S, w ∈ s.groups := by
    intro w hw
    obtain ⟨k, hk⟩ := InsertionMap.mem_iff_exists_get?.mp (hS w hw)
    obtain ⟨-, k', hk', -⟩ := get?_remove hv hk
    exact InsertionMap.mem_iff_exists_get?.mpr ⟨k', hk'⟩
  obtain ⟨w, hw, hcard⟩ := hs S hne hold
  refine ⟨w, hw, lt_of_le_of_lt (Finset.card_le_card fun t ht => ?_) hcard⟩
  obtain ⟨htS, ht⟩ := Finset.mem_filter.mp ht
  exact Finset.mem_filter.mpr ⟨htS, ((mem_neighbors_remove hv).mp ht).1⟩

theorem Sparse.step {conflicts : Relation V} {fixed : InsertionMap V C} (hs : s.Sparse colors)
    (hsymm : ∀ a b, b ∈ conflicts.neighbors a → a ∈ conflicts.neighbors b)
    (hjoined : s.Joined conflicts) (hsound : s.Sound conflicts fixed) :
    (s.step colors).Sparse colors := by
  rcases s.step_choices colors with
    ⟨v, u, hmerge, hstep⟩ | ⟨v, hv, hstep⟩ | ⟨v, hv, hstep⟩ | ⟨-, hstep⟩
  · obtain ⟨g, h, hg, hh, hne, -, -, hsafe⟩ := merge?_eq_some hmerge
    rw [hstep]
    exact hs.merge (fun _ _ => hjoined.symm hsymm hsound) (hjoined.not_mem_self hsound)
      hg hh hne hsafe
  · obtain ⟨g, hg⟩ := hv.exists_group
    exact hstep ▸ hs.remove hg false
  · obtain ⟨g, hg⟩ := hv.exists_group
    exact hstep ▸ hs.remove hg true
  · rwa [hstep]

/-- As long as groups are left, one has few neighbors. -/
theorem Sparse.not_risks {conflicts : Relation V} (hs : s.Sparse colors)
    (hjoined : s.Joined conflicts) : ¬ s.Risks colors v := by
  rintro ⟨-, hnone, hcandidate⟩
  have hleft : ∀ w, w ∈ s.groups.keys.toList.toFinset ↔ w ∈ s.groups := fun w =>
    List.mem_toFinset
  obtain ⟨w, hw, hcard⟩ := hs s.groups.keys.toList.toFinset
    ⟨v, List.mem_toFinset.mpr (candidate?_mem hcandidate)⟩ fun w => (hleft w).mp
  have hdegree : s.degree w ≤
      (s.groups.keys.toList.toFinset.filter (· ∈ s.neighbors w)).card := by
    rw [degree, InsertionSet.size, ← List.toFinset_card_of_nodup (s.neighbors w).nodup]
    refine Finset.card_le_card fun t ht => Finset.mem_filter.mpr ⟨?_, List.mem_toFinset.mp ht⟩
    obtain ⟨-, h, -, hh, -⟩ := hjoined w t (List.mem_toFinset.mp ht)
    exact (hleft t).mpr (InsertionMap.mem_iff_exists_get?.mpr ⟨h, hh⟩)
  have hmany := List.find?_eq_none.mp hnone w (List.mem_toFinset.mp hw)
  simp only [decide_eq_true_eq] at hmany
  exact hmany (lt_of_le_of_lt hdegree hcard)

end State

/-! ## The whole coloring -/

section Problem

variable [DecidableEq C] {p : ColoringProblem V C}

theorem conflicts_of_unpinned (hunpinned : ∀ v ∈ p.vertices, p.fixed.get? v = none) :
    p.conflicts = p.graph.symmetricClosure := by
  have hnil : p.pinnedApart = [] := by
    apply List.filter_eq_nil_iff.mpr
    rintro ⟨a, b⟩ hab
    have ha : a ∈ p.vertices := (mem_orderedPairs.mp hab).subset (by simp)
    simp [hunpinned a ha]
  rw [ColoringProblem.conflicts, hnil]
  rfl

theorem sparse_start {k : Nat} (hloop : p.graph.selfLoop? = none)
    (hunpinned : ∀ v ∈ p.vertices, p.fixed.get? v = none)
    (hgreedy : p.graph.symmetricClosure.GreedilyRemovable k) : (start p).Sparse k := by
  intro S hne hS
  obtain ⟨order, hperm, horder⟩ := hgreedy
  have hvertices : ∀ v ∈ S, v ∈ p.vertices := by
    intro v hv
    simpa [start, InsertionMap.mem_iff_mem_keys] using hS v hv
  have hself : ∀ v, ¬ v ∈ p.graph.symmetricClosure.neighbors v := by
    intro v hv
    exact Relation.not_mem_neighbors_self hloop
      ((Relation.mem_neighbors_symmetricClosure.mp hv).elim id id)
  obtain ⟨v, hv, hcard⟩ := horder.exists_few_neighbors hself hne fun v hv =>
    hperm.mem_iff.mpr (hvertices v hv)
  refine ⟨v, hv, ?_⟩
  have hneighbors : (start p).neighbors v = p.graph.symmetricClosure.neighbors v := by
    simp [State.neighbors, start, hvertices v hv, conflicts_of_unpinned hunpinned]
  rwa [hneighbors]

theorem sparse_stateAfter (hloop : p.graph.selfLoop? = none)
    (hunpinned : ∀ v ∈ p.vertices, p.fixed.get? v = none)
    (hgreedy : p.graph.symmetricClosure.GreedilyRemovable p.allowed.length) (n : Nat) :
    (stateAfter p n).Sparse p.allowed.length := by
  induction n with
  | zero => exact sparse_start hloop hunpinned hgreedy
  | succ n ih =>
      rw [stateAfter_succ]
      exact ih.step (fun _ _ => conflicts_symm) (joined_stateAfter p n) (sound_stateAfter hloop n)

/-- If no vertex is pinned and the vertices can be removed one after another, each
with fewer neighbors left than there are colors, then every vertex gets a color,
whichever vertices should share one. -/
theorem firstFit_colors_greedilyRemovable (p : ColoringProblem V C)
    (hloop : ¬ ∃ v, v ∈ p.graph.neighbors v)
    (hunpinned : ∀ v, p.graph.Mentions v → p.fixed.get? v = none) (hnodup : p.allowed.Nodup)
    (hgreedy : p.graph.symmetricClosure.GreedilyRemovable p.allowed.length) :
    ∃ colors, firstFit p = .ok colors ∧ ∀ v, p.graph.Mentions v → v ∈ colors := by
  have hnoloop := Relation.selfLoop?_eq_none_iff.mpr hloop
  have hfree : ∀ v ∈ p.vertices, p.fixed.get? v = none := fun v hv =>
    hunpinned v (Relation.mem_keys_symmetricClosure.mp hv)
  obtain ⟨colors, hok⟩ := exists_firstFit_eq_ok hnoloop
  refine ⟨colors, hok, fun v hv => ?_⟩
  have hvertex : v ∈ p.vertices := Relation.mem_keys_symmetricClosure.mpr hv
  obtain ⟨g, hmem, hvg⟩ := exists_removedGroup hvertex
  obtain ⟨n, hg⟩ := exists_removes hmem
  have hcolor : ∀ h ∈ removedGroups p, h.color = none := by
    intro h hh
    apply Option.eq_none_iff_forall_ne_some.mpr
    intro c hc
    obtain ⟨m, hm, hpin⟩ := (sound_removedGroups hnoloop hh).2 c hc
    rw [hfree m (mem_vertices_of_mem_members hh hm)] at hpin
    exact absurd hpin (by simp)
  have hsimple : (stateAfter p n).Simplifies p.allowed.length g.head := by
    rcases hg.cases.2 with ⟨hsimple, -⟩ | ⟨hrisk, -⟩
    · exact hsimple
    · exact absurd hrisk
        ((sparse_stateAfter hnoloop hfree hgreedy n).not_risks (joined_stateAfter p n))
  have hrivals : rivals p n g < p.allowed.length := by
    have hnil : (stateAfter p n).pinsAgainst p.conflicts g.members = [] := by
      apply List.filter_eq_nil_iff.mpr
      intro h hh
      obtain ⟨later, hsplit⟩ := removedGroups_split hg
      simp [hcolor h (by simp [hsplit, hh])]
    rw [rivals, hnil]
    exact hsimple.degree_lt
  obtain ⟨c, hc⟩ := exists_color_of_rivals_lt hnoloop hnodup hg (hcolor g hmem) hrivals hvg
  exact InsertionMap.mem_iff_exists_get?.mpr ⟨c, ((firstFit_eq_ok hok).2 v c).mpr ⟨hvertex, hc⟩⟩

end Problem

/-- A path of four vertices whose ends should share a color. Two colors would not be
enough if they had to. -/
def copiedEnds : ColoringProblem Nat Nat :=
  { graph := ((Relation.addArc ∅ 0 1).addArc 1 2).addArc 2 3
    coalesce := Relation.addArc ∅ 3 0
    fixed := ∅
    allowed := [7, 8] }

theorem firstFit_colors_copiedEnds :
    copiedEnds.graph.symmetricClosure.GreedilyRemovable copiedEnds.allowed.length ∧
      ∃ colors, firstFit copiedEnds = .ok colors ∧ ∀ v ∈ [0, 1, 2, 3], v ∈ colors := by
  have hgreedy : copiedEnds.graph.symmetricClosure.GreedilyRemovable copiedEnds.allowed.length :=
    ⟨[0, 1, 2, 3], by decide +kernel, by decide +kernel⟩
  have hloop : ¬ ∃ v, v ∈ copiedEnds.graph.neighbors v :=
    Relation.selfLoop?_eq_none_iff.mp (by decide +kernel)
  obtain ⟨colors, hok, hall⟩ := firstFit_colors_greedilyRemovable copiedEnds hloop
    (fun _ _ => rfl) (by decide) hgreedy
  refine ⟨hgreedy, colors, hok, fun v hv => hall v (Relation.mem_keys_symmetricClosure.mp ?_)⟩
  have hkeys : ∀ v ∈ [0, 1, 2, 3], v ∈ copiedEnds.graph.symmetricClosure.keys := by decide +kernel
  exact hkeys v hv

end Coloring

end Lowering
