import Lowering.Proofs.SureColors

/-!
# As many colors as vertices

A group has fewer rivals than there are other groups, left and removed together, and
there are never more groups than vertices. So if there are as many colors as vertices,
then each vertex gets one, whatever is pinned and whichever vertices should share a
color.
-/

namespace Lowering.Coloring

variable {V C : Type} [DecidableEq V]

namespace State

variable {conflicts : Relation V} {fixed : InsertionMap V C} {s : State V C} {v : V}
  {g : Group V C}

/-- The number of groups, left and removed. -/
def groupCount (s : State V C) : Nat :=
  s.groups.size + s.removed.length

/-- A merge makes one group of two, and a removal keeps the number of groups. -/
theorem groupCount_step_le (s : State V C) (colors : Nat) :
    (s.step colors).groupCount ≤ s.groupCount := by
  unfold groupCount
  rcases s.step_cases colors with
    ⟨v, u, g, h, -, hu, -, -, hstep⟩ | ⟨v, g, mayLackColor, hv, hstep⟩ | ⟨-, hstep⟩
  · have hsize := size_merge (v := v) hu
    rw [hstep, removed_merge hu]
    omega
  · have hsize := size_remove hv mayLackColor
    rw [hstep, removed_remove hv, List.length_cons]
    omega
  · rw [hstep]

/-- A group and its neighbors are different groups. -/
theorem degree_lt_size (hjoined : s.Joined conflicts) (hsound : s.Sound conflicts fixed)
    (hv : s.groups.get? v = some g) : s.degree v < s.groups.size := by
  have hnodup : (v :: (s.neighbors v).toList).Nodup :=
    List.nodup_cons.mpr ⟨hjoined.not_mem_self hsound, (s.neighbors v).nodup⟩
  have hleft : v :: (s.neighbors v).toList ⊆ s.groups.keys.toList := by
    refine List.cons_subset.mpr ⟨InsertionMap.mem_iff_exists_get?.mpr ⟨g, hv⟩, fun u hu => ?_⟩
    obtain ⟨-, h, -, hh, -⟩ := hjoined v u hu
    exact InsertionMap.mem_iff_exists_get?.mpr ⟨h, hh⟩
  have hlength := (List.subperm_of_subset hnodup hleft).length_le
  rw [List.length_cons, InsertionMap.keys, List.length_map] at hlength
  exact hlength

end State

section Problem

variable [DecidableEq C] {p : ColoringProblem V C} {n : Nat} {g : RemovedGroup V C} {v : V}

theorem groupCount_stateAfter_le (p : ColoringProblem V C) (n : Nat) :
    (stateAfter p n).groupCount ≤ p.vertices.size := by
  refine State.steps_keep (P := fun s => s.groupCount ≤ p.vertices.size)
    (fun s hs => (s.groupCount_step_le _).trans hs) ?_ n
  simp [State.groupCount, start, InsertionMap.ofKeys, InsertionMap.size, InsertionSet.size]

/-- The rivals of a group are fewer than the vertices. -/
theorem rivals_lt_size (hloop : p.graph.selfLoop? = none)
    (hg : (stateAfter p n).Removes p.allowed.length g) : rivals p n g < p.vertices.size := by
  obtain ⟨⟨k, hk, -, -⟩, -⟩ := hg.cases
  have hdegree := State.degree_lt_size (joined_stateAfter p n) (sound_stateAfter hloop n) hk
  have hpins : ((stateAfter p n).pinsAgainst p.conflicts g.members).length ≤
      (stateAfter p n).removed.length := List.length_filter_le _ _
  have hcount := groupCount_stateAfter_le p n
  simp only [State.groupCount] at hcount
  simp only [rivals]
  omega

/-- If there are as many colors as vertices, then every vertex gets a color. -/
theorem firstFit_colors_all (hloop : p.graph.selfLoop? = none) (hnodup : p.allowed.Nodup)
    (henough : p.vertices.size ≤ p.allowed.length) :
    ∃ colors, firstFit p = .ok colors ∧ ∀ v ∈ p.vertices, v ∈ colors := by
  obtain ⟨colors, hok⟩ := exists_firstFit_eq_ok hloop
  refine ⟨colors, hok, fun v hv => ?_⟩
  obtain ⟨g, hmem, hvg⟩ := exists_removedGroup hv
  obtain ⟨n, hg⟩ := exists_removes hmem
  have hcolor : ∃ c, (assign p).get? v = some c := by
    cases hc : g.color with
    | some c => exact ⟨c, TakesPin.get?_assign ⟨g, hmem, hvg, hc⟩⟩
    | none =>
        have hrivals := (rivals_lt_size hloop hg).trans_le henough
        exact exists_color_of_rivals_lt hloop hnodup hg hc hrivals hvg
  obtain ⟨c, hc⟩ := hcolor
  exact InsertionMap.mem_iff_exists_get?.mpr ⟨c, ((firstFit_eq_ok hok).2 v c).mpr ⟨hv, hc⟩⟩

end Problem

end Lowering.Coloring
