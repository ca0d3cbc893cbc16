import Lowering.Proofs.ProperColoring

/-!
# The graph of groups

The neighbors of a group are again groups of the graph that is left, and two
groups are neighbors exactly if members of theirs are in conflict. Merging gives a
group the neighbors of both its parts, and a removed group is nobody's neighbor.
-/

namespace Lowering.Coloring

variable {V C : Type} [DecidableEq V]

namespace State

variable {conflicts : Relation V} {fixed : InsertionMap V C} {s : State V C} {v u t w : V}
  {g h k : Group V C}

theorem neighbors_of_group (hv : s.groups.get? v = some g) : s.neighbors v = g.neighbors := by
  simp [neighbors, hv]

/-! ## Neighbors after a step -/

/-- The merged group has the neighbors of both its parts. -/
theorem mem_neighbors_merge_self (hv : s.groups.get? v = some g) (hu : s.groups.get? u = some h)
    (hvu : v ≠ u) : t ∈ (s.merge v u).neighbors v ↔
      (t ∈ s.neighbors v ∨ t ∈ s.neighbors u) ∧ t ≠ u ∧ t ≠ v := by
  rw [neighbors_of_group (get?_merge_of_ne hu hv hvu), if_pos rfl, neighbors_of_group hv,
    neighbors_of_group hu]
  simp [absorb, ← InsertionSet.mem_iff, and_assoc]

/-- Any other group has the merged group as a neighbor instead of its second part. -/
theorem mem_neighbors_merge_of_ne (hu : s.groups.get? u = some h) (hwv : w ≠ v) (hwu : w ≠ u) :
    t ∈ (s.merge v u).neighbors w ↔
      t ∈ s.neighbors w ∧ t ≠ u ∨ u ∈ s.neighbors w ∧ t = v := by
  cases hw : s.groups.get? w with
  | none => simp [neighbors, merge, hu, hwu, hw]
  | some k =>
      rw [neighbors_of_group (get?_merge_of_ne hu hw hwu), if_neg hwv, neighbors_of_group hw]
      unfold redirect
      split_ifs with hmem
      · simp [hmem]
      · have hne : t ∈ k.neighbors → t ≠ u := fun ht htu => hmem (htu ▸ ht)
        simpa [hmem] using hne

theorem mem_neighbors_remove {mayLackColor : Bool} (hv : s.groups.get? v = some g) :
    t ∈ (s.remove v mayLackColor).neighbors w ↔ t ∈ s.neighbors w ∧ w ≠ v ∧ t ≠ v := by
  by_cases hwv : w = v
  · simp [neighbors, remove, hv, hwv]
  · cases hw : s.groups.get? w with
    | none => simp [neighbors, remove, hv, hwv, hw]
    | some k =>
        rw [neighbors_of_group (get?_remove_of_ne hv hw hwv), neighbors_of_group hw]
        simp [hwv]

/-- Neighbors after a merge were neighbors before, by the names of their parts. -/
theorem exists_neighbors_of_merge (hv : s.groups.get? v = some g) (hu : s.groups.get? u = some h)
    (hvu : v ≠ u) (ht : t ∈ (s.merge v u).neighbors w) :
    ∃ w' t', t' ∈ s.neighbors w' ∧ w = (if w' = u then v else w') ∧
      t = if t' = u then v else t' := by
  by_cases hwu : w = u
  · subst hwu
    simp [neighbors, merge, hu] at ht
  · by_cases hwv : w = v
    · subst hwv
      obtain ⟨hold | hold, htu, -⟩ := (mem_neighbors_merge_self hv hu hvu).mp ht
      · exact ⟨w, t, hold, by simp, by simp [htu]⟩
      · exact ⟨u, t, hold, by simp, by simp [htu]⟩
    · rcases (mem_neighbors_merge_of_ne hu hwv hwu).mp ht with ⟨hold, htu⟩ | ⟨hold, rfl⟩
      · exact ⟨w, t, hold, by simp [hwu], by simp [htu]⟩
      · exact ⟨w, u, hold, by simp [hwu], by simp⟩

/-! ## Neighbors are in conflict -/

/-- Neighbors are groups that are left, with members in conflict. -/
def Joined (conflicts : Relation V) (s : State V C) : Prop :=
  ∀ v u, u ∈ s.neighbors v → ∃ g h, s.groups.get? v = some g ∧ s.groups.get? u = some h ∧
    ∃ a ∈ g.members, ∃ b ∈ h.members, b ∈ conflicts.neighbors a

theorem Joined.merge (hs : s.Joined conflicts) (hv : s.groups.get? v = some g)
    (hu : s.groups.get? u = some h) (hvu : v ≠ u) : (s.merge v u).Joined conflicts := by
  intro w t ht
  obtain ⟨w', t', hold, rfl, rfl⟩ := exists_neighbors_of_merge hv hu hvu ht
  obtain ⟨m, k, hm, hk, a, ha, b, hb, hab⟩ := hs w' t' hold
  obtain ⟨m', hm', hsub⟩ := exists_group_merge hv hu hvu hm
  obtain ⟨k', hk', hsub'⟩ := exists_group_merge hv hu hvu hk
  exact ⟨m', k', hm', hk', a, hsub a ha, b, hsub' b hb, hab⟩

theorem Joined.remove (hs : s.Joined conflicts) (hv : s.groups.get? v = some g)
    (mayLackColor : Bool) : (s.remove v mayLackColor).Joined conflicts := by
  intro w t ht
  obtain ⟨hold, hwv, htv⟩ := (mem_neighbors_remove hv).mp ht
  obtain ⟨m, k, hm, hk, hconflict⟩ := hs w t hold
  exact ⟨_, _, get?_remove_of_ne hv hm hwv, get?_remove_of_ne hv hk htv, hconflict⟩

theorem Joined.step (hs : s.Joined conflicts) (colors : Nat) :
    (s.step colors).Joined conflicts := by
  rcases s.step_cases colors with
    ⟨v, u, g, h, hv, hu, hne, -, hstep⟩ | ⟨v, g, mayLackColor, hv, hstep⟩ | ⟨-, hstep⟩
  · exact hstep ▸ hs.merge hv hu hne
  · exact hstep ▸ hs.remove hv mayLackColor
  · rwa [hstep]

theorem Joined.steps (hs : s.Joined conflicts) (colors n : Nat) :
    (s.steps colors n).Joined conflicts :=
  steps_keep (fun _ h => h.step colors) hs n

theorem Joined.not_mem_self (hs : s.Joined conflicts) (hsound : s.Sound conflicts fixed) :
    ¬ v ∈ s.neighbors v := by
  intro hmem
  obtain ⟨g, h, hg, hh, a, ha, b, hb, hab⟩ := hs v v hmem
  obtain rfl := Option.some.inj (hg.symm.trans hh)
  exact hsound.independent v g hg a ha b hb hab

theorem Joined.symm (hsymm : ∀ a b, b ∈ conflicts.neighbors a → a ∈ conflicts.neighbors b)
    (hs : s.Joined conflicts) (hsound : s.Sound conflicts fixed) (hmem : u ∈ s.neighbors v) :
    v ∈ s.neighbors u := by
  obtain ⟨g, h, hg, hh, a, ha, b, hb, hab⟩ := hs v u hmem
  have hne : u ≠ v := by
    rintro rfl
    exact hs.not_mem_self hsound hmem
  rw [neighbors_of_group hh]
  exact hsound.adjacent u v h g hh hg hne b hb a ha (hsymm a b hab)

end State

section Problem

variable [DecidableEq C] {p : ColoringProblem V C}

theorem mem_vertices_of_mem_pinnedApart {e : V × V} (h : e ∈ p.pinnedApart) :
    e.1 ∈ p.vertices ∧ e.2 ∈ p.vertices := by
  have hsub := mem_orderedPairs.mp (List.mem_of_mem_filter h)
  exact ⟨hsub.subset (by simp), hsub.subset (by simp)⟩

theorem mem_vertices_of_mem_conflicts {a b : V} (h : b ∈ p.conflicts.neighbors a) :
    a ∈ p.vertices ∧ b ∈ p.vertices := by
  have hedge : ∀ {x y : V}, y ∈ p.graph.neighbors x → x ∈ p.vertices ∧ y ∈ p.vertices := by
    intro x y hxy
    constructor
    · exact Relation.mem_keys_symmetricClosure.mpr (.inl (Relation.mem_keys_of_mem_neighbors hxy))
    · exact Relation.mem_keys_symmetricClosure.mpr (.inr ⟨x, hxy⟩)
  rcases mem_neighbors_conflicts.mp h with (hab | hba) | (hab | hba)
  · exact hedge hab
  · exact (hedge hba).symm
  · exact mem_vertices_of_mem_pinnedApart hab
  · exact (mem_vertices_of_mem_pinnedApart hba).symm

theorem joined_start (p : ColoringProblem V C) : (start p).Joined p.conflicts := by
  intro v u hmem
  have hgroup : ∀ w ∈ p.vertices, ∃ g, (start p).groups.get? w = some g ∧ w ∈ g.members ∧
      g.neighbors = p.conflicts.neighbors w := by
    intro w hw
    rw [start, InsertionMap.get?_ofKeys, if_pos hw]
    exact ⟨_, rfl, List.mem_singleton.mpr rfl, rfl⟩
  have hv : v ∈ p.vertices := by
    by_contra hv
    simp [State.neighbors, start, hv] at hmem
  obtain ⟨g, hg, hvg, hneighbors⟩ := hgroup v hv
  rw [State.neighbors_of_group hg, hneighbors] at hmem
  obtain ⟨h, hh, huh, -⟩ := hgroup u (mem_vertices_of_mem_conflicts hmem).2
  exact ⟨g, h, hg, hh, v, hvg, u, huh, hmem⟩

theorem joined_stateAfter (p : ColoringProblem V C) (n : Nat) :
    (stateAfter p n).Joined p.conflicts :=
  (joined_start p).steps _ n

theorem sound_stateAfter (h : p.graph.selfLoop? = none) (n : Nat) :
    (stateAfter p n).Sound p.conflicts p.fixed :=
  (sound_start h).steps (fun _ _ => conflicts_symm) _ n

end Problem

end Lowering.Coloring
