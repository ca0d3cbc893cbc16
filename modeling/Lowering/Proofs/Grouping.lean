import Lowering.Coloring.Simplify
import Lowering.Proofs.Maps
import Mathlib.Data.List.Pairwise
import Mathlib.Tactic.SplitIfs

/-!
# Every vertex belongs to one group

Merging two groups and removing a group from the graph move vertices between
groups, but lose none and repeat none. Every step leaves one group less in the
graph, so after as many steps as there are vertices all groups have been removed,
and together they are the vertices of the graph.
-/

namespace Lowering.Coloring

/-- If no element is listed twice, then it is listed by one item only. -/
theorem eq_of_nodup_flatMap {ι α : Type} {items : List ι} {elements : ι → List α}
    (hnodup : (items.flatMap elements).Nodup) {i j : ι} (hi : i ∈ items) (hj : j ∈ items) {a : α}
    (hai : a ∈ elements i) (haj : a ∈ elements j) : i = j := by
  have hdisjoint := (List.nodup_flatMap.mp hnodup).2
  have : Std.Symm (Function.onFun List.Disjoint elements) :=
    ⟨fun _ _ hab _ hb ha => hab ha hb⟩
  by_contra hne
  exact hdisjoint.forall hi hj hne hai haj

variable {V C : Type} [DecidableEq V]

namespace State

variable {s : State V C} {v u t : V} {g h k : Group V C}

/-- The vertices of all groups, those that are left first. -/
def members (s : State V C) : List V :=
  s.groups.entries.flatMap (fun e => e.2.members) ++ s.removed.flatMap RemovedGroup.members

/-! ## Merging and removing -/

/-- Where the groups after a merge come from. -/
theorem get?_merge (hu : s.groups.get? u = some h)
    (ht : (s.merge v u).groups.get? t = some k) :
    t ≠ u ∧ ∃ g, s.groups.get? t = some g ∧
      k = if t = v then absorb v u g h else redirect v u g := by
  rw [merge, hu, InsertionMap.get?_mapValues, InsertionMap.get?_erase] at ht
  obtain ⟨g, hg, rfl⟩ := Option.map_eq_some_iff.mp ht
  split_ifs at hg with htu
  exact ⟨htu, g, hg, rfl⟩

/-- Where the groups after a removal come from. -/
theorem get?_remove {mayLackColor : Bool} (hv : s.groups.get? v = some g)
    (ht : (s.remove v mayLackColor).groups.get? t = some k) :
    t ≠ v ∧ ∃ g', s.groups.get? t = some g' ∧
      k = { g' with neighbors := g'.neighbors.erase v } := by
  rw [remove, hv, InsertionMap.get?_mapValues, InsertionMap.get?_erase] at ht
  obtain ⟨g', hg', rfl⟩ := Option.map_eq_some_iff.mp ht
  split_ifs at hg' with htv
  exact ⟨htv, g', hg', rfl⟩

theorem get?_merge_of_ne (hu : s.groups.get? u = some h) (hk : s.groups.get? t = some k)
    (htu : t ≠ u) : (s.merge v u).groups.get? t =
      some (if t = v then absorb v u k h else redirect v u k) := by
  simp [merge, hu, htu, hk]

theorem get?_remove_of_ne {mayLackColor : Bool} (hv : s.groups.get? v = some g)
    (hk : s.groups.get? t = some k) (htv : t ≠ v) :
    (s.remove v mayLackColor).groups.get? t =
      some { k with neighbors := k.neighbors.erase v } := by
  simp [remove, hv, htv, hk]

theorem removed_merge (hu : s.groups.get? u = some h) : (s.merge v u).removed = s.removed := by
  simp [merge, hu]

theorem removed_remove {mayLackColor : Bool} (hv : s.groups.get? v = some g) :
    (s.remove v mayLackColor).removed = ⟨v, g.members, g.color, mayLackColor⟩ :: s.removed := by
  simp [remove, hv]

theorem members_redirect : (redirect v u g).members = g.members := by
  unfold redirect
  split_ifs <;> rfl

theorem color_redirect : (redirect v u g).color = g.color := by
  unfold redirect
  split_ifs <;> rfl

theorem copyClass_redirect : (redirect v u g).copyClass = g.copyClass := by
  unfold redirect
  split_ifs <;> rfl

/-- The members of a group stay together when groups are merged. -/
theorem exists_group_merge (hv : s.groups.get? v = some g) (hu : s.groups.get? u = some h)
    (hvu : v ≠ u) (hk : s.groups.get? t = some k) :
    ∃ k', (s.merge v u).groups.get? (if t = u then v else t) = some k' ∧
      ∀ a ∈ k.members, a ∈ k'.members := by
  by_cases htu : t = u
  · subst htu
    obtain rfl := Option.some.inj (hk.symm.trans hu)
    refine ⟨absorb v t g k, ?_, fun a ha => List.mem_append_right _ ha⟩
    rw [if_pos rfl, get?_merge_of_ne hu hv hvu, if_pos rfl]
  · rw [if_neg htu, get?_merge_of_ne hu hk htu]
    refine ⟨_, rfl, fun a ha => ?_⟩
    split_ifs
    · exact List.mem_append_left _ ha
    · rwa [members_redirect]

/-- Merging moves the members of one group to another. -/
theorem perm_members_merge (hv : s.groups.get? v = some g) (hu : s.groups.get? u = some h)
    (hvu : v ≠ u) : (s.merge v u).members.Perm s.members := by
  have hv' : (s.groups.erase u).get? v = some g := by
    rw [InsertionMap.get?_erase, if_neg hvu, hv]
  have hrest := InsertionMap.perm_cons_erase hv'
  have hothers : ∀ e ∈ ((s.groups.erase u).erase v).entries,
      (if e.1 = v then absorb v u e.2 h else redirect v u e.2).members = e.2.members := by
    intro e he
    have hne : e.1 ≠ v := by
      simpa [InsertionMap.erase, InsertionMap.filterKeys] using (List.mem_filter.mp he).2
    rw [if_neg hne, members_redirect]
  have hmerged : ((s.merge v u).groups.entries.flatMap fun e => e.2.members).Perm
      (g.members ++ h.members ++
        ((s.groups.erase u).erase v).entries.flatMap fun e => e.2.members) := by
    simp only [merge, hu, InsertionMap.mapValues, List.flatMap_map]
    refine (hrest.flatMap_right _).trans (.of_eq ?_)
    rw [List.flatMap_cons, if_pos rfl, List.flatMap_congr hothers]
    rfl
  have hbefore : (s.groups.entries.flatMap fun e => e.2.members).Perm
      (h.members ++ (g.members ++
        ((s.groups.erase u).erase v).entries.flatMap fun e => e.2.members)) :=
    ((InsertionMap.perm_cons_erase hu).trans (hrest.cons _)).flatMap_right _
  rw [members, members, removed_merge hu]
  apply List.Perm.append_right
  refine hmerged.trans (List.Perm.trans ?_ hbefore.symm)
  rw [← List.append_assoc]
  exact List.perm_append_comm.append_right _

/-- Removing moves the members of a group out of the graph. -/
theorem perm_members_remove (hv : s.groups.get? v = some g) (mayLackColor : Bool) :
    (s.remove v mayLackColor).members.Perm s.members := by
  have hleft : (s.remove v mayLackColor).groups.entries.flatMap (fun e => e.2.members) =
      (s.groups.erase v).entries.flatMap fun e => e.2.members := by
    simp [remove, hv, InsertionMap.mapValues, List.flatMap_map]
  have hbefore : (s.groups.entries.flatMap fun e => e.2.members).Perm
      (g.members ++ (s.groups.erase v).entries.flatMap fun e => e.2.members) :=
    (InsertionMap.perm_cons_erase hv).flatMap_right _
  rw [members, members, hleft, removed_remove hv, List.flatMap_cons, ← List.append_assoc]
  exact (List.perm_append_comm.trans hbefore.symm).append_right _

theorem size_merge (hu : s.groups.get? u = some h) :
    (s.merge v u).groups.size + 1 = s.groups.size := by
  simp only [merge, hu, InsertionMap.size_mapValues]
  exact InsertionMap.size_erase hu

theorem size_remove (hv : s.groups.get? v = some g) (mayLackColor : Bool) :
    (s.remove v mayLackColor).groups.size + 1 = s.groups.size := by
  simp only [remove, hv, InsertionMap.size_mapValues]
  exact InsertionMap.size_erase hv

/-! ## One step -/

/-- Groups are connected by copies if they are different and have one class. -/
theorem mem_copies : u ∈ s.copies v ↔ u ≠ v ∧ ∃ g h, s.groups.get? v = some g ∧
    s.groups.get? u = some h ∧ h.copyClass = g.copyClass := by
  unfold copies
  cases hg : s.groups.get? v with
  | none => simp
  | some g =>
      simp only [List.mem_map, List.mem_filter, Bool.and_eq_true, decide_eq_true_eq]
      constructor
      · rintro ⟨⟨_, h⟩, ⟨hentry, hne, hclass⟩, rfl⟩
        exact ⟨hne, g, h, rfl, InsertionMap.get?_eq_some_iff.mpr hentry, hclass⟩
      · rintro ⟨hne, g', h, hg', hh, hclass⟩
        obtain rfl := Option.some.inj hg'
        exact ⟨(u, h), ⟨InsertionMap.get?_eq_some_iff.mp hh, hne, hclass⟩, rfl⟩

/-- Two groups are merged only if they are connected by copies, are different and no
neighbors, and if that cannot cost a color. -/
theorem merge?_eq_some {colors : Nat} (hm : s.merge? colors = some (v, u)) :
    ∃ g h, s.groups.get? v = some g ∧ s.groups.get? u = some h ∧ v ≠ u ∧ ¬ u ∈ g.neighbors ∧
      h.copyClass = g.copyClass ∧ s.isSafeMerge colors v u = true := by
  obtain ⟨v', -, hv'⟩ := List.exists_of_findSome?_eq_some hm
  obtain ⟨u', hu', heq⟩ := Option.map_eq_some_iff.mp hv'
  obtain ⟨rfl, rfl⟩ := Prod.mk.inj heq
  have hchosen := List.find?_some hu'
  simp only [Bool.and_eq_true, decide_eq_true_eq] at hchosen
  obtain ⟨happ, hsafe⟩ := hchosen
  obtain ⟨hne, g, h, hg, hh, hclass⟩ := mem_copies.mp (List.mem_of_find?_eq_some hu')
  rw [neighbors, hg] at happ
  exact ⟨g, h, hg, hh, hne.symm, happ, hclass, hsafe⟩

theorem exists_group (hv : v ∈ s.groups.keys.toList) : ∃ g, s.groups.get? v = some g :=
  InsertionMap.mem_iff_exists_get?.mp hv

theorem candidate?_mem (hv : s.candidate? = some v) : v ∈ s.groups.keys.toList := by
  unfold candidate? at hv
  dsimp only at hv
  split at hv
  · next heq =>
    obtain rfl := Option.some.inj hv
    exact List.mem_of_mem_filter (List.minOn?_mem heq)
  · exact List.minOn?_mem hv

theorem candidate?_eq_none (hv : s.candidate? = none) : s.groups.keys.toList = [] := by
  unfold candidate? at hv
  dsimp only at hv
  split at hv
  · simp at hv
  · rw [List.minOn?_eq_if] at hv
    by_contra hne
    simp [hne] at hv

/-- The next step removes the group of `v`, since it has fewer neighbors than there
are colors and no groups can be merged. -/
def Simplifies (colors : Nat) (s : State V C) (v : V) : Prop :=
  s.merge? colors = none ∧ s.simplifiable? colors = some v

/-- The next step removes the group of `v` at the risk that it ends up without a
color, since every group has as many neighbors as there are colors. -/
def Risks (colors : Nat) (s : State V C) (v : V) : Prop :=
  s.merge? colors = none ∧ s.simplifiable? colors = none ∧ s.candidate? = some v

theorem Simplifies.exists_group {colors : Nat} (hv : s.Simplifies colors v) :
    ∃ g, s.groups.get? v = some g :=
  State.exists_group (List.mem_of_find?_eq_some hv.2)

theorem Simplifies.degree_lt {colors : Nat} (hv : s.Simplifies colors v) :
    s.degree v < colors := by
  simpa using List.find?_some hv.2

theorem Risks.exists_group {colors : Nat} (hv : s.Risks colors v) :
    ∃ g, s.groups.get? v = some g :=
  State.exists_group (candidate?_mem hv.2.2)

/-- What a step does, by what it finds. -/
theorem step_choices (s : State V C) (colors : Nat) :
    (∃ v u, s.merge? colors = some (v, u) ∧ s.step colors = s.merge v u) ∨
    (∃ v, s.Simplifies colors v ∧ s.step colors = s.remove v false) ∨
    (∃ v, s.Risks colors v ∧ s.step colors = s.remove v true) ∨
    s.groups.size = 0 ∧ s.step colors = s := by
  unfold step
  split
  · next v u hmerge => exact .inl ⟨v, u, hmerge, rfl⟩
  · next hmerge =>
    split
    · next v hv => exact .inr (.inl ⟨v, ⟨hmerge, hv⟩, rfl⟩)
    · next hsimple =>
      split
      · next v hv => exact .inr (.inr (.inl ⟨v, ⟨hmerge, hsimple, hv⟩, rfl⟩))
      · next hnone =>
        have hempty : s.groups.entries = [] := List.map_eq_nil_iff.mp (candidate?_eq_none hnone)
        exact .inr (.inr (.inr ⟨by simp [InsertionMap.size, hempty], rfl⟩))

/-- A step merges two groups that are no neighbors, or removes a group. It does
nothing only if no group is left. -/
theorem step_cases (s : State V C) (colors : Nat) :
    (∃ v u g h, s.groups.get? v = some g ∧ s.groups.get? u = some h ∧ v ≠ u ∧
      ¬ u ∈ g.neighbors ∧ s.step colors = s.merge v u) ∨
    (∃ v g mayLackColor, s.groups.get? v = some g ∧
      s.step colors = s.remove v mayLackColor) ∨
    s.groups.size = 0 ∧ s.step colors = s := by
  rcases s.step_choices colors with
    ⟨v, u, hmerge, hstep⟩ | ⟨v, hv, hstep⟩ | ⟨v, hv, hstep⟩ | hnone
  · obtain ⟨g, h, hg, hh, hne, hapart, -⟩ := merge?_eq_some hmerge
    exact .inl ⟨v, u, g, h, hg, hh, hne, hapart, hstep⟩
  · obtain ⟨g, hg⟩ := hv.exists_group
    exact .inr (.inl ⟨v, g, false, hg, hstep⟩)
  · obtain ⟨g, hg⟩ := hv.exists_group
    exact .inr (.inl ⟨v, g, true, hg, hstep⟩)
  · exact .inr (.inr hnone)

theorem perm_members_step (s : State V C) (colors : Nat) :
    (s.step colors).members.Perm s.members := by
  rcases s.step_cases colors with
    ⟨v, u, g, h, hv, hu, hne, -, hstep⟩ | ⟨v, g, mayLackColor, hv, hstep⟩ | ⟨-, hstep⟩
  · rw [hstep]
    exact perm_members_merge hv hu hne
  · rw [hstep]
    exact perm_members_remove hv mayLackColor
  · rw [hstep]

theorem size_step (s : State V C) (colors : Nat) :
    (s.step colors).groups.size = s.groups.size - 1 := by
  rcases s.step_cases colors with
    ⟨v, u, g, h, -, hu, -, -, hstep⟩ | ⟨v, g, mayLackColor, hv, hstep⟩ | ⟨hsize, hstep⟩
  · have hsize := size_merge (v := v) hu
    rw [hstep]
    omega
  · have hsize := size_remove hv mayLackColor
    rw [hstep]
    omega
  · rw [hstep]
    omega

/-- Every group, left or removed, has a property of its members and its color. -/
def AllGroups (P : List V → Option C → Prop) (s : State V C) : Prop :=
  (∀ v g, s.groups.get? v = some g → P g.members g.color) ∧
    ∀ g ∈ s.removed, P g.members g.color

/-- A property that passes to a group from the two it was merged from passes from
state to state. -/
theorem AllGroups.step {P : List V → Option C → Prop}
    (hjoin : ∀ l r c d, P l c → P r d → P (l ++ r) (c.or d)) (hs : s.AllGroups P)
    (colors : Nat) : (s.step colors).AllGroups P := by
  obtain ⟨hleft, hremoved⟩ := hs
  rcases s.step_cases colors with
    ⟨v, u, g, h, hv, hu, -, -, hstep⟩ | ⟨v, g, mayLackColor, hv, hstep⟩ | ⟨-, hstep⟩
  · rw [hstep]
    constructor
    · intro t k ht
      obtain ⟨-, g', hg', rfl⟩ := get?_merge hu ht
      split_ifs
      · exact hjoin _ _ _ _ (hleft t g' hg') (hleft u h hu)
      · rw [members_redirect, color_redirect]
        exact hleft t g' hg'
    · rwa [removed_merge hu]
  · rw [hstep]
    constructor
    · intro t k ht
      obtain ⟨-, g', hg', rfl⟩ := get?_remove hv ht
      exact hleft t g' hg'
    · rw [removed_remove hv]
      exact List.forall_mem_cons.mpr ⟨hleft v g hv, hremoved⟩
  · rw [hstep]
    exact ⟨hleft, hremoved⟩

/-- Every group that is left contains the vertex that stands for it. -/
def Headed (s : State V C) : Prop :=
  ∀ v g, s.groups.get? v = some g → v ∈ g.members

theorem Headed.step (hs : s.Headed) (colors : Nat) : (s.step colors).Headed := by
  intro t k ht
  rcases s.step_cases colors with
    ⟨v, u, g, h, -, hu, -, -, hstep⟩ | ⟨v, g, mayLackColor, hv, hstep⟩ | ⟨-, hstep⟩
  · rw [hstep] at ht
    obtain ⟨-, g', hg', rfl⟩ := get?_merge hu ht
    split_ifs
    · exact List.mem_append_left _ (hs t g' hg')
    · rw [members_redirect]
      exact hs t g' hg'
  · rw [hstep] at ht
    obtain ⟨-, g', hg', rfl⟩ := get?_remove hv ht
    exact hs t g' hg'
  · exact hs t k (hstep ▸ ht)

/-! ## Many steps -/

/-- What every step keeps holds after any number of steps. -/
theorem steps_keep {P : State V C → Prop} {colors : Nat}
    (hstep : ∀ s, P s → P (s.step colors)) (hs : P s) (n : Nat) : P (s.steps colors n) := by
  induction n generalizing s with
  | zero => exact hs
  | succ n ih => exact ih (hstep s hs)

theorem Headed.steps (hs : s.Headed) (colors n : Nat) : (s.steps colors n).Headed :=
  steps_keep (fun _ h => h.step colors) hs n

theorem AllGroups.steps {P : List V → Option C → Prop}
    (hjoin : ∀ l r c d, P l c → P r d → P (l ++ r) (c.or d)) (hs : s.AllGroups P)
    (colors n : Nat) : (s.steps colors n).AllGroups P :=
  steps_keep (fun _ h => h.step hjoin colors) hs n

theorem perm_members_steps (s : State V C) (colors n : Nat) :
    (s.steps colors n).members.Perm s.members := by
  induction n generalizing s with
  | zero => exact .refl _
  | succ n ih => exact (ih (s.step colors)).trans (s.perm_members_step colors)

theorem size_steps (s : State V C) (colors n : Nat) :
    (s.steps colors n).groups.size = s.groups.size - n := by
  induction n generalizing s with
  | zero => rfl
  | succ n ih =>
      rw [steps, ih, size_step]
      omega

end State

section Problem

variable [DecidableEq C] {p : ColoringProblem V C} {v : V} {g h : RemovedGroup V C}

theorem members_start (p : ColoringProblem V C) : (start p).members = p.vertices.toList := by
  simp [State.members, start, InsertionMap.ofKeys, List.flatMap_map]

/-- At first every vertex of the graph is a group of its own. -/
theorem eq_of_get?_start {k : Group V C} (hv : (start p).groups.get? v = some k) :
    v ∈ p.vertices ∧ k =
      { members := [v]
        neighbors := p.conflicts.neighbors v
        color := p.fixed.get? v
        copyClass := (p.classes.get? v).getD v } := by
  rw [start, InsertionMap.get?_ofKeys] at hv
  split_ifs at hv with hmem
  exact ⟨hmem, (Option.some.inj hv).symm⟩

theorem headed_stateAfter (p : ColoringProblem V C) (n : Nat) : (stateAfter p n).Headed := by
  refine State.Headed.steps (fun v g hg => ?_) _ n
  obtain ⟨-, rfl⟩ := eq_of_get?_start hg
  exact List.mem_singleton.mpr rfl

theorem perm_members_stateAfter (p : ColoringProblem V C) (n : Nat) :
    (stateAfter p n).members.Perm p.vertices.toList := by
  have hmembers := (start p).perm_members_steps p.allowed.length n
  rwa [members_start] at hmembers

theorem size_stateAfter (p : ColoringProblem V C) (n : Nat) :
    (stateAfter p n).groups.size = p.vertices.size - n := by
  rw [stateAfter, State.size_steps]
  simp [start, InsertionMap.ofKeys, InsertionMap.size, InsertionSet.size]

/-- In the end every group has been removed, and together the groups are the
vertices. -/
theorem perm_removedGroups (p : ColoringProblem V C) :
    ((removedGroups p).flatMap RemovedGroup.members).Perm p.vertices.toList := by
  have hempty : (stateAfter p p.vertices.size).groups.entries = [] := by
    apply List.eq_nil_of_length_eq_zero
    rw [← InsertionMap.size, size_stateAfter, Nat.sub_self]
  have hmembers := perm_members_stateAfter p p.vertices.size
  rwa [State.members, hempty, List.flatMap_nil, List.nil_append] at hmembers

theorem exists_removedGroup (hv : v ∈ p.vertices) : ∃ g ∈ removedGroups p, v ∈ g.members :=
  List.mem_flatMap.mp ((perm_removedGroups p).mem_iff.mpr hv)

theorem mem_vertices_of_mem_members (hg : g ∈ removedGroups p) (hv : v ∈ g.members) :
    v ∈ p.vertices :=
  (perm_removedGroups p).mem_iff.mp (List.mem_flatMap.mpr ⟨g, hg, hv⟩)

theorem removedGroup_unique (hg : g ∈ removedGroups p) (hh : h ∈ removedGroups p)
    (hvg : v ∈ g.members) (hvh : v ∈ h.members) : g = h :=
  eq_of_nodup_flatMap ((perm_removedGroups p).nodup_iff.mpr p.vertices.nodup) hg hh hvg hvh

/-- No vertex is in a group of one part of the list and in one of the other. -/
theorem not_mem_members_of_split {first second : List (RemovedGroup V C)}
    (hsplit : removedGroups p = first ++ second) (hg : g ∈ first) (hh : h ∈ second)
    (hvg : v ∈ g.members) : ¬ v ∈ h.members := by
  have hnodup := (perm_removedGroups p).nodup_iff.mpr p.vertices.nodup
  rw [hsplit, List.flatMap_append] at hnodup
  intro hvh
  exact List.disjoint_of_nodup_append hnodup (List.mem_flatMap.mpr ⟨g, hg, hvg⟩)
    (List.mem_flatMap.mpr ⟨h, hh, hvh⟩)

end Problem

end Lowering.Coloring
