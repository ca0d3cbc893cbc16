import Lowering.Proofs.BlockedVertices
import Lowering.Proofs.CompleteMerging

/-!
# What is kept while a graph is taken apart

At every moment the groups that are left and those that were removed are the classes of
one partition of the vertices, and each of them has one vertex that stands for it. What
is known of a group by that vertex is what its members say: two groups that are left are
neighbors exactly if members of theirs are in conflict, and a group has a color exactly
if a member is pinned to it. Members are connected by copies and never in conflict.
-/

namespace Lowering

variable {V C : Type}

/-- Two vertices cannot share a color: they are neighbors, in whichever direction, or they
are vertices of the graph that are pinned to different colors. -/
def ColoringProblem.InConflict [DecidableEq V] (p : ColoringProblem V C) (a b : V) : Prop :=
  p.Adjacent a b ∨ p.graph.Mentions a ∧ p.graph.Mentions b ∧
    ∃ c d, p.fixed.get? a = some c ∧ p.fixed.get? b = some d ∧ c ≠ d

theorem ColoringProblem.InConflict.symm [DecidableEq V] {p : ColoringProblem V C} {a b : V}
    (h : p.InConflict a b) : p.InConflict b a := by
  rcases h with hadjacent | ⟨ha, hb, c, d, hc, hd, hne⟩
  · exact .inl (Or.symm hadjacent)
  · exact .inr ⟨hb, ha, d, c, hd, hc, hne.symm⟩

namespace Coloring

/-- A group with the vertex that stands for it, be the group left or removed. -/
structure Part (V C : Type) where
  head : V
  members : List V
  color : Option C

namespace State

variable {s : State V C}

/-- All groups of a state, those that are left first. -/
def parts (s : State V C) : List (Part V C) :=
  s.groups.entries.map (fun e => ⟨e.1, e.2.members, e.2.color⟩) ++
    s.removed.map fun g => ⟨g.head, g.members, g.color⟩

/-! ## Groups and the vertices that stand for them -/

theorem flatMap_members_parts (s : State V C) : s.parts.flatMap Part.members = s.members := by
  simp [parts, members, List.flatMap_map]

theorem map_head_parts (s : State V C) :
    s.parts.map Part.head = s.groups.keys.toList ++ s.removed.map RemovedGroup.head := by
  simp [parts, InsertionMap.keys, Function.comp_def]

/-- If no vertex is listed twice and every group contains the vertex that stands for it,
then no vertex stands for two groups. -/
theorem nodup_heads (hnodup : (s.parts.flatMap Part.members).Nodup)
    (hhead : ∀ g ∈ s.parts, g.head ∈ g.members) : (s.parts.map Part.head).Nodup := by
  refine List.pairwise_map.mpr ((List.nodup_flatMap.mp hnodup).2.imp_of_mem ?_)
  intro g h hg hh hdisjoint heq
  exact hdisjoint (hhead g hg) (heq ▸ hhead h hh)

variable [DecidableEq V]

theorem mem_parts_of_group {v : V} {g : Group V C} (hg : s.groups.get? v = some g) :
    ⟨v, g.members, g.color⟩ ∈ s.parts :=
  List.mem_append_left _ (List.mem_map.mpr ⟨(v, g), InsertionMap.get?_eq_some_iff.mp hg, rfl⟩)

/-- What the groups of a state have to do with the graph that is taken apart. -/
structure Represents (p : ColoringProblem V C) (s : State V C) : Prop where
  partition : (s.parts.flatMap Part.members).Perm p.vertices.toList
  heads_once : (s.groups.keys.toList ++ s.removed.map RemovedGroup.head).Nodup
  head_mem : ∀ g ∈ s.parts, g.head ∈ g.members
  head_unique : ∀ g ∈ s.parts, ∀ v ∈ g.members,
    v ∈ s.groups.keys ∨ v ∈ s.removed.map RemovedGroup.head → v = g.head
  neighbors_left : ∀ v u, u ∈ s.neighbors v → v ∈ s.groups.keys ∧ u ∈ s.groups.keys
  joined : ∀ v u g h, s.groups.get? v = some g → s.groups.get? u = some h →
    (u ∈ s.neighbors v ↔ ∃ a ∈ g.members, ∃ b ∈ h.members, p.InConflict a b)
  independent : ∀ g ∈ s.parts, ∀ a ∈ g.members, ∀ b ∈ g.members, ¬ p.InConflict a b
  copies : ∀ g ∈ s.parts, ∀ a ∈ g.members, ∀ b ∈ g.members, p.CopyRelated a b
  color_iff : ∀ g ∈ s.parts, ∀ c, g.color = some c ↔ ∃ a ∈ g.members, p.fixed.get? a = some c
  pins_agree : ∀ g ∈ s.parts, ∀ a ∈ g.members, ∀ b ∈ g.members, ∀ c d,
    p.fixed.get? a = some c → p.fixed.get? b = some d → c = d

section Represents

variable {p : ColoringProblem V C} {v u : V} {g : Group V C}

theorem Represents.headed (hs : s.Represents p) : s.Headed := fun _ _ hg =>
  hs.head_mem _ (mem_parts_of_group hg)

theorem Represents.head_ne (hs : s.Represents p) (hg : s.groups.get? v = some g)
    {r : RemovedGroup V C} (hr : r ∈ s.removed) : r.head ≠ v := by
  have hv : v ∈ s.groups.keys.toList := InsertionMap.mem_iff_exists_get?.mpr ⟨g, hg⟩
  rintro rfl
  exact List.disjoint_of_nodup_append hs.heads_once hv (List.mem_map.mpr ⟨r, hr, rfl⟩)

theorem Represents.neighbors_symm (hs : s.Represents p) (hmem : u ∈ s.neighbors v) :
    v ∈ s.neighbors u := by
  obtain ⟨hv, hu⟩ := hs.neighbors_left v u hmem
  obtain ⟨g, hg⟩ := exists_group hv
  obtain ⟨h, hh⟩ := exists_group hu
  obtain ⟨a, ha, b, hb, hab⟩ := (hs.joined v u g h hg hh).mp hmem
  exact (hs.joined u v h g hh hg).mpr ⟨b, hb, a, ha, hab.symm⟩

theorem Represents.not_mem_self (hs : s.Represents p) : ¬ v ∈ s.neighbors v := by
  intro hmem
  obtain ⟨g, hg⟩ := exists_group (hs.neighbors_left v v hmem).1
  obtain ⟨a, ha, b, hb, hab⟩ := (hs.joined v v g g hg hg).mp hmem
  exact hs.independent _ (mem_parts_of_group hg) a ha b hb hab

end Represents

end State

/-! ## Taking a graph apart -/

variable [DecidableEq V] [DecidableEq C] {p : ColoringProblem V C} {n : Nat} {a b : V}

theorem mem_conflicts_iff : b ∈ p.conflicts.neighbors a ↔ p.InConflict a b := by
  have hmem : ∀ v, v ∈ p.vertices ↔ p.graph.Mentions v := fun v =>
    Relation.mem_keys_symmetricClosure
  constructor
  · intro h
    rcases mem_neighbors_conflicts.mp h with hedge | hpins
    · exact .inl hedge
    · obtain ⟨ha, hb⟩ := mem_vertices_of_mem_conflicts h
      exact .inr ⟨(hmem a).mp ha, (hmem b).mp hb, exists_pins_of_pinnedApart hpins⟩
  · rintro (hedge | ⟨ha, hb, c, d, hc, hd, hne⟩)
    · exact mem_neighbors_conflicts.mpr (.inl hedge)
    · exact mem_conflicts_of_pins ((hmem a).mpr ha) ((hmem b).mpr hb) hc hd hne

/-- Every group was left in the graph at some time, with the members and the color that
it has. -/
theorem exists_group_of_mem_parts {g : Part V C} (hg : g ∈ (stateAfter p n).parts) :
    ∃ m k, (stateAfter p m).groups.get? g.head = some k ∧ g.members = k.members ∧
      g.color = k.color := by
  rcases List.mem_append.mp hg with hg | hg
  · obtain ⟨⟨v, k⟩, hentry, rfl⟩ := List.mem_map.mp hg
    exact ⟨n, k, InsertionMap.get?_eq_some_iff.mpr hentry, rfl, rfl⟩
  · obtain ⟨r, hr, rfl⟩ := List.mem_map.mp hg
    obtain ⟨m, hm⟩ := (State.exists_removes_of_mem hr).resolve_left List.not_mem_nil
    obtain ⟨⟨k, hk, hmembers, hcolor⟩, -⟩ := hm.cases
    exact ⟨m, k, hk, hmembers, hcolor⟩

section Parts

variable {g : Part V C}

theorem perm_members_parts (p : ColoringProblem V C) (n : Nat) :
    ((stateAfter p n).parts.flatMap Part.members).Perm p.vertices.toList := by
  rw [State.flatMap_members_parts]
  exact perm_members_stateAfter p n

theorem head_mem_members (hg : g ∈ (stateAfter p n).parts) : g.head ∈ g.members := by
  obtain ⟨m, k, hk, hmembers, -⟩ := exists_group_of_mem_parts hg
  exact hmembers ▸ headed_stateAfter p m g.head k hk

theorem independent_members (hloop : p.graph.selfLoop? = none) (hg : g ∈ (stateAfter p n).parts) :
    Independent p.conflicts g.members := by
  obtain ⟨m, k, hk, hmembers, -⟩ := exists_group_of_mem_parts hg
  exact hmembers ▸ (sound_stateAfter hloop m).independent g.head k hk

theorem copyRelated_members (hg : g ∈ (stateAfter p n).parts) (ha : a ∈ g.members)
    (hb : b ∈ g.members) : p.CopyRelated a b := by
  obtain ⟨m, k, hk, hmembers, -⟩ := exists_group_of_mem_parts hg
  rw [hmembers] at ha hb
  exact (copyRelated_iff_copyClass_eq hk hk ha hb).mpr rfl

/-- A group has a color exactly if a member is pinned to it. -/
theorem color_eq_some_iff (hloop : p.graph.selfLoop? = none) (hg : g ∈ (stateAfter p n).parts)
    (c : C) : g.color = some c ↔ ∃ a ∈ g.members, p.fixed.get? a = some c := by
  obtain ⟨m, k, hk, hmembers, hcolor⟩ := exists_group_of_mem_parts hg
  have hby : PinnedBy p.fixed g.members g.color :=
    hmembers ▸ hcolor ▸ (sound_stateAfter hloop m).pinned g.head k hk
  have hnoted : Noted p.fixed g.members g.color :=
    hmembers ▸ hcolor ▸ (noted_stateAfter p m).1 g.head k hk
  have hvertices : ∀ a ∈ g.members, a ∈ p.vertices := fun a ha =>
    (perm_members_parts p n).mem_iff.mp (List.mem_flatMap.mpr ⟨g, hg, ha⟩)
  refine ⟨hby c, ?_⟩
  rintro ⟨a, ha, hpin⟩
  exact color_eq_of_pinned hvertices (independent_members hloop hg) hby hnoted ha hpin

end Parts

/-- Groups that are left are neighbors exactly if members of theirs are in conflict. -/
theorem mem_neighbors_iff_inConflict (hloop : p.graph.selfLoop? = none) {v u : V}
    {g h : Group V C} (hg : (stateAfter p n).groups.get? v = some g)
    (hh : (stateAfter p n).groups.get? u = some h) :
    u ∈ (stateAfter p n).neighbors v ↔ ∃ a ∈ g.members, ∃ b ∈ h.members, p.InConflict a b := by
  have hsound := sound_stateAfter hloop n
  simp only [← mem_conflicts_iff]
  constructor
  · intro hmem
    obtain ⟨g', h', hg', hh', hconflict⟩ := joined_stateAfter p n v u hmem
    obtain rfl := Option.some.inj (hg.symm.trans hg')
    obtain rfl := Option.some.inj (hh.symm.trans hh')
    exact hconflict
  · rintro ⟨a, ha, b, hb, hab⟩
    by_cases hvu : v = u
    · subst hvu
      obtain rfl := Option.some.inj (hg.symm.trans hh)
      exact absurd hab (hsound.independent v g hg a ha b hb)
    · rw [State.neighbors_of_group hg]
      exact hsound.adjacent v u g h hg hh hvu a ha b hb hab

/-- The groups represent the graph, at the start and after every step. -/
theorem represents_stateAfter (hloop : p.graph.selfLoop? = none) (n : Nat) :
    (stateAfter p n).Represents p := by
  have hnodup := (perm_members_parts p n).nodup_iff.mpr p.vertices.nodup
  have hhead : ∀ g ∈ (stateAfter p n).parts, g.head ∈ g.members := fun _ => head_mem_members
  constructor
  case partition => exact perm_members_parts p n
  case heads_once =>
    rw [← State.map_head_parts]
    exact State.nodup_heads hnodup hhead
  case head_mem => exact hhead
  case head_unique =>
    intro g hg v hv hstands
    rw [InsertionSet.mem_iff, ← List.mem_append, ← State.map_head_parts] at hstands
    obtain ⟨h, hh, rfl⟩ := List.mem_map.mp hstands
    rw [eq_of_nodup_flatMap hnodup hg hh hv (hhead h hh)]
  case neighbors_left =>
    intro v u hmem
    obtain ⟨g, h, hg, hh, -⟩ := joined_stateAfter p n v u hmem
    exact ⟨InsertionMap.mem_iff_exists_get?.mpr ⟨g, hg⟩,
      InsertionMap.mem_iff_exists_get?.mpr ⟨h, hh⟩⟩
  case joined => exact fun v u g h => mem_neighbors_iff_inConflict hloop
  case independent =>
    intro g hg a ha b hb hab
    exact independent_members hloop hg a ha b hb (mem_conflicts_iff.mpr hab)
  case copies => exact fun g hg a ha b hb => copyRelated_members hg ha hb
  case color_iff => exact fun g => color_eq_some_iff hloop
  case pins_agree =>
    intro g hg a ha b hb c d hc hd
    have hcolor := (color_eq_some_iff hloop hg c).mpr ⟨a, ha, hc⟩
    exact Option.some.inj (hcolor.symm.trans ((color_eq_some_iff hloop hg d).mpr ⟨b, hb, hd⟩))

end Coloring

end Lowering
