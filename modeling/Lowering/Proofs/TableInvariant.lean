import Lowering.Proofs.GroupTables

/-!
# What the tables keep

While a graph is taken apart, the tables represent it. The disjoint sets divide the
vertices, and each of them has exactly one head, the one that the table of heads has for
its root. A head is left, and then a node of the graph of groups, or it is once on the
stack. Heads that are left are joined exactly if vertices of their sets are in conflict,
and a head has a color exactly if a vertex of its set is pinned to it. The vertices of a
set are connected by copies and never in conflict.

Every step takes one head from those that are left, so the loop ends after as many steps
as the graph has vertices, and what is on the stack then leads to the coloring of the
graph.
-/

namespace Lowering.Coloring

variable {V C : Type} [DecidableEq V] {p : ColoringProblem V C}

namespace Tables

variable {t : Tables V C} {s : State V C} {g : Part V C} {x : V}

/-- A vertex stands for a group that is left or removed. -/
def IsHead (t : Tables V C) (v : V) : Prop :=
  v ∈ t.alive ∨ v ∈ t.selectStack

/-- What the tables have to do with the graph that is taken apart. -/
structure Represents (p : ColoringProblem V C) (t : Tables V C) : Prop where
  root_mem : ∀ x ∈ p.vertices, t.groups.root x ∈ p.vertices
  partition : ((t.alive.toList ++ t.selectStack).flatMap (t.members p)).Perm p.vertices.toList
  head : ∀ x ∈ p.vertices, t.IsHead (t.headOf x) ∧ t.groups.root (t.headOf x) = t.groups.root x
  head_unique : ∀ x ∈ p.vertices, ∀ v, t.IsHead v → t.groups.root v = t.groups.root x →
    v = t.headOf x
  heads_once : (t.alive.toList ++ t.selectStack).Nodup
  nodes_eq : t.current.keys = t.alive
  joined : ∀ v u, u ∈ t.current.neighbors v ↔ v ∈ t.alive ∧ u ∈ t.alive ∧
    ∃ a ∈ p.vertices, ∃ b ∈ p.vertices, t.groups.root a = t.groups.root v ∧
      t.groups.root b = t.groups.root u ∧ p.InConflict a b
  independent : ∀ a ∈ p.vertices, ∀ b ∈ p.vertices, t.groups.root a = t.groups.root b →
    ¬ p.InConflict a b
  copyClassOf_eq : ∀ a ∈ p.vertices, ∀ b ∈ p.vertices, t.groups.root a = t.groups.root b →
    t.copyClassOf a = t.copyClassOf b
  copyClassOf_eq_iff : ∀ a ∈ p.vertices, ∀ b ∈ p.vertices,
    t.copyClassOf a = t.copyClassOf b ↔ p.CopyRelated a b
  color_iff : ∀ v, t.IsHead v → ∀ c, t.groupColor v = some c ↔
    ∃ a ∈ p.vertices, t.groups.root a = t.groups.root v ∧ p.fixed.get? a = some c
  pins_agree : ∀ a ∈ p.vertices, ∀ b ∈ p.vertices, t.groups.root a = t.groups.root b →
    ∀ c d, p.fixed.get? a = some c → p.fixed.get? b = some d → c = d

/-! ## Sets and groups -/

theorem Refines.isHead_iff (ht : t.Refines p s) {v : V} :
    t.IsHead v ↔ ∃ g ∈ s.parts, g.head = v := by
  rw [IsHead, InsertionSet.mem_iff, ht.alive_eq, ht.stack_eq, List.mem_reverse, ← List.mem_append,
    ← State.map_head_parts, List.mem_map]

theorem Refines.knows_part (ht : t.Refines p s) (hg : g ∈ s.parts) :
    t.Knows p g.head g.members g.color := by
  rcases List.mem_append.mp hg with hg | hg
  · obtain ⟨⟨v, k⟩, hentry, rfl⟩ := List.mem_map.mp hg
    exact ht.left v k (InsertionMap.get?_eq_some_iff.mpr hentry)
  · obtain ⟨r, hr, rfl⟩ := List.mem_map.mp hg
    exact ht.removed r hr

theorem Refines.headOf_part (ht : t.Refines p s) (hs : s.Represents p) (hg : g ∈ s.parts) :
    g.head ∈ p.vertices ∧ t.headOf g.head = g.head :=
  ((ht.knows_part hg).2 g.head).mp (hs.head_mem g hg)

/-- The members of a group are the vertices in the set of its head. -/
theorem Refines.mem_members_iff (ht : t.Refines p s) (hs : s.Represents p) (hg : g ∈ s.parts) :
    x ∈ g.members ↔ x ∈ p.vertices ∧ t.groups.root x = t.groups.root g.head := by
  rw [(ht.knows_part hg).2 x]
  refine and_congr_right fun hx => ⟨fun heq => ?_, fun heq => ?_⟩
  · rw [← heq, ht.root_headOf x hx]
  · rw [headOf, heq]
    exact (ht.headOf_part hs hg).2

theorem Refines.exists_part (ht : t.Refines p s) (hs : s.Represents p) (hx : x ∈ p.vertices) :
    ∃ g ∈ s.parts, g.head = t.headOf x ∧ x ∈ g.members := by
  obtain ⟨g, hg, hmem⟩ := List.mem_flatMap.mp (hs.partition.mem_iff.mpr hx)
  exact ⟨g, hg, (((ht.knows_part hg).2 x).mp hmem).2.symm, hmem⟩

/-- Vertices in one set are members of one group. -/
theorem Refines.exists_part_of_root_eq (ht : t.Refines p s) (hs : s.Represents p) {a b : V}
    (ha : a ∈ p.vertices) (hb : b ∈ p.vertices) (hroot : t.groups.root a = t.groups.root b) :
    ∃ g ∈ s.parts, a ∈ g.members ∧ b ∈ g.members := by
  obtain ⟨g, hg, -, hmem⟩ := ht.exists_part hs ha
  have hset := (ht.mem_members_iff hs hg).mp hmem
  exact ⟨g, hg, hmem, (ht.mem_members_iff hs hg).mpr ⟨hb, hroot.symm.trans hset.2⟩⟩

theorem Refines.heads_once (ht : t.Refines p s) (hs : s.Represents p) :
    (t.alive.toList ++ t.selectStack).Nodup := by
  rw [ht.alive_eq, ht.stack_eq]
  exact ((List.Perm.append_left _ (List.reverse_perm _)).nodup_iff).mpr hs.heads_once

/-- Dividing vertices by their heads loses none and repeats none. -/
theorem Refines.perm_members (ht : t.Refines p s) (hs : s.Represents p) :
    ((t.alive.toList ++ t.selectStack).flatMap (t.members p)).Perm p.vertices.toList := by
  have hnodup : ((t.alive.toList ++ t.selectStack).flatMap (t.members p)).Nodup := by
    refine List.nodup_flatMap.mpr ⟨fun v _ => p.vertices.nodup.filter _, ?_⟩
    refine (ht.heads_once hs).imp fun hne x hx hx' => hne ?_
    have hhead := of_decide_eq_true (List.mem_filter.mp hx).2
    exact hhead.symm.trans (of_decide_eq_true (List.mem_filter.mp hx').2)
  refine (List.perm_ext_iff_of_nodup hnodup p.vertices.nodup).mpr fun x => ?_
  rw [List.mem_flatMap]
  constructor
  · rintro ⟨v, -, hx⟩
    exact (List.mem_filter.mp hx).1
  · intro hx
    obtain ⟨g, hg, hhead, -⟩ := ht.exists_part hs hx
    refine ⟨t.headOf x, ?_, List.mem_filter.mpr ⟨hx, decide_eq_true rfl⟩⟩
    exact List.mem_append.mpr (ht.isHead_iff.mpr ⟨g, hg, hhead⟩)

theorem Refines.represents (ht : t.Refines p s) (hs : s.Represents p) : t.Represents p := by
  have hone : ∀ a ∈ p.vertices, ∀ b ∈ p.vertices, t.groups.root a = t.groups.root b →
      ∃ g ∈ s.parts, a ∈ g.members ∧ b ∈ g.members := fun a ha b hb =>
    ht.exists_part_of_root_eq hs ha hb
  have hcopies : ∀ a ∈ p.vertices, ∀ b ∈ p.vertices,
      t.copyClassOf a = t.copyClassOf b ↔ p.CopyRelated a b := by
    rw [ht.copyClassOf_eq]
    exact fun a ha b hb => ColoringProblem.root_copySets_eq_iff ha hb
  constructor
  case root_mem => exact ht.root_mem
  case partition => exact ht.perm_members hs
  case head =>
    intro x hx
    obtain ⟨g, hg, hhead, -⟩ := ht.exists_part hs hx
    exact ⟨ht.isHead_iff.mpr ⟨g, hg, hhead⟩, ht.root_headOf x hx⟩
  case head_unique =>
    intro x hx v hv hroot
    obtain ⟨g, hg, rfl⟩ := ht.isHead_iff.mp hv
    rw [headOf, ← hroot]
    exact (ht.headOf_part hs hg).2.symm
  case heads_once => exact ht.heads_once hs
  case nodes_eq => exact ht.nodes_eq
  case joined =>
    intro v u
    have hmembers : ∀ w k, s.groups.get? w = some k → ∀ x,
        x ∈ k.members ↔ x ∈ p.vertices ∧ t.groups.root x = t.groups.root w := fun w k hk x =>
      ht.mem_members_iff hs (State.mem_parts_of_group hk)
    rw [ht.neighbors, ht.mem_alive_iff, ht.mem_alive_iff]
    constructor
    · intro hmem
      obtain ⟨g, hg⟩ := State.exists_group (hs.neighbors_left v u hmem).1
      obtain ⟨h, hh⟩ := State.exists_group (hs.neighbors_left v u hmem).2
      obtain ⟨a, ha, b, hb, hab⟩ := (hs.joined v u g h hg hh).mp hmem
      obtain ⟨hav, hroota⟩ := (hmembers v g hg a).mp ha
      obtain ⟨hbv, hrootb⟩ := (hmembers u h hh b).mp hb
      exact ⟨⟨g, hg⟩, ⟨h, hh⟩, a, hav, b, hbv, hroota, hrootb, hab⟩
    · rintro ⟨⟨g, hg⟩, ⟨h, hh⟩, a, ha, b, hb, hroota, hrootb, hab⟩
      exact (hs.joined v u g h hg hh).mpr ⟨a, (hmembers v g hg a).mpr ⟨ha, hroota⟩, b,
        (hmembers u h hh b).mpr ⟨hb, hrootb⟩, hab⟩
  case independent =>
    intro a ha b hb hroot
    obtain ⟨g, hg, hag, hbg⟩ := hone a ha b hb hroot
    exact hs.independent g hg a hag b hbg
  case copyClassOf_eq =>
    intro a ha b hb hroot
    obtain ⟨g, hg, hag, hbg⟩ := hone a ha b hb hroot
    exact (hcopies a ha b hb).mpr (hs.copies g hg a hag b hbg)
  case copyClassOf_eq_iff => exact hcopies
  case color_iff =>
    intro v hv c
    obtain ⟨g, hg, rfl⟩ := ht.isHead_iff.mp hv
    rw [(ht.knows_part hg).1, hs.color_iff g hg c]
    simp only [ht.mem_members_iff hs hg, and_assoc]
  case pins_agree =>
    intro a ha b hb hroot
    obtain ⟨g, hg, hag, hbg⟩ := hone a ha b hb hroot
    exact hs.pins_agree g hg a hag b hbg

end Tables

/-! ## The coloring -/

section Assignment

variable {groups : List (RemovedGroup V C)} {v : V} {c : C}

theorem get?_pinned_eq_some_iff (hsame : ∀ g ∈ groups, ∀ h ∈ groups, v ∈ g.members →
      v ∈ h.members → g.color = h.color) :
    (pinned groups).get? v = some c ↔ ∃ g ∈ groups, v ∈ g.members ∧ g.color = some c := by
  refine ⟨exists_group_of_pinned, ?_⟩
  rintro ⟨g, hg, hv, hc⟩
  exact get?_pinned (fun h hh hvh => (hsame h hh g hg hvh hv).trans hc) ⟨g, hg, hv⟩

/-- The colors of the pinned groups do not depend on the order of the groups, nor on that of
their members. -/
theorem get?_pinned_congr {f : RemovedGroup V C → RemovedGroup V C}
    (hsame : ∀ x, ∀ g ∈ groups, ∀ h ∈ groups, x ∈ g.members → x ∈ h.members → g.color = h.color)
    (hcolor : ∀ g ∈ groups, (f g).color = g.color)
    (hmembers : ∀ g ∈ groups, ∀ x, x ∈ (f g).members ↔ x ∈ g.members) (x : V) :
    (pinned (groups.map f).reverse).get? x = (pinned groups).get? x := by
  have hexists : ∀ c, (∃ g ∈ (groups.map f).reverse, x ∈ g.members ∧ g.color = some c) ↔
      ∃ g ∈ groups, x ∈ g.members ∧ g.color = some c := by
    intro c
    simp only [List.mem_reverse, List.mem_map, exists_exists_and_eq_and]
    refine exists_congr fun g => and_congr_right fun hg => ?_
    rw [hmembers g hg, hcolor g hg]
  refine Option.ext fun c => ?_
  rw [get?_pinned_eq_some_iff (hsame x), get?_pinned_eq_some_iff, hexists]
  simp only [List.mem_reverse, List.forall_mem_map]
  intro g hg h hh hxg hxh
  rw [hcolor g hg, hcolor h hh]
  exact hsame x g hg h hh ((hmembers g hg x).mp hxg) ((hmembers h hh x).mp hxh)

variable [DecidableEq C] {conflicts : Relation V} {allowed : List C}

/-- The colors depend on which vertices a group has, not on their order. -/
theorem get?_colorGroup_congr {g h : RemovedGroup V C} {colors colors' : InsertionMap V C}
    (hcolor : g.color = h.color) (hmembers : ∀ x, x ∈ g.members ↔ x ∈ h.members)
    (hcolors : ∀ x, colors.get? x = colors'.get? x) (x : V) :
    (colorGroup conflicts allowed colors g).get? x =
      (colorGroup conflicts allowed colors' h).get? x := by
  have htaken : ∀ c, c ∈ taken conflicts colors g.members ↔
      c ∈ taken conflicts colors' h.members := by
    intro c
    simp only [taken, List.mem_flatMap, List.mem_filterMap, hmembers, hcolors]
  unfold colorGroup
  rw [hcolor]
  cases h.color with
  | some d => exact hcolors x
  | none =>
      simp only [htaken]
      cases allowed.find? fun c => decide (¬ c ∈ taken conflicts colors' h.members) with
      | none => exact hcolors x
      | some d => simp only [get?_paint, hmembers, hcolors]

theorem get?_foldl_colorGroup_congr {f : RemovedGroup V C → RemovedGroup V C}
    {colors colors' : InsertionMap V C}
    (hcolor : ∀ g ∈ groups, (f g).color = g.color)
    (hmembers : ∀ g ∈ groups, ∀ x, x ∈ (f g).members ↔ x ∈ g.members)
    (hcolors : ∀ x, colors.get? x = colors'.get? x) (x : V) :
    ((groups.map f).foldl (colorGroup conflicts allowed) colors).get? x =
      (groups.foldl (colorGroup conflicts allowed) colors').get? x := by
  induction groups generalizing colors colors' with
  | nil => exact hcolors x
  | cons g groups ih =>
      rw [List.forall_mem_cons] at hcolor hmembers
      exact ih hcolor.2 hmembers.2 (get?_colorGroup_congr hcolor.1 hmembers.1 hcolors)

end Assignment

namespace Tables

variable {t : Tables V C} {s : State V C}

theorem Refines.mem_group (ht : t.Refines p s) {r : RemovedGroup V C} (hr : r ∈ s.removed) (x : V) :
    x ∈ (t.group p r.head).members ↔ x ∈ r.members := by
  rw [(ht.removed r hr).2 x]
  exact List.mem_filter.trans (and_congr_right fun _ => decide_eq_true_iff)

theorem Refines.removed_eq (ht : t.Refines p s) :
    t.removed p = (s.removed.map fun r => t.group p r.head).reverse := by
  rw [Tables.removed, ht.stack_eq, List.map_reverse, List.map_map]
  rfl

variable [DecidableEq C]

/-- The groups on the stack get the colors of the groups that were removed. -/
theorem Refines.get?_assign (ht : t.Refines p (stateAfter p p.vertices.size)) (x : V) :
    (t.assign p).get? x = (Coloring.assign p).get? x := by
  have hcolor : ∀ r ∈ removedGroups p, (t.group p r.head).color = r.color := fun r hr =>
    (ht.removed r hr).1
  have hmembers : ∀ r ∈ removedGroups p, ∀ x, x ∈ (t.group p r.head).members ↔ x ∈ r.members :=
    fun r => ht.mem_group
  have hpinned := get?_pinned_congr
    (fun x g hg h hh hxg hxh => removedGroup_unique hg hh hxg hxh ▸ rfl) hcolor hmembers
  rw [assign, ht.removed_eq, List.reverse_reverse]
  exact get?_foldl_colorGroup_congr hcolor hmembers hpinned x

/-- Coloring by way of the tables gives the same colors. -/
theorem firstFit_eq (p : ColoringProblem V C) : Tables.firstFit p = Coloring.firstFit p := by
  unfold Tables.firstFit Coloring.firstFit
  cases hloop : p.graph.selfLoop? with
  | some v => rfl
  | none =>
      have hassign := funext (refines_after hloop p.vertices.size).get?_assign
      have hend : ((start p).takeApart p.allowed.length).2 = after p p.vertices.size := by
        rw [takeApart_eq]
        rfl
      simp only [hend, hassign]

/-- A problem is refused for a vertex that is its own neighbor. Any other graph is
represented by the tables, at the start and after every step. Every step takes one head
from those that are left, so the loop ends after as many steps as the graph has vertices.
What the tables then lead to is the coloring of the graph. -/
theorem tables_represent_graph (p : ColoringProblem V C) :
    Tables.firstFit p = Coloring.firstFit p ∧
    ((∃ loop, Coloring.firstFit p = .error loop ∧
      loop.vertex ∈ p.graph.neighbors loop.vertex) ∨
    (∀ n, (after p n).Represents p) ∧
    (∀ n < p.vertices.size, ∃ v ∈ (after p n).alive,
      (after p (n + 1)).alive = (after p n).alive.erase v) ∧
    (start p).takeApart p.allowed.length = (p.vertices.size, after p p.vertices.size)) := by
  refine ⟨firstFit_eq p, ?_⟩
  cases hloop : p.graph.selfLoop? with
  | some v =>
      exact .inl ⟨⟨v⟩, firstFit_eq_error_iff.mpr hloop,
        Relation.mem_neighbors_of_selfLoop? hloop⟩
  | none =>
      refine .inr ⟨fun n => ?_, fun n hn => ?_, takeApart_eq _ _⟩
      · exact (refines_after hloop n).represents (represents_stateAfter hloop n)
      · have hsize := size_alive_after p (Nat.le_of_lt hn)
        have hpos : 0 < (after p n).alive.size := by omega
        rw [after_succ]
        exact exists_alive_step _ _ (List.ne_nil_of_length_pos hpos)

/-- Three vertices that copies connect one after the other, the first of them pinned, and
two more that are neighbors of some of them. -/
def chainedCopies : ColoringProblem Nat Nat :=
  { graph := (((Relation.addArc ∅ 0 3).addArc 0 4).addArc 1 4).addArc 2 3
    coalesce := (Relation.addArc ∅ 0 1).addArc 1 2
    fixed := InsertionMap.insert ∅ 0 7
    allowed := [7] }

/-- Vertex 0 is merged into 1, and then 1 into 2. The root of the three is 1 both times, so
the table of heads has to change for it: with the entry it had before the second step, the
tables no longer represent the graph. -/
theorem chainedCopies_represented :
    (after chainedCopies 2).alive.toList = [3, 4, 2] ∧
    [0, 1, 2].map (after chainedCopies 2).groups.root = [1, 1, 1] ∧
    [0, 1, 2].map (after chainedCopies 2).headOf = [2, 2, 2] ∧
    (after chainedCopies 2).groupColor 2 = some 7 ∧
    (after chainedCopies 2).Represents chainedCopies ∧
    ¬ Represents chainedCopies
      { after chainedCopies 2 with groupHead := (after chainedCopies 1).groupHead } ∧
    ((start chainedCopies).takeApart 1).1 = 5 := by
  rcases (tables_represent_graph chainedCopies).2 with ⟨loop, hloop, -⟩ | ⟨hall, -, hends⟩
  · have hok : (Coloring.firstFit chainedCopies).isOk = true := by decide +kernel
    simp [hloop, Except.isOk, Except.toBool] at hok
  · refine ⟨by decide +kernel, by decide +kernel, by decide +kernel, by decide +kernel, hall 2,
      fun hstale => ?_, ?_⟩
    · have hhead := (hstale.head 0 (by decide +kernel)).1
      unfold IsHead at hhead
      revert hhead
      decide +kernel
    · exact (congrArg Prod.fst hends).trans (by decide +kernel)

end Tables

end Lowering.Coloring
