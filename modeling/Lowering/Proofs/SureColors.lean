import Lowering.Proofs.GroupGraph
import Lowering.Proofs.PinnedColoring
import Lowering.Proofs.RemovalOrder
import Mathlib.Data.List.Perm.Subperm

/-!
# Groups that are sure of a color

When the turn of a group without a pin comes, colors are taken by two kinds of
groups: the neighbors that it had when it was removed, which have their colors by
then, and the pinned groups removed before it, which have theirs from the start.
If these rivals are fewer than the colors, one color is left.

Having few neighbors at the time of removal is not enough. A pinned group may be
removed first, so that it is no neighbor any more, and still take a color.
-/

namespace Lowering.Coloring

variable {V C : Type} [DecidableEq V]

/-! ## Groups have one color -/

section Uniform

variable {groups part : List (RemovedGroup V C)} {colors : InsertionMap V C}

/-- The members of each group have the same color, or none has one. -/
def Uniform (groups : List (RemovedGroup V C)) (colors : InsertionMap V C) : Prop :=
  ∀ g ∈ groups, ∀ a ∈ g.members, ∀ b ∈ g.members, colors.get? a = colors.get? b

variable
  (hunique : ∀ g ∈ groups, ∀ h ∈ groups, ∀ v, v ∈ g.members → v ∈ h.members → g = h)

include hunique

theorem uniform_pinned : Uniform groups (pinned groups) := by
  intro g hg a ha b hb
  have hcolor : ∀ v ∈ g.members, (pinned groups).get? v = g.color := by
    intro v hv
    cases hc : g.color with
    | some c => exact get?_pinned (fun h hh hvh => hunique g hg h hh v hv hvh ▸ hc) ⟨g, hg, hv⟩
    | none =>
        apply Option.eq_none_iff_forall_ne_some.mpr
        intro c hsome
        obtain ⟨h, hh, hvh, hhc⟩ := exists_group_of_pinned hsome
        rw [← hunique g hg h hh v hv hvh, hc] at hhc
        exact absurd hhc (by simp)
  rw [hcolor a ha, hcolor b hb]

variable [DecidableEq C] {conflicts : Relation V} {allowed : List C}

theorem Uniform.colorGroup (hcolors : Uniform groups colors) {g : RemovedGroup V C}
    (hg : g ∈ groups) :
    Uniform groups (colorGroup conflicts allowed colors g) := by
  intro h hh a ha b hb
  have hsame : a ∈ g.members ↔ b ∈ g.members :=
    ⟨fun hag => hunique h hh g hg a ha hag ▸ hb, fun hbg => hunique h hh g hg b hb hbg ▸ ha⟩
  unfold Coloring.colorGroup
  split
  · exact hcolors h hh a ha b hb
  · split
    · rw [get?_paint, get?_paint, if_congr hsame rfl (hcolors h hh a ha b hb)]
    · exact hcolors h hh a ha b hb

theorem Uniform.foldl_colorGroup (hcolors : Uniform groups colors)
    (hpart : ∀ g ∈ part, g ∈ groups) :
    Uniform groups (part.foldl (Coloring.colorGroup conflicts allowed) colors) := by
  induction part generalizing colors with
  | nil => exact hcolors
  | cons g part ih =>
      rw [List.forall_mem_cons] at hpart
      exact ih (hcolors.colorGroup hunique hpart.1) hpart.2

end Uniform

/-! ## Free colors -/

section Free

variable [DecidableEq C] {conflicts : Relation V} {allowed : List C} {colors : InsertionMap V C}
  {g : RemovedGroup V C} {v : V} {c : C}

omit [DecidableEq C] in
theorem exists_of_mem_taken {members : List V} (hc : c ∈ taken conflicts colors members) :
    ∃ a ∈ members, ∃ b ∈ conflicts.neighbors a, colors.get? b = some c := by
  obtain ⟨a, ha, hc⟩ := List.mem_flatMap.mp hc
  obtain ⟨b, hb, hc⟩ := List.mem_filterMap.mp hc
  exact ⟨a, ha, b, hb, hc⟩

theorem exists_get?_colorGroup (hnone : g.color = none)
    (hfree : ∃ c ∈ allowed, ¬ c ∈ taken conflicts colors g.members) (hv : v ∈ g.members) :
    ∃ c, (colorGroup conflicts allowed colors g).get? v = some c := by
  obtain ⟨c, hc, hnot⟩ := hfree
  have hfound : (allowed.find? fun c => decide (¬ c ∈ taken conflicts colors g.members)).isSome :=
    List.find?_isSome.mpr ⟨c, hc, by simpa using hnot⟩
  obtain ⟨d, hd⟩ := Option.isSome_iff_exists.mp hfound
  exact ⟨d, by simp only [colorGroup, hnone, hd, get?_paint, if_pos hv]⟩

/-- A vertex keeps its color, or at least has one. -/
theorem exists_get?_foldl_colorGroup (hc : colors.get? v = some c)
    (groups : List (RemovedGroup V C)) :
    ∃ d, (groups.foldl (colorGroup conflicts allowed) colors).get? v = some d := by
  rcases get?_foldl_colorGroup groups colors v with hkept | ⟨-, d, -, hd⟩
  · exact ⟨c, hkept.trans hc⟩
  · exact ⟨d, hd⟩

end Free

/-! ## The rivals of a group -/

/-- The pinned groups removed so far that are in conflict with some vertices. -/
def State.pinsAgainst (conflicts : Relation V) (s : State V C) (members : List V) :
    List (RemovedGroup V C) :=
  s.removed.filter fun h => h.color.isSome &&
    h.members.any fun b => members.any fun a => decide (b ∈ conflicts.neighbors a)

section Problem

variable [DecidableEq C] {p : ColoringProblem V C} {n : Nat} {g : RemovedGroup V C} {v : V}

/-- The number of groups that may take a color from a group that step `n` removes:
its neighbors at that time, and the pinned groups in conflict with it that were
removed before. -/
def rivals (p : ColoringProblem V C) (n : Nat) (g : RemovedGroup V C) : Nat :=
  (stateAfter p n).degree g.head + ((stateAfter p n).pinsAgainst p.conflicts g.members).length

/-- The colors given so far when the groups of the list have had their turns. -/
def colorsAfter (p : ColoringProblem V C) (groups : List (RemovedGroup V C)) : InsertionMap V C :=
  groups.foldl (colorGroup p.conflicts p.allowed) (pinned (removedGroups p))

theorem uniform_colorsAfter (part : List (RemovedGroup V C))
    (hpart : ∀ g ∈ part, g ∈ removedGroups p) : Uniform (removedGroups p) (colorsAfter p part) := by
  have hunique : ∀ g ∈ removedGroups p, ∀ h ∈ removedGroups p, ∀ v,
      v ∈ g.members → v ∈ h.members → g = h :=
    fun _ hg _ hh _ => removedGroup_unique hg hh
  exact (uniform_pinned hunique).foldl_colorGroup hunique hpart

/-- The members of a group have one color in the end, or none of them has one. -/
theorem get?_assign_eq {a b : V} (hg : g ∈ removedGroups p) (ha : a ∈ g.members)
    (hb : b ∈ g.members) : (assign p).get? a = (assign p).get? b :=
  uniform_colorsAfter (removedGroups p) (fun _ => id) g hg a ha b hb

/-- A vertex removed before a group has a color at the turn of the group only if it
is in a pinned group. -/
theorem mem_pinsAgainst {later : List (RemovedGroup V C)} {h : RemovedGroup V C} {a b : V} {c : C}
    (hsplit : removedGroups p = later ++ g :: (stateAfter p n).removed)
    (hh : h ∈ (stateAfter p n).removed) (hb : b ∈ h.members)
    (hc : (colorsAfter p later).get? b = some c) (ha : a ∈ g.members)
    (hab : b ∈ p.conflicts.neighbors a) :
    h ∈ (stateAfter p n).pinsAgainst p.conflicts g.members ∧ h.color = some c := by
  have hmem : h ∈ removedGroups p := by simp [hsplit, hh]
  have hcolor : h.color = some c := by
    rcases get?_foldl_colorGroup later (pinned (removedGroups p)) b with
      hkept | ⟨⟨g', hg', hb', -⟩, -⟩
    · obtain ⟨h', hh', hb', hcolor⟩ := exists_group_of_pinned (hkept.symm.trans hc)
      exact removedGroup_unique hmem hh' hb hb' ▸ hcolor
    · exact absurd hb (not_mem_members_of_split hsplit hg' (List.mem_cons_of_mem g hh) hb')
  refine ⟨List.mem_filter.mpr ⟨hh, ?_⟩, hcolor⟩
  simp only [hcolor, Option.isSome_some, Bool.true_and, List.any_eq_true, decide_eq_true_eq]
  exact ⟨b, hb, a, ha, hab⟩

/-- The colors that the rivals of a group have when its turn comes. -/
def rivalColors (p : ColoringProblem V C) (n : Nat) (g : RemovedGroup V C)
    (colors : InsertionMap V C) : List C :=
  ((stateAfter p n).neighbors g.head).toList.filterMap colors.get? ++
    ((stateAfter p n).pinsAgainst p.conflicts g.members).filterMap RemovedGroup.color

theorem length_rivalColors_le (colors : InsertionMap V C) :
    (rivalColors p n g colors).length ≤ rivals p n g := by
  rw [rivalColors, List.length_append]
  exact Nat.add_le_add (List.length_filterMap_le _ _) (List.length_filterMap_le _ _)

/-- Whatever color is taken when the turn of a group comes, a rival has it. -/
theorem mem_rivalColors_of_mem_taken {later : List (RemovedGroup V C)} {c : C}
    (hloop : p.graph.selfLoop? = none) (hg : (stateAfter p n).Removes p.allowed.length g)
    (hsplit : removedGroups p = later ++ g :: (stateAfter p n).removed)
    (hc : c ∈ taken p.conflicts (colorsAfter p later) g.members) :
    c ∈ rivalColors p n g (colorsAfter p later) := by
  obtain ⟨a, ha, b, hab, hb⟩ := exists_of_mem_taken hc
  obtain ⟨⟨k, hk, hmembers, -⟩, -⟩ := hg.cases
  have hsound := sound_stateAfter hloop n
  have hmem : b ∈ (stateAfter p n).members :=
    (perm_members_stateAfter p n).mem_iff.mpr (mem_vertices_of_mem_conflicts hab).2
  rw [rivalColors, List.mem_append, List.mem_filterMap, List.mem_filterMap]
  rcases List.mem_append.mp hmem with hleft | hremoved
  · obtain ⟨⟨t, m⟩, hentry, hbm⟩ := List.mem_flatMap.mp hleft
    have hm := InsertionMap.get?_eq_some_iff.mpr hentry
    have hne : g.head ≠ t := by
      rintro rfl
      obtain rfl := Option.some.inj (hk.symm.trans hm)
      exact hsound.independent _ k hk a (hmembers ▸ ha) b hbm hab
    have hneighbor := hsound.adjacent _ t k m hk hm hne a (hmembers ▸ ha) b hbm hab
    obtain ⟨h, hh, hsub⟩ := exists_removedGroup_of_group hm
    have hsame := uniform_colorsAfter later (fun g' hg' => by simp [hsplit, hg']) h hh
      t (hsub t (headed_stateAfter p n t m hm)) b (hsub b hbm)
    refine .inl ⟨t, ?_, hsame.trans hb⟩
    rwa [State.neighbors_of_group hk]
  · obtain ⟨h, hh, hbh⟩ := List.mem_flatMap.mp hremoved
    exact .inr ⟨h, mem_pinsAgainst hsplit hh hbh hb ha hab⟩

/-- A group with fewer rivals than there are colors gets a color. -/
theorem exists_color_of_rivals_lt (hloop : p.graph.selfLoop? = none) (hnodup : p.allowed.Nodup)
    (hg : (stateAfter p n).Removes p.allowed.length g) (hnone : g.color = none)
    (hrivals : rivals p n g < p.allowed.length) (hv : v ∈ g.members) :
    ∃ c, (assign p).get? v = some c := by
  obtain ⟨later, hsplit⟩ := removedGroups_split hg
  have hfree : ∃ c ∈ p.allowed, ¬ c ∈ taken p.conflicts (colorsAfter p later) g.members := by
    by_contra hall
    push Not at hall
    have hsub : p.allowed ⊆ rivalColors p n g (colorsAfter p later) := fun c hc =>
      mem_rivalColors_of_mem_taken hloop hg hsplit (hall c hc)
    have hlength := (List.subperm_of_subset hnodup hsub).length_le
    exact absurd (hlength.trans (length_rivalColors_le _)) (Nat.not_le.mpr hrivals)
  obtain ⟨c, hc⟩ := exists_get?_colorGroup hnone hfree hv
  have hassign : assign p = (stateAfter p n).removed.foldl (colorGroup p.conflicts p.allowed)
      (colorGroup p.conflicts p.allowed (colorsAfter p later) g) := by
    rw [colorsAfter, ← List.foldl_cons, ← List.foldl_append, ← hsplit]
    rfl
  rw [hassign]
  exact exists_get?_foldl_colorGroup hc _

/-- A group gets a color if it is pinned or has fewer rivals than there are colors. A
vertex without a color therefore belongs to a group without a pin that was removed
at the risk of that, or whose rivals are at least as many as the colors, although its
neighbors were fewer: some of them are pinned groups that were removed before. -/
theorem firstFit_lacks_color_only_if_outnumbered (p : ColoringProblem V C)
    (hloop : ¬ ∃ v, v ∈ p.graph.neighbors v) (hnodup : p.allowed.Nodup) :
    ∃ colors, firstFit p = .ok colors ∧
      (∀ n g, (stateAfter p n).Removes p.allowed.length g →
        g.color.isSome ∨ rivals p n g < p.allowed.length → ∀ v ∈ g.members, v ∈ colors) ∧
      ∀ v, p.graph.Mentions v → ¬ v ∈ colors →
        ∃ n g, v ∈ g.members ∧ g.color = none ∧ (stateAfter p n).Removes p.allowed.length g ∧
          ((stateAfter p n).Risks p.allowed.length g.head ∨
            (stateAfter p n).Simplifies p.allowed.length g.head ∧
              p.allowed.length ≤ rivals p n g ∧
              (stateAfter p n).pinsAgainst p.conflicts g.members ≠ []) := by
  have hnoloop := Relation.selfLoop?_eq_none_iff.mpr hloop
  obtain ⟨colors, hok⟩ := exists_firstFit_eq_ok hnoloop
  have hcolored : ∀ v, v ∈ colors ↔ v ∈ p.vertices ∧ ∃ c, (assign p).get? v = some c := by
    intro v
    simp only [InsertionMap.mem_iff_exists_get?, (firstFit_eq_ok hok).2, exists_and_left]
  have hsure : ∀ n g, (stateAfter p n).Removes p.allowed.length g →
      g.color.isSome ∨ rivals p n g < p.allowed.length → ∀ v ∈ g.members, v ∈ colors := by
    intro n g hg hrivals v hv
    have hmem := mem_removedGroups_of_removes hg
    refine (hcolored v).mpr ⟨mem_vertices_of_mem_members hmem hv, ?_⟩
    cases hc : g.color with
    | some c => exact ⟨c, TakesPin.get?_assign ⟨g, hmem, hv, hc⟩⟩
    | none => exact exists_color_of_rivals_lt hnoloop hnodup hg hc (by simpa [hc] using hrivals) hv
  refine ⟨colors, hok, hsure, fun v hv hnot => ?_⟩
  obtain ⟨g, hmem, hvg⟩ := exists_removedGroup (Relation.mem_keys_symmetricClosure.mpr hv)
  obtain ⟨n, hg⟩ := exists_removes hmem
  have hfew : ¬ (g.color.isSome ∨ rivals p n g < p.allowed.length) := fun h =>
    hnot (hsure n g hg h v hvg)
  rw [not_or, Nat.not_lt] at hfew
  refine ⟨n, g, hvg, by simpa using hfew.1, hg, ?_⟩
  rcases hg.cases.2 with ⟨hsimple, -⟩ | ⟨hrisk, -⟩
  · refine .inr ⟨hsimple, hfew.2, fun hnil => ?_⟩
    have hdegree := hsimple.degree_lt
    simp only [rivals, hnil, List.length_nil] at hfew
    omega
  · exact .inl hrisk

end Problem

/-- A path of three vertices, the first of which is pinned to the second color. -/
def pinnedEnd : ColoringProblem Nat Nat :=
  { graph := (Relation.addArc ∅ 0 1).addArc 1 2
    coalesce := ∅
    fixed := InsertionMap.insert ∅ 0 8
    allowed := [7, 8] }

/-- The last vertex of the path takes the first color, so none is left for the one in
the middle, which had a single neighbor when it was removed. -/
theorem pinnedEnd_lacks_color :
    (¬ ∃ v, v ∈ pinnedEnd.graph.neighbors v) ∧ pinnedEnd.allowed.Nodup ∧ pinnedEnd.PinsApart ∧
      ∃ colors, firstFit pinnedEnd = .ok colors ∧ pinnedEnd.graph.Mentions 1 ∧ ¬ 1 ∈ colors ∧
        (∃ n g, 1 ∈ g.members ∧ (stateAfter pinnedEnd n).Removes pinnedEnd.allowed.length g ∧
          (stateAfter pinnedEnd n).Simplifies pinnedEnd.allowed.length g.head) ∧
        ¬ ∃ n g, 1 ∈ g.members ∧ (stateAfter pinnedEnd n).Removes pinnedEnd.allowed.length g ∧
          (stateAfter pinnedEnd n).Risks pinnedEnd.allowed.length g.head := by
  have hloop : pinnedEnd.graph.selfLoop? = none := by decide +kernel
  have hpin : ∀ v c, pinnedEnd.fixed.get? v = some c ↔ v = 0 ∧ c = 8 := by
    intro v c
    simp [pinnedEnd, InsertionMap.get?_insert, eq_comm]
  have hpins : pinnedEnd.PinsApart := by
    constructor
    · intro a _ b _ c ha hb
      exact ((hpin a c).mp ha).1.trans ((hpin b c).mp hb).1.symm
    · intro v _ c hc
      simp [((hpin v c).mp hc).2, pinnedEnd]
  obtain ⟨colors, hok⟩ := exists_firstFit_eq_ok hloop
  have hlacks : ¬ 1 ∈ colors := by
    have hnone : (assign pinnedEnd).get? 1 = none := by decide +kernel
    rw [InsertionMap.mem_iff_exists_get?]
    rintro ⟨c, hc⟩
    rw [(firstFit_eq_ok hok).2, hnone] at hc
    simp at hc
  refine ⟨Relation.selfLoop?_eq_none_iff.mp hloop, by decide, hpins, colors, hok,
    .inl (by decide), hlacks, ?_, ?_⟩
  · have hstep : (stateAfter pinnedEnd 1).Removes 2 ⟨1, [1], none, false⟩ := by
      unfold State.Removes
      decide +kernel
    refine ⟨1, _, by simp, hstep, ?_⟩
    exact (hstep.cases.2.resolve_right (by simp)).1
  · rintro ⟨n, g, -, hg, hrisk⟩
    have hsafe : ∀ g ∈ removedGroups pinnedEnd, g.mayLackColor = false := by decide +kernel
    rcases hg.cases.2 with ⟨hsimple, -⟩ | ⟨-, hflag⟩
    · exact absurd (hrisk.2.1.symm.trans hsimple.2) (by simp)
    · rw [hsafe g (mem_removedGroups_of_removes hg)] at hflag
      exact absurd hflag (by simp)

theorem pinnedEnd_colors_last :
    (¬ ∃ v, v ∈ pinnedEnd.graph.neighbors v) ∧ pinnedEnd.allowed.Nodup ∧
      rivals pinnedEnd 2 ⟨2, [2], none, false⟩ = 0 ∧
      ∃ colors, firstFit pinnedEnd = .ok colors ∧ 2 ∈ colors := by
  have hloop : ¬ ∃ v, v ∈ pinnedEnd.graph.neighbors v :=
    Relation.selfLoop?_eq_none_iff.mp (by decide +kernel)
  have hrivals : rivals pinnedEnd 2 ⟨2, [2], none, false⟩ = 0 := by decide +kernel
  have hstep : (stateAfter pinnedEnd 2).Removes 2 ⟨2, [2], none, false⟩ := by
    unfold State.Removes
    decide +kernel
  obtain ⟨colors, hok, hsure, -⟩ :=
    firstFit_lacks_color_only_if_outnumbered pinnedEnd hloop (by decide)
  refine ⟨hloop, by decide, hrivals, colors, hok, hsure 2 _ hstep (.inr ?_) 2 (by simp)⟩
  rw [hrivals]
  decide

end Lowering.Coloring
