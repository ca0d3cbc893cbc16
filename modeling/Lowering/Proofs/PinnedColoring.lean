import Lowering.Proofs.ProperColoring

/-!
# Colorings keep the pins

A group with a pinned member has the color of that pin, since vertices pinned to
different colors are in conflict and so never share a group. If no two vertices
are pinned to one color, the pinned groups make a proper coloring, which the other
groups extend with colors of the list. The result is therefore proper and keeps
every pin.
-/

namespace Lowering

/-- The vertices have distinct pins, all of them colors of the list. -/
structure ColoringProblem.PinsApart {V C : Type} [DecidableEq V] (p : ColoringProblem V C) :
    Prop where
  injective : ∀ a ∈ p.vertices, ∀ b ∈ p.vertices, ∀ c,
    p.fixed.get? a = some c → p.fixed.get? b = some c → a = b
  allowed : ∀ v ∈ p.vertices, ∀ c, p.fixed.get? v = some c → c ∈ p.allowed

/-- What a partial coloring owes to the problem. -/
structure ColoringProblem.Solves {V C : Type} [DecidableEq V] (p : ColoringProblem V C)
    (colors : InsertionMap V C) : Prop where
  known : ∀ v c, colors.get? v = some c → v ∈ p.vertices
  allowed : ∀ v c, colors.get? v = some c → c ∈ p.allowed
  pins : ∀ v ∈ p.vertices, ∀ c, p.fixed.get? v = some c → colors.get? v = some c
  proper : ∀ a b c, b ∈ p.graph.neighbors a → colors.get? a = some c → colors.get? b ≠ some c

namespace Coloring

variable {V C : Type} [DecidableEq V]

section Groups

variable {fixed : InsertionMap V C}

/-- A group with a pinned member has a color. -/
def Noted (fixed : InsertionMap V C) (members : List V) (color : Option C) : Prop :=
  ∀ m ∈ members, (fixed.get? m).isSome → color.isSome

theorem Noted.append {l r : List V} {c d : Option C} (hl : Noted fixed l c)
    (hr : Noted fixed r d) : Noted fixed (l ++ r) (c.or d) := by
  intro m hm hpin
  rw [Option.isSome_or, Bool.or_eq_true]
  rcases List.mem_append.mp hm with hm | hm
  · exact .inl (hl m hm hpin)
  · exact .inr (hr m hm hpin)

variable [DecidableEq C] {p : ColoringProblem V C} {g : RemovedGroup V C}

theorem noted_start (p : ColoringProblem V C) : (start p).AllGroups (Noted p.fixed) := by
  constructor
  · intro v g hg m hm hpin
    obtain ⟨-, rfl⟩ := eq_of_get?_start hg
    obtain rfl := List.mem_singleton.mp hm
    exact hpin
  · intro g hg
    exact absurd hg List.not_mem_nil

theorem noted_stateAfter (p : ColoringProblem V C) (n : Nat) :
    (stateAfter p n).AllGroups (Noted p.fixed) :=
  (noted_start p).steps (fun _ _ _ _ => Noted.append) _ n

/-- Vertices with different pins are in conflict. -/
theorem mem_conflicts_of_pins {a b : V} {c d : C} (ha : a ∈ p.vertices) (hb : b ∈ p.vertices)
    (hc : p.fixed.get? a = some c) (hd : p.fixed.get? b = some d) (hne : c ≠ d) :
    b ∈ p.conflicts.neighbors a := by
  have hab : a ≠ b := by
    rintro rfl
    exact hne (Option.some.inj (hc.symm.trans hd))
  apply mem_neighbors_conflicts.mpr
  apply Or.inr
  rcases mem_orderedPairs_or ha hb hab with hpair | hpair
  · exact .inl (List.mem_filter.mpr ⟨hpair, by simp [hc, hd, hne]⟩)
  · exact .inr (List.mem_filter.mpr ⟨hpair, by simp [hc, hd, hne.symm]⟩)

/-- If no two vertices of a group are in conflict, then its color is the pin of each
pinned member. -/
theorem color_eq_of_pinned {members : List V} {color : Option C}
    (hvertices : ∀ a ∈ members, a ∈ p.vertices) (hind : Independent p.conflicts members)
    (hby : PinnedBy p.fixed members color) (hnoted : Noted p.fixed members color) {v : V} {c : C}
    (hv : v ∈ members) (hpin : p.fixed.get? v = some c) : color = some c := by
  obtain ⟨d, hd⟩ := Option.isSome_iff_exists.mp (hnoted v hv (by simp [hpin]))
  obtain ⟨m, hm, hmd⟩ := hby d hd
  by_contra hne
  have hcd : c ≠ d := by
    rintro rfl
    exact hne hd
  apply hind v hv m hm
  exact mem_conflicts_of_pins (hvertices v hv) (hvertices m hm) hpin hmd hcd

theorem color_of_pinned (hloop : p.graph.selfLoop? = none) (hg : g ∈ removedGroups p) {v : V}
    {c : C} (hv : v ∈ g.members) (hpin : p.fixed.get? v = some c) : g.color = some c := by
  obtain ⟨hind, hby⟩ := sound_removedGroups hloop hg
  exact color_eq_of_pinned (fun _ => mem_vertices_of_mem_members hg) hind hby
    ((noted_stateAfter p _).2 g hg) hv hpin

end Groups

/-! ## The colors of the pinned groups -/

section Pinned

variable {groups : List (RemovedGroup V C)} {colors : InsertionMap V C} {v : V} {c : C}

/-- Paints a group that has a color. -/
def paintPinned (colors : InsertionMap V C) (g : RemovedGroup V C) : InsertionMap V C :=
  match g.color with
  | some c => paint colors g.members c
  | none => colors

theorem pinned_eq_foldl (groups : List (RemovedGroup V C)) :
    pinned groups = groups.foldl paintPinned ∅ :=
  rfl

theorem get?_paintPinned (colors : InsertionMap V C) (g : RemovedGroup V C) (v : V) :
    (paintPinned colors g).get? v =
      if v ∈ g.members then g.color.or (colors.get? v) else colors.get? v := by
  unfold paintPinned
  split
  · next c hc => rw [get?_paint, hc, Option.some_or]
  · next hnone => rw [hnone, Option.none_or, ite_self]

/-- Only members of groups with a color are painted. -/
theorem get?_foldl_paintPinned (h : (groups.foldl paintPinned colors).get? v = some c) :
    colors.get? v = some c ∨ ∃ g ∈ groups, v ∈ g.members ∧ g.color = some c := by
  induction groups generalizing colors with
  | nil => exact .inl h
  | cons g groups ih =>
      rcases ih h with hhead | ⟨g', hg', htail⟩
      · rw [get?_paintPinned] at hhead
        split_ifs at hhead with hv
        · rcases Option.or_eq_some_iff.mp hhead with hc | ⟨-, hc⟩
          · exact .inr ⟨g, List.mem_cons_self, hv, hc⟩
          · exact .inl hc
        · exact .inl hhead
      · exact .inr ⟨g', List.mem_cons_of_mem _ hg', htail⟩

theorem exists_group_of_pinned (h : (pinned groups).get? v = some c) :
    ∃ g ∈ groups, v ∈ g.members ∧ g.color = some c := by
  rw [pinned_eq_foldl] at h
  exact (get?_foldl_paintPinned h).resolve_left (by simp)

/-- A vertex has the color that all its groups have. -/
theorem get?_foldl_paintPinned_of_forall (hall : ∀ g ∈ groups, v ∈ g.members → g.color = some c)
    (h : colors.get? v = some c ∨ ∃ g ∈ groups, v ∈ g.members) :
    (groups.foldl paintPinned colors).get? v = some c := by
  induction groups generalizing colors with
  | nil => exact h.resolve_right (by simp)
  | cons g groups ih =>
      rw [List.forall_mem_cons] at hall
      apply ih hall.2
      rw [get?_paintPinned]
      by_cases hv : v ∈ g.members
      · simp [hv, hall.1 hv]
      · rw [if_neg hv]
        apply h.imp_right
        rintro ⟨g', hg', hv'⟩
        rcases List.mem_cons.mp hg' with rfl | hg'
        · exact absurd hv' hv
        · exact ⟨g', hg', hv'⟩

theorem get?_pinned (hall : ∀ g ∈ groups, v ∈ g.members → g.color = some c)
    (hmem : ∃ g ∈ groups, v ∈ g.members) : (pinned groups).get? v = some c := by
  rw [pinned_eq_foldl]
  exact get?_foldl_paintPinned_of_forall hall (.inr hmem)

end Pinned

section Extension

variable [DecidableEq C] {conflicts : Relation V} {allowed : List C} {v : V}

/-- Coloring a group changes the colors of its members only, and gives them a
color of the list. -/
theorem get?_colorGroup (colors : InsertionMap V C) (g : RemovedGroup V C) (v : V) :
    (colorGroup conflicts allowed colors g).get? v = colors.get? v ∨
      v ∈ g.members ∧ g.color = none ∧
        ∃ c ∈ allowed, (colorGroup conflicts allowed colors g).get? v = some c := by
  unfold colorGroup
  split
  · exact .inl rfl
  · next hnone =>
    split
    · next c hc =>
      rw [get?_paint]
      split_ifs with hv
      · exact .inr ⟨hv, hnone, c, List.mem_of_find?_eq_some hc, rfl⟩
      · exact .inl rfl
    · exact .inl rfl

theorem get?_foldl_colorGroup (groups : List (RemovedGroup V C)) (colors : InsertionMap V C)
    (v : V) :
    (groups.foldl (colorGroup conflicts allowed) colors).get? v = colors.get? v ∨
      (∃ g ∈ groups, v ∈ g.members ∧ g.color = none) ∧
        ∃ c ∈ allowed, (groups.foldl (colorGroup conflicts allowed) colors).get? v = some c := by
  induction groups generalizing colors with
  | nil => exact .inl rfl
  | cons g groups ih =>
      rw [List.foldl_cons]
      rcases ih (colorGroup conflicts allowed colors g) with hkept | ⟨⟨g', hg', hv'⟩, hnew⟩
      · rw [hkept]
        rcases get?_colorGroup colors g v with hsame | ⟨hv, hnone, hnew⟩
        · exact .inl hsame
        · exact .inr ⟨⟨g, List.mem_cons_self, hv, hnone⟩, hnew⟩
      · exact .inr ⟨⟨g', List.mem_cons_of_mem _ hg', hv'⟩, hnew⟩

end Extension

/-! ## The whole coloring -/

section Problem

variable [DecidableEq C] {p : ColoringProblem V C} {v : V} {c : C}

/-- A vertex is in a group that is pinned to a color. -/
def TakesPin (p : ColoringProblem V C) (v : V) (c : C) : Prop :=
  ∃ g ∈ removedGroups p, v ∈ g.members ∧ g.color = some c

theorem TakesPin.mem_vertices (h : TakesPin p v c) : v ∈ p.vertices := by
  obtain ⟨g, hg, hv, -⟩ := h
  exact mem_vertices_of_mem_members hg hv

/-- The members of a pinned group have its color. -/
theorem TakesPin.get?_assign (h : TakesPin p v c) : (assign p).get? v = some c := by
  obtain ⟨g, hg, hv, hc⟩ := h
  have hall : ∀ h ∈ removedGroups p, v ∈ h.members → h.color = some c :=
    fun h hh hvh => removedGroup_unique hg hh hv hvh ▸ hc
  have hstart : (pinned (removedGroups p)).get? v = some c := get?_pinned hall ⟨g, hg, hv⟩
  rcases get?_foldl_colorGroup (removedGroups p) (pinned (removedGroups p)) v with
    hkept | ⟨⟨h, hh, hvh, hnone⟩, -⟩
  · exact hkept.trans hstart
  · rw [hall h hh hvh] at hnone
    exact absurd hnone (by simp)

theorem takesPin_of_pinned (hloop : p.graph.selfLoop? = none) (hv : v ∈ p.vertices)
    (hpin : p.fixed.get? v = some c) : TakesPin p v c := by
  obtain ⟨g, hg, hvg⟩ := exists_removedGroup hv
  exact ⟨g, hg, hvg, color_of_pinned hloop hg hvg hpin⟩

/-- A vertex takes no pin but its own, if it has one. -/
theorem TakesPin.eq_of_pinned (hloop : p.graph.selfLoop? = none) {d : C} (h : TakesPin p v c)
    (hpin : p.fixed.get? v = some d) : c = d := by
  obtain ⟨g, hg, hv, hc⟩ := h
  exact Option.some.inj (hc.symm.trans (color_of_pinned hloop hg hv hpin))

/-- A vertex has a color of the list unless it takes a pin. -/
theorem takesPin_or_mem_allowed (h : (assign p).get? v = some c) :
    TakesPin p v c ∨ c ∈ p.allowed := by
  rcases get?_foldl_colorGroup (removedGroups p) (pinned (removedGroups p)) v with
    hkept | ⟨-, d, hd, hnew⟩
  · exact .inl (exists_group_of_pinned (hkept.symm.trans h))
  · exact .inr (Option.some.inj (hnew.symm.trans h) ▸ hd)

/-- If no two neighbors take the same pin, the coloring is proper. -/
theorem proper_assign (hloop : p.graph.selfLoop? = none)
    (hapart : ∀ a b c, b ∈ p.graph.neighbors a → TakesPin p a c → ¬ TakesPin p b c) :
    Proper p.conflicts (assign p) := by
  apply Proper.foldl_colorGroup (fun _ _ => conflicts_symm)
  · intro a b c hab ha hb
    have hta : TakesPin p a c := exists_group_of_pinned ha
    have htb : TakesPin p b c := exists_group_of_pinned hb
    rcases mem_neighbors_conflicts.mp hab with (hedge | hedge) | hpins
    · exact hapart a b c hedge hta htb
    · exact hapart b a c hedge htb hta
    · obtain ⟨ca, cb, hca, hcb, hne⟩ := exists_pins_of_pinnedApart hpins
      exact hne ((hta.eq_of_pinned hloop hca).symm.trans (htb.eq_of_pinned hloop hcb))
  · exact fun g hg => (sound_removedGroups hloop hg).1

/-- Groups of one color would be pinned by one vertex, and so be one group, in which
there are no neighbors. -/
theorem not_takesPin_of_neighbor (hpins : p.PinsApart) (hloop : p.graph.selfLoop? = none)
    {a b : V} (hab : b ∈ p.graph.neighbors a) (ha : TakesPin p a c) : ¬ TakesPin p b c := by
  rintro ⟨h, hh, hbh, hhc⟩
  obtain ⟨g, hg, hag, hgc⟩ := ha
  obtain ⟨hind, hgby⟩ := sound_removedGroups hloop hg
  obtain ⟨m, hm, hmc⟩ := hgby c hgc
  obtain ⟨m', hm', hmc'⟩ := (sound_removedGroups hloop hh).2 c hhc
  have hmm : m = m' :=
    hpins.injective m (mem_vertices_of_mem_members hg hm)
      m' (mem_vertices_of_mem_members hh hm') c hmc hmc'
  have hgh : g = h := removedGroup_unique hg hh hm (hmm ▸ hm')
  exact hind a hag b (hgh ▸ hbh) (mem_neighbors_conflicts.mpr (.inl (.inl hab)))

theorem mem_allowed_of_get?_assign (hpins : p.PinsApart) (hloop : p.graph.selfLoop? = none)
    (hc : (assign p).get? v = some c) : c ∈ p.allowed := by
  rcases takesPin_or_mem_allowed hc with ⟨g, hg, -, hgc⟩ | hallowed
  · obtain ⟨m, hm, hmc⟩ := (sound_removedGroups hloop hg).2 c hgc
    exact hpins.allowed m (mem_vertices_of_mem_members hg hm) c hmc
  · exact hallowed

theorem firstFit_eq_error_iff {loop : SelfLoop V} :
    firstFit p = .error loop ↔ p.graph.selfLoop? = some loop.vertex := by
  unfold firstFit
  split
  · next v hv =>
    rw [hv, Except.error.injEq, Option.some.injEq]
    exact ⟨fun h => h ▸ rfl, fun h => h ▸ rfl⟩
  · next hv => simp [hv]

/-- A graph without loops and with distinct pins gets a coloring. -/
theorem firstFit_solves (hpins : p.PinsApart) (hloop : p.graph.selfLoop? = none) :
    ∃ colors, firstFit p = .ok colors ∧ p.Solves colors := by
  obtain ⟨colors, hok⟩ := exists_firstFit_eq_ok hloop
  have hget := (firstFit_eq_ok hok).2
  refine ⟨colors, hok, ?_⟩
  constructor
  case known => exact fun v c hc => ((hget v c).mp hc).1
  case allowed => exact fun v c hc => mem_allowed_of_get?_assign hpins hloop ((hget v c).mp hc).2
  case pins =>
    exact fun v hv c hc => (hget v c).mpr ⟨hv, (takesPin_of_pinned hloop hv hc).get?_assign⟩
  case proper =>
    intro a b c hab ha hb
    apply proper_assign hloop (fun _ _ _ => not_takesPin_of_neighbor hpins hloop) a b c
    · exact mem_neighbors_conflicts.mpr (.inl (.inl hab))
    · exact ((hget a c).mp ha).2
    · exact ((hget b c).mp hb).2

/-- If no two vertices of the graph are pinned to one color and all pins are colors
of the list, a graph is refused exactly if a vertex is its own neighbor. Any other
graph gets a partial coloring of its vertices with colors of the list, which keeps
every pin and in which neighbors, in whichever direction, differ. -/
theorem firstFit_colors_with_pins (p : ColoringProblem V C)
    (hdistinct : ∀ a b c, p.graph.Mentions a → p.graph.Mentions b →
      p.fixed.get? a = some c → p.fixed.get? b = some c → a = b)
    (hallowed : ∀ v c, p.graph.Mentions v → p.fixed.get? v = some c → c ∈ p.allowed) :
    ((∃ loop, firstFit p = .error loop) ↔ ∃ v, v ∈ p.graph.neighbors v) ∧
    (∀ loop, firstFit p = .error loop → loop.vertex ∈ p.graph.neighbors loop.vertex) ∧
    ((¬ ∃ v, v ∈ p.graph.neighbors v) → ∃ colors, firstFit p = .ok colors ∧
      (∀ v ∈ colors.keys, p.graph.Mentions v) ∧
      (∀ v c, p.graph.Mentions v → p.fixed.get? v = some c → colors.get? v = some c) ∧
      (∀ v c, colors.get? v = some c → c ∈ p.allowed) ∧
      ∀ a b c d, b ∈ p.graph.neighbors a ∨ a ∈ p.graph.neighbors b →
        colors.get? a = some c → colors.get? b = some d → c ≠ d) := by
  have hmem : ∀ v, v ∈ p.vertices ↔ p.graph.Mentions v := fun v =>
    Relation.mem_keys_symmetricClosure
  have herror : ∀ loop, firstFit p = .error loop →
      loop.vertex ∈ p.graph.neighbors loop.vertex := fun loop h =>
    Relation.mem_neighbors_of_selfLoop? (firstFit_eq_error_iff.mp h)
  have hpins : p.PinsApart := by
    constructor
    · exact fun a ha b hb c => hdistinct a b c ((hmem a).mp ha) ((hmem b).mp hb)
    · exact fun v hv c => hallowed v c ((hmem v).mp hv)
  refine ⟨⟨fun ⟨loop, h⟩ => ⟨_, herror loop h⟩, fun h => ?_⟩, herror, fun h => ?_⟩
  · have hsome : p.graph.selfLoop? ≠ none := fun hnone =>
      Relation.selfLoop?_eq_none_iff.mp hnone h
    obtain ⟨v, hv⟩ := Option.ne_none_iff_exists'.mp hsome
    exact ⟨⟨v⟩, firstFit_eq_error_iff.mpr hv⟩
  · obtain ⟨colors, hok, hsolves⟩ := firstFit_solves hpins (Relation.selfLoop?_eq_none_iff.mpr h)
    refine ⟨colors, hok, ?_, ?_, hsolves.allowed, ?_⟩
    · intro v hv
      obtain ⟨c, hc⟩ := InsertionMap.mem_iff_exists_get?.mp hv
      exact (hmem v).mp (hsolves.known v c hc)
    · exact fun v c hv hc => hsolves.pins v ((hmem v).mpr hv) c hc
    · rintro a b c d (hab | hba) ha hb rfl
      · exact hsolves.proper a b c hab ha hb
      · exact hsolves.proper b a c hba hb ha

end Problem

/-- A path of three vertices, each edge listed in one direction. The first vertex is
pinned, and the last one should share its color. -/
def pinnedPath : ColoringProblem Nat Nat :=
  { graph := (Relation.addArc ∅ 0 1).addArc 1 2
    coalesce := Relation.addArc ∅ 2 0
    fixed := InsertionMap.insert ∅ 0 8
    allowed := [7, 8] }

theorem firstFit_colors_pinnedPath :
    pinnedPath.fixed.get? 0 = some 8 ∧ (¬ ∃ v, v ∈ pinnedPath.graph.neighbors v) ∧
      ∃ colors, firstFit pinnedPath = .ok colors ∧
        colors.entries = [(0, 8), (1, 7), (2, 8)] ∧
        (∀ v c, colors.get? v = some c → c ∈ [7, 8]) ∧
        ∀ c d, colors.get? 0 = some c → colors.get? 1 = some d → c ≠ d := by
  have hpin : ∀ v c, pinnedPath.fixed.get? v = some c ↔ v = 0 ∧ c = 8 := by
    intro v c
    simp [pinnedPath, InsertionMap.get?_insert, eq_comm]
  have hedge : ∀ v u, u ∈ pinnedPath.graph.neighbors v ↔ v = 0 ∧ u = 1 ∨ v = 1 ∧ u = 2 := by
    intro v u
    have hpairs : pinnedPath.graph.pairs = [(0, 1), (1, 2)] := rfl
    rw [← Relation.mem_pairs, hpairs]
    simp
  have hloop : ¬ ∃ v, v ∈ pinnedPath.graph.neighbors v := by
    rintro ⟨v, hv⟩
    rw [hedge] at hv
    omega
  obtain ⟨-, -, hcolored⟩ := firstFit_colors_with_pins pinnedPath
    (fun a b c _ _ ha hb => ((hpin a c).mp ha).1.trans ((hpin b c).mp hb).1.symm)
    (fun v c _ hc => by simp [((hpin v c).mp hc).2, pinnedPath])
  obtain ⟨colors, hok, -, -, hallowed, hdiffer⟩ := hcolored hloop
  have hcolors : (firstFit pinnedPath).toOption.map (·.entries) =
      some [(0, 8), (1, 7), (2, 8)] := by decide +kernel
  rw [hok] at hcolors
  exact ⟨(hpin 0 8).mpr ⟨rfl, rfl⟩, hloop, colors, hok, Option.some.inj hcolors, hallowed,
    fun c d => hdiffer 0 1 c d (.inl ((hedge 0 1).mpr (.inl ⟨rfl, rfl⟩)))⟩

end Coloring

end Lowering
