import Lowering.Coloring.FirstFit
import Lowering.Proofs.Grouping
import Lowering.Proofs.Relations

/-!
# Colorings are proper

Taking a graph apart keeps its groups independent: two members of a group are
never in conflict, and members of two groups are in conflict only if the groups
are neighbors. Coloring group by group therefore never gives the two ends of an
edge the same color.
-/

namespace Lowering.Coloring

variable {V C : Type} [DecidableEq V]

/-- Vertices of which no two are in conflict. -/
def Independent (conflicts : Relation V) (members : List V) : Prop :=
  ∀ a ∈ members, ∀ b ∈ members, ¬ b ∈ conflicts.neighbors a

/-- A group has a color only if a member is pinned to it. -/
def PinnedBy (fixed : InsertionMap V C) (members : List V) (color : Option C) : Prop :=
  ∀ c, color = some c → ∃ m ∈ members, fixed.get? m = some c

/-- What the groups of a state owe to the graph they were made from. -/
structure State.Sound (conflicts : Relation V) (fixed : InsertionMap V C) (s : State V C) :
    Prop where
  independent : ∀ v g, s.groups.get? v = some g → Independent conflicts g.members
  adjacent : ∀ v u g h, s.groups.get? v = some g → s.groups.get? u = some h → v ≠ u →
    ∀ a ∈ g.members, ∀ b ∈ h.members, b ∈ conflicts.neighbors a → u ∈ g.neighbors
  pinned : ∀ v g, s.groups.get? v = some g → PinnedBy fixed g.members g.color
  removed : ∀ g ∈ s.removed, Independent conflicts g.members ∧ PinnedBy fixed g.members g.color

section Simplify

variable {conflicts : Relation V} {fixed : InsertionMap V C} {s : State V C} {v u t : V}
  {g h k : Group V C}

/-- Two groups that are not neighbors make an independent group. -/
theorem Independent.append (hsymm : ∀ a b, b ∈ conflicts.neighbors a → a ∈ conflicts.neighbors b)
    {l r : List V} (hl : Independent conflicts l) (hr : Independent conflicts r)
    (hlr : ∀ a ∈ l, ∀ b ∈ r, ¬ b ∈ conflicts.neighbors a) : Independent conflicts (l ++ r) := by
  intro a ha b hb
  rcases List.mem_append.mp ha with ha | ha <;> rcases List.mem_append.mp hb with hb | hb
  · exact hl a ha b hb
  · exact hlr a ha b hb
  · exact fun hab => hlr b hb a ha (hsymm a b hab)
  · exact hr a ha b hb

theorem PinnedBy.append {l r : List V} {c d : Option C} (hl : PinnedBy fixed l c)
    (hr : PinnedBy fixed r d) : PinnedBy fixed (l ++ r) (c.or d) := by
  intro e he
  rcases Option.or_eq_some_iff.mp he with hc | ⟨-, hd⟩
  · obtain ⟨m, hm, hpin⟩ := hl e hc
    exact ⟨m, List.mem_append_left _ hm, hpin⟩
  · obtain ⟨m, hm, hpin⟩ := hr e hd
    exact ⟨m, List.mem_append_right _ hm, hpin⟩

/-- A group that was a neighbor stays one, under the name of the merged group. -/
theorem State.mem_neighbors_redirect {t' : V} (h : t' ∈ g.neighbors) :
    (if t' = u then v else t') ∈ (State.redirect v u g).neighbors := by
  unfold State.redirect
  split_ifs with hu htu htu
  · simp
  · simp [h, htu]
  · exact absurd (htu ▸ h) hu
  · exact h

/-- The merged group has the neighbors of both its parts, and a conflict with the group that
is gone becomes one with `v`. -/
theorem State.Sound.merge
    (hsymm : ∀ a b, b ∈ conflicts.neighbors a → a ∈ conflicts.neighbors b)
    (hs : s.Sound conflicts fixed) (hv : s.groups.get? v = some g)
    (hu : s.groups.get? u = some h) (hvu : v ≠ u) (hapart : ¬ u ∈ g.neighbors) :
    (s.merge v u).Sound conflicts fixed := by
  have hcross : ∀ a ∈ g.members, ∀ b ∈ h.members, ¬ b ∈ conflicts.neighbors a :=
    fun a ha b hb hab => hapart (hs.adjacent v u g h hv hu hvu a ha b hb hab)
  constructor
  case independent =>
    intro t k ht
    obtain ⟨-, g', hg', rfl⟩ := State.get?_merge hu ht
    split_ifs with htv
    · subst htv
      obtain rfl := Option.some.inj (hv.symm.trans hg')
      exact (hs.independent t g hv).append hsymm (hs.independent u h hu) hcross
    · rw [State.members_redirect]
      exact hs.independent t g' hg'
  case adjacent =>
    intro t t' k k' ht ht' hne a ha b hb hab
    obtain ⟨htu, g₁, hg₁, rfl⟩ := State.get?_merge hu ht
    obtain ⟨htu', g₂, hg₂, rfl⟩ := State.get?_merge hu ht'
    by_cases htv : t = v
    · have htv' : t' ≠ v := htv ▸ hne.symm
      rw [if_pos htv] at ha ⊢
      rw [if_neg htv', State.members_redirect] at hb
      have hold : t' ∈ g₁.neighbors ∨ t' ∈ h.neighbors := by
        rcases List.mem_append.mp ha with ha | ha
        · exact .inl (hs.adjacent t t' g₁ g₂ hg₁ hg₂ hne a ha b hb hab)
        · exact .inr (hs.adjacent u t' h g₂ hu hg₂ htu'.symm a ha b hb hab)
      simpa [State.absorb, htv', htu', ← InsertionSet.mem_iff] using hold
    · rw [if_neg htv, State.members_redirect] at ha
      rw [if_neg htv]
      by_cases htv' : t' = v
      · rw [if_pos htv'] at hb
        rcases List.mem_append.mp hb with hb | hb
        · have hold := hs.adjacent t t' g₁ g₂ hg₁ hg₂ hne a ha b hb hab
          simpa [htu'] using State.mem_neighbors_redirect (v := v) (u := u) hold
        · have hold := hs.adjacent t u g₁ h hg₁ hu htu a ha b hb hab
          simpa [htv'] using State.mem_neighbors_redirect (v := v) (u := u) hold
      · rw [if_neg htv', State.members_redirect] at hb
        have hold := hs.adjacent t t' g₁ g₂ hg₁ hg₂ hne a ha b hb hab
        simpa [htu'] using State.mem_neighbors_redirect (v := v) (u := u) hold
  case pinned =>
    intro t k ht
    obtain ⟨-, g', hg', rfl⟩ := State.get?_merge hu ht
    split_ifs with htv
    · exact (hs.pinned t g' hg').append (hs.pinned u h hu)
    · rw [State.members_redirect, State.color_redirect]
      exact hs.pinned t g' hg'
  case removed =>
    rw [State.removed_merge hu]
    exact hs.removed

theorem State.Sound.remove (hs : s.Sound conflicts fixed) (hv : s.groups.get? v = some g)
    (mayLackColor : Bool) :
    (s.remove v mayLackColor).Sound conflicts fixed := by
  constructor
  case independent =>
    intro t k ht
    obtain ⟨-, g', hg', rfl⟩ := State.get?_remove hv ht
    exact hs.independent t g' hg'
  case adjacent =>
    intro t t' k k' ht ht' hne a ha b hb hab
    obtain ⟨-, g₁, hg₁, rfl⟩ := State.get?_remove hv ht
    obtain ⟨htv', g₂, hg₂, rfl⟩ := State.get?_remove hv ht'
    exact InsertionSet.mem_erase.mpr
      ⟨hs.adjacent t t' g₁ g₂ hg₁ hg₂ hne a ha b hb hab, htv'⟩
  case pinned =>
    intro t k ht
    obtain ⟨-, g', hg', rfl⟩ := State.get?_remove hv ht
    exact hs.pinned t g' hg'
  case removed =>
    rw [State.removed_remove hv]
    exact List.forall_mem_cons.mpr ⟨⟨hs.independent v g hv, hs.pinned v g hv⟩, hs.removed⟩

theorem State.Sound.step
    (hsymm : ∀ a b, b ∈ conflicts.neighbors a → a ∈ conflicts.neighbors b)
    (hs : s.Sound conflicts fixed) (colors : Nat) : (s.step colors).Sound conflicts fixed := by
  rcases s.step_cases colors with
    ⟨v, u, g, h, hv, hu, hne, hapart, hstep⟩ | ⟨v, g, mayLackColor, hv, hstep⟩ | ⟨-, hstep⟩
  · rw [hstep]
    exact hs.merge hsymm hv hu hne hapart
  · rw [hstep]
    exact hs.remove hv mayLackColor
  · rw [hstep]
    exact hs

theorem State.Sound.steps
    (hsymm : ∀ a b, b ∈ conflicts.neighbors a → a ∈ conflicts.neighbors b)
    (hs : s.Sound conflicts fixed) (colors n : Nat) :
    (s.steps colors n).Sound conflicts fixed :=
  State.steps_keep (fun _ h => h.step hsymm colors) hs n

end Simplify

section Problem

variable [DecidableEq C] {p : ColoringProblem V C}

theorem mem_neighbors_conflicts {a b : V} : b ∈ p.conflicts.neighbors a ↔
    (b ∈ p.graph.neighbors a ∨ a ∈ p.graph.neighbors b) ∨
      (a, b) ∈ p.pinnedApart ∨ (b, a) ∈ p.pinnedApart := by
  rw [ColoringProblem.conflicts, Relation.mem_neighbors_addEdges,
    Relation.mem_neighbors_symmetricClosure]

theorem conflicts_symm {a b : V} (h : b ∈ p.conflicts.neighbors a) :
    a ∈ p.conflicts.neighbors b := by
  rw [mem_neighbors_conflicts] at h ⊢
  exact h.imp Or.symm Or.symm

/-- Vertices that are pinned apart have different pins. -/
theorem exists_pins_of_pinnedApart {a b : V}
    (h : (a, b) ∈ p.pinnedApart ∨ (b, a) ∈ p.pinnedApart) :
    ∃ c d, p.fixed.get? a = some c ∧ p.fixed.get? b = some d ∧ c ≠ d := by
  have hpins : ∀ {x y : V}, (x, y) ∈ p.pinnedApart →
      ∃ c d, p.fixed.get? x = some c ∧ p.fixed.get? y = some d ∧ c ≠ d := by
    intro x y hxy
    have hne := (List.mem_filter.mp hxy).2
    dsimp only at hne
    split at hne
    · next c d hc hd => exact ⟨c, d, hc, hd, by simpa using hne⟩
    · exact absurd hne (by simp)
  rcases h with h | h
  · exact hpins h
  · obtain ⟨c, d, hc, hd, hne⟩ := hpins h
    exact ⟨d, c, hd, hc, hne.symm⟩

theorem sound_start (h : p.graph.selfLoop? = none) : (start p).Sound p.conflicts p.fixed := by
  have hgroup : ∀ v g, (start p).groups.get? v = some g →
      g.members = [v] ∧ g.neighbors = p.conflicts.neighbors v ∧ g.color = p.fixed.get? v := by
    intro v g hg
    obtain ⟨-, rfl⟩ := eq_of_get?_start hg
    exact ⟨rfl, rfl, rfl⟩
  constructor
  case independent =>
    intro v g hg a ha b hb hab
    rw [(hgroup v g hg).1, List.mem_singleton] at ha hb
    subst ha hb
    rcases mem_neighbors_conflicts.mp hab with hself | hpin
    · exact Relation.not_mem_neighbors_self h (hself.elim id id)
    · obtain ⟨c, d, hc, hd, hne⟩ := exists_pins_of_pinnedApart hpin
      exact hne (Option.some.inj (hc.symm.trans hd))
  case adjacent =>
    intro v u g k hg hk hne a ha b hb hab
    rw [(hgroup v g hg).1, List.mem_singleton] at ha
    rw [(hgroup u k hk).1, List.mem_singleton] at hb
    subst ha hb
    rw [(hgroup _ g hg).2.1]
    exact hab
  case pinned =>
    intro v g hg c hc
    obtain ⟨hmembers, -, hcolor⟩ := hgroup v g hg
    exact ⟨v, by simp [hmembers], hcolor.symm.trans hc⟩
  case removed =>
    intro g hg
    simp [start] at hg

theorem sound_removedGroups (h : p.graph.selfLoop? = none) {g : RemovedGroup V C}
    (hg : g ∈ removedGroups p) :
    Independent p.conflicts g.members ∧ PinnedBy p.fixed g.members g.color :=
  ((sound_start h).steps (fun _ _ => conflicts_symm) _ _).removed g hg

end Problem

section Assignment

variable {conflicts : Relation V} {colors : InsertionMap V C} {members : List V} {v : V} {c d : C}

/-- No two vertices in conflict have the same color. -/
def Proper (conflicts : Relation V) (colors : InsertionMap V C) : Prop :=
  ∀ a b c, b ∈ conflicts.neighbors a → colors.get? a = some c → colors.get? b ≠ some c

theorem get?_paint :
    (paint colors members c).get? v = if v ∈ members then some c else colors.get? v := by
  unfold paint
  induction members generalizing colors with
  | nil => simp
  | cons m members ih =>
      rw [List.foldl_cons, ih, InsertionMap.get?_insert]
      by_cases hm : v = m <;> simp [hm]

theorem mem_taken {a b : V} (ha : a ∈ members) (hb : b ∈ conflicts.neighbors a)
    (hc : colors.get? b = some c) : c ∈ taken conflicts colors members :=
  List.mem_flatMap.mpr ⟨a, ha, List.mem_filterMap.mpr ⟨b, hb, hc⟩⟩

/-- Painting an independent group with a color that no neighbor has keeps a
coloring proper. -/
theorem Proper.paint (hsymm : ∀ a b, b ∈ conflicts.neighbors a → a ∈ conflicts.neighbors b)
    (hproper : Proper conflicts colors) (hind : Independent conflicts members)
    (hfree : ¬ c ∈ taken conflicts colors members) :
    Proper conflicts (paint colors members c) := by
  intro a b d hab ha hb
  rw [get?_paint] at ha hb
  split_ifs at ha hb with ham hbm
  · exact hind a ham b hbm hab
  · obtain rfl := Option.some.inj ha
    exact hfree (mem_taken ham hab hb)
  · obtain rfl := Option.some.inj hb
    exact hfree (mem_taken ‹_› (hsymm a b hab) ha)
  · exact hproper a b d hab ha hb

theorem pinned_eq_empty {removed : List (RemovedGroup V C)}
    (h : ∀ g ∈ removed, g.color = none) : pinned removed = ∅ := by
  unfold pinned
  induction removed with
  | nil => rfl
  | cons g removed ih =>
      rw [List.forall_mem_cons] at h
      simpa [h.1] using ih h.2

variable [DecidableEq C]

theorem Proper.colorGroup
    (hsymm : ∀ a b, b ∈ conflicts.neighbors a → a ∈ conflicts.neighbors b)
    (hproper : Proper conflicts colors) {g : RemovedGroup V C}
    (hind : Independent conflicts g.members) (allowed : List C) :
    Proper conflicts (colorGroup conflicts allowed colors g) := by
  unfold Coloring.colorGroup
  split
  · exact hproper
  · split
    · next c hc => exact hproper.paint hsymm hind (by simpa using List.find?_some hc)
    · exact hproper

theorem Proper.foldl_colorGroup
    (hsymm : ∀ a b, b ∈ conflicts.neighbors a → a ∈ conflicts.neighbors b)
    (hproper : Proper conflicts colors) {groups : List (RemovedGroup V C)}
    (hind : ∀ g ∈ groups, Independent conflicts g.members) (allowed : List C) :
    Proper conflicts (groups.foldl (Coloring.colorGroup conflicts allowed) colors) := by
  induction groups generalizing colors with
  | nil => exact hproper
  | cons g groups ih =>
      rw [List.forall_mem_cons] at hind
      exact ih (hproper.colorGroup hsymm hind.1 allowed) hind.2

/-- A graph without loops is colored. -/
theorem exists_firstFit_eq_ok {p : ColoringProblem V C} (hloop : p.graph.selfLoop? = none) :
    ∃ colors, firstFit p = .ok colors := by
  simp [firstFit, hloop]

/-- A coloring gives the vertices of the graph the colors that their groups got. -/
theorem firstFit_eq_ok {p : ColoringProblem V C} (hok : firstFit p = .ok colors) :
    p.graph.selfLoop? = none ∧
      ∀ v c, colors.get? v = some c ↔ v ∈ p.vertices ∧ (assign p).get? v = some c := by
  unfold firstFit at hok
  split at hok
  · simp at hok
  · next hloop =>
    obtain rfl := Except.ok.inj hok
    refine ⟨hloop, fun v c => ?_⟩
    rw [InsertionMap.get?_ofPartial]
    by_cases hv : v ∈ p.vertices <;> simp [hv]

/-- Neighbors that get a color get different ones, if no color is settled
beforehand. -/
theorem firstFit_proper {p : ColoringProblem V C} (hunpinned : p.fixed = ∅)
    (hok : firstFit p = .ok colors) {a b : V} (hab : b ∈ p.graph.neighbors a)
    (ha : colors.get? a = some c) : colors.get? b ≠ some c := by
  obtain ⟨hloop, hget⟩ := firstFit_eq_ok hok
  have hgroups : ∀ g ∈ removedGroups p, Independent p.conflicts g.members :=
    fun g hg => (sound_removedGroups hloop hg).1
  have hcolor : ∀ g ∈ removedGroups p, g.color = none := by
    intro g hg
    cases hcolor : g.color with
    | none => rfl
    | some e =>
        obtain ⟨m, -, hm⟩ := (sound_removedGroups hloop hg).2 e hcolor
        simp [hunpinned] at hm
  have hproper : Proper p.conflicts (assign p) := by
    refine Proper.foldl_colorGroup (fun _ _ => conflicts_symm) ?_ hgroups p.allowed
    intro v u e _ hv
    simp [pinned_eq_empty hcolor] at hv
  intro hb
  exact hproper a b c (mem_neighbors_conflicts.mpr (.inl (.inl hab))) ((hget a c).mp ha).2
    ((hget b c).mp hb).2

end Assignment

end Lowering.Coloring
