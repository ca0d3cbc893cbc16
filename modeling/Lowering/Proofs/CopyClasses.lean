import Lowering.Proofs.Grouping
import Lowering.Proofs.Relations
import Mathlib.Logic.Relation

/-!
# Groups of copies

Two vertices of the graph have the same class exactly if they are connected by copies.
Groups are merged only within a class, so any two members of a group are connected by
copies, and vertices of one class are in groups of that class.
-/

namespace Lowering

variable {V C : Type} [DecidableEq V]

namespace ColoringProblem

variable {p : ColoringProblem V C} {classes : InsertionMap V V}

/-- Two vertices are connected by copies between vertices of the graph. -/
def CopyRelated (p : ColoringProblem V C) : V → V → Prop :=
  Relation.EqvGen fun a b => a ∈ p.vertices ∧ b ∈ p.vertices ∧ b ∈ p.coalesce.neighbors a

/-- Every vertex of the graph has a class, and those that have the same class are
connected by copies. -/
structure ClassesSound (p : ColoringProblem V C) (classes : InsertionMap V V) : Prop where
  keys : classes.keys = p.vertices
  related : ∀ a b x, classes.get? a = some x → classes.get? b = some x → p.CopyRelated a b

theorem ClassesSound.exists_class_iff (hclasses : p.ClassesSound classes) {a : V} :
    a ∈ p.vertices ↔ ∃ x, classes.get? a = some x := by
  rw [← hclasses.keys, ← InsertionMap.mem_iff_mem_keys, InsertionMap.mem_iff_exists_get?]

theorem ClassesSound.joinClasses (hclasses : p.ClassesSound classes) {pair : V × V}
    (hpair : pair ∈ p.coalesce.pairs) : p.ClassesSound (joinClasses classes pair) := by
  unfold ColoringProblem.joinClasses
  split
  · next x y hx hy =>
    have hlink : p.CopyRelated pair.1 pair.2 :=
      .rel _ _ ⟨hclasses.exists_class_iff.mpr ⟨x, hx⟩, hclasses.exists_class_iff.mpr ⟨y, hy⟩,
        Relation.mem_pairs.mp hpair⟩
    have hmoved : ∀ a, classes.get? a = some y → p.CopyRelated a pair.1 := fun a ha =>
      .trans _ _ _ (hclasses.related a pair.2 y ha hy) (.symm _ _ hlink)
    constructor
    · rw [InsertionMap.keys_mapValues, hclasses.keys]
    · intro a b z ha hb
      rw [InsertionMap.get?_mapValues] at ha hb
      obtain ⟨c, hc, hcz⟩ := Option.map_eq_some_iff.mp ha
      obtain ⟨d, hd, hdz⟩ := Option.map_eq_some_iff.mp hb
      split_ifs at hcz hdz with hcy hdy hdy
      · exact hclasses.related a b y (hcy ▸ hc) (hdy ▸ hd)
      · subst hcy hcz hdz
        exact .trans _ _ _ (hmoved a hc) (hclasses.related _ b d hx hd)
      · subst hdy hdz hcz
        exact .trans _ _ _ (hclasses.related a _ c hc hx) (.symm _ _ (hmoved b hd))
      · subst hcz hdz
        exact hclasses.related a b d hc hd
  · exact hclasses

theorem ClassesSound.foldl_joinClasses (hclasses : p.ClassesSound classes) {l : List (V × V)}
    (hl : ∀ pair ∈ l, pair ∈ p.coalesce.pairs) :
    p.ClassesSound (l.foldl ColoringProblem.joinClasses classes) := by
  induction l generalizing classes with
  | nil => exact hclasses
  | cons pair l ih =>
      rw [List.forall_mem_cons] at hl
      exact ih (hclasses.joinClasses hl.1) hl.2

theorem classesSound_start (p : ColoringProblem V C) :
    p.ClassesSound (.ofKeys p.vertices id) := by
  constructor
  · rw [InsertionMap.keys_ofKeys]
  · intro a b x ha hb
    rw [InsertionMap.get?_ofKeys] at ha hb
    split_ifs at ha hb
    obtain rfl : a = x := Option.some.inj ha
    obtain rfl : b = a := Option.some.inj hb
    exact .refl _

theorem classesSound_classes (p : ColoringProblem V C) : p.ClassesSound p.classes :=
  (classesSound_start p).foldl_joinClasses fun _ => id

/-- Vertices of one class stay in one class. -/
theorem joinClasses_keeps {a b : V} (hab : classes.get? a = classes.get? b) (pair : V × V) :
    (ColoringProblem.joinClasses classes pair).get? a =
      (ColoringProblem.joinClasses classes pair).get? b := by
  unfold ColoringProblem.joinClasses
  split
  · rw [InsertionMap.get?_mapValues, InsertionMap.get?_mapValues, hab]
  · exact hab

theorem foldl_joinClasses_keeps {a b : V} (hab : classes.get? a = classes.get? b)
    (l : List (V × V)) :
    (l.foldl ColoringProblem.joinClasses classes).get? a =
      (l.foldl ColoringProblem.joinClasses classes).get? b := by
  induction l generalizing classes with
  | nil => exact hab
  | cons pair l ih => exact ih (joinClasses_keeps hab pair)

theorem joinClasses_joins {a b x y : V} (hx : classes.get? a = some x)
    (hy : classes.get? b = some y) :
    (ColoringProblem.joinClasses classes (a, b)).get? a =
      (ColoringProblem.joinClasses classes (a, b)).get? b := by
  simp [ColoringProblem.joinClasses, hx, hy]

/-- Vertices that are connected by copies have the same class. -/
theorem CopyRelated.class_eq {a b : V} (hab : p.CopyRelated a b) :
    p.classes.get? a = p.classes.get? b := by
  induction hab with
  | rel a b hcopy =>
      obtain ⟨ha, hb, hcopy⟩ := hcopy
      obtain ⟨first, second, hsplit⟩ := List.append_of_mem (Relation.mem_pairs.mpr hcopy)
      have hsound : p.ClassesSound
          (first.foldl ColoringProblem.joinClasses (.ofKeys p.vertices id)) :=
        (classesSound_start p).foldl_joinClasses fun pair hpair => by simp [hsplit, hpair]
      obtain ⟨x, hx⟩ := hsound.exists_class_iff.mp ha
      obtain ⟨y, hy⟩ := hsound.exists_class_iff.mp hb
      rw [classes, hsplit, List.foldl_append, List.foldl_cons]
      exact foldl_joinClasses_keeps (joinClasses_joins hx hy) second
  | refl a => rfl
  | symm a b _ ih => exact ih.symm
  | trans a b c _ _ ih ih' => exact ih.trans ih'

end ColoringProblem

namespace Coloring

/-- Members of groups with one class are related, be the groups the same or not. -/
structure State.GroupsRelated (related : V → V → Prop) (s : State V C) : Prop where
  left : ∀ v u g h, s.groups.get? v = some g → s.groups.get? u = some h →
    g.copyClass = h.copyClass → ∀ a ∈ g.members, ∀ b ∈ h.members, related a b
  removed : ∀ g ∈ s.removed, ∀ a ∈ g.members, ∀ b ∈ g.members, related a b

namespace State

variable {related : V → V → Prop} {s : State V C} {v u t : V} {g h k : Group V C} {a : V}

/-- The members of a group after a merge come from groups with the same class. -/
theorem exists_group_of_merge (hv : s.groups.get? v = some g) (hu : s.groups.get? u = some h)
    (hclass : h.copyClass = g.copyClass) (ht : (s.merge v u).groups.get? t = some k)
    (ha : a ∈ k.members) :
    ∃ t' k', s.groups.get? t' = some k' ∧ a ∈ k'.members ∧ k'.copyClass = k.copyClass := by
  obtain ⟨-, k', hk', rfl⟩ := get?_merge hu ht
  by_cases htv : t = v
  · subst htv
    obtain rfl := Option.some.inj (hv.symm.trans hk')
    rw [if_pos rfl] at ha ⊢
    rcases List.mem_append.mp ha with ha | ha
    · exact ⟨t, g, hv, ha, rfl⟩
    · exact ⟨u, h, hu, ha, hclass⟩
  · rw [if_neg htv, members_redirect] at ha
    rw [if_neg htv, copyClass_redirect]
    exact ⟨t, k', hk', ha, rfl⟩

theorem GroupsRelated.merge (hs : s.GroupsRelated related) (hv : s.groups.get? v = some g)
    (hu : s.groups.get? u = some h) (hclass : h.copyClass = g.copyClass) :
    (s.merge v u).GroupsRelated related := by
  constructor
  · intro t t' k k' hk hk' hsame a ha b hb
    obtain ⟨w, m, hm, ham, hmk⟩ := exists_group_of_merge hv hu hclass hk ha
    obtain ⟨w', m', hm', hbm, hmk'⟩ := exists_group_of_merge hv hu hclass hk' hb
    exact hs.left w w' m m' hm hm' (hmk.trans (hsame.trans hmk'.symm)) a ham b hbm
  · rw [removed_merge hu]
    exact hs.removed

theorem GroupsRelated.remove (hs : s.GroupsRelated related) (hv : s.groups.get? v = some g)
    (mayLackColor : Bool) : (s.remove v mayLackColor).GroupsRelated related := by
  constructor
  · intro t t' k k' hk hk' hsame
    obtain ⟨-, m, hm, rfl⟩ := get?_remove hv hk
    obtain ⟨-, m', hm', rfl⟩ := get?_remove hv hk'
    exact hs.left t t' m m' hm hm' hsame
  · rw [removed_remove hv]
    exact List.forall_mem_cons.mpr ⟨hs.left v v g g hv hv rfl, hs.removed⟩

theorem GroupsRelated.step (hs : s.GroupsRelated related) (colors : Nat) :
    (s.step colors).GroupsRelated related := by
  rcases s.step_choices colors with
    ⟨v, u, hmerge, hstep⟩ | ⟨v, hv, hstep⟩ | ⟨v, hv, hstep⟩ | ⟨-, hstep⟩
  · obtain ⟨g, h, hg, hh, -, -, hclass, -⟩ := merge?_eq_some hmerge
    exact hstep ▸ hs.merge hg hh hclass
  · obtain ⟨g, hg⟩ := hv.exists_group
    exact hstep ▸ hs.remove hg false
  · obtain ⟨g, hg⟩ := hv.exists_group
    exact hstep ▸ hs.remove hg true
  · rwa [hstep]

theorem GroupsRelated.steps (hs : s.GroupsRelated related) (colors n : Nat) :
    (s.steps colors n).GroupsRelated related :=
  steps_keep (fun _ h => h.step colors) hs n

end State

variable [DecidableEq C] {p : ColoringProblem V C}

theorem groupsRelated_start (p : ColoringProblem V C) :
    (start p).GroupsRelated p.CopyRelated := by
  constructor
  · intro v u g h hg hh hclass a ha b hb
    obtain ⟨hv, rfl⟩ := eq_of_get?_start hg
    obtain ⟨hu, rfl⟩ := eq_of_get?_start hh
    obtain rfl := List.mem_singleton.mp ha
    obtain rfl := List.mem_singleton.mp hb
    have hclasses := p.classesSound_classes
    obtain ⟨x, hx⟩ := hclasses.exists_class_iff.mp hv
    obtain ⟨y, hy⟩ := hclasses.exists_class_iff.mp hu
    simp only [hx, hy, Option.getD_some] at hclass
    exact hclasses.related _ _ x hx (hclass ▸ hy)
  · intro g hg
    exact absurd hg List.not_mem_nil

/-- The members of a group are connected by copies. -/
theorem copyRelated_of_removedGroup {g : RemovedGroup V C} (hg : g ∈ removedGroups p) {a b : V}
    (ha : a ∈ g.members) (hb : b ∈ g.members) : p.CopyRelated a b :=
  ((groupsRelated_start p).steps _ _).removed g hg a ha b hb

end Coloring

end Lowering
