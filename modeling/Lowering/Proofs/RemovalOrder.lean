import Lowering.Proofs.Grouping
import Mathlib.Data.List.Infix

/-!
# The order of removal

A graph is taken apart one step at a time, and the list of removed groups only
grows. Each removed group is therefore the work of one step, which found it in the
graph and chose it either because it had few neighbors or because no group had.
The groups removed before that step stand behind it in the list, and vertices that
were in one group by then are in one group in the end.
-/

namespace Lowering.Coloring

variable {V C : Type} [DecidableEq V]

namespace State

variable {s : State V C} {colors n : Nat} {v u t : V} {k h : Group V C} {g : RemovedGroup V C}

/-- The next step removes a group. -/
def Removes (colors : Nat) (s : State V C) (g : RemovedGroup V C) : Prop :=
  (s.step colors).removed = g :: s.removed

/-! ## One step -/

/-- A removed group was in the graph, and its flag tells why it was removed. -/
theorem Removes.cases (hg : s.Removes colors g) :
    (∃ k, s.groups.get? g.head = some k ∧ g.members = k.members ∧ g.color = k.color) ∧
      (s.Simplifies colors g.head ∧ g.mayLackColor = false ∨
        s.Risks colors g.head ∧ g.mayLackColor = true) := by
  have hgrows : (s.step colors).removed ≠ s.removed := by
    intro hsame
    have hlength := congrArg List.length (hg.symm.trans hsame)
    simp at hlength
  rcases s.step_choices colors with
    ⟨v, u, hmerge, hstep⟩ | ⟨v, hv, hstep⟩ | ⟨v, hv, hstep⟩ | ⟨-, hstep⟩
  · obtain ⟨-, h, -, hu, -⟩ := merge?_eq_some hmerge
    exact absurd (hstep ▸ removed_merge hu) hgrows
  · obtain ⟨k, hk⟩ := hv.exists_group
    rw [Removes, hstep, removed_remove hk] at hg
    obtain rfl := (List.cons.inj hg).1
    exact ⟨⟨k, hk, rfl, rfl⟩, .inl ⟨hv, rfl⟩⟩
  · obtain ⟨k, hk⟩ := hv.exists_group
    rw [Removes, hstep, removed_remove hk] at hg
    obtain rfl := (List.cons.inj hg).1
    exact ⟨⟨k, hk, rfl, rfl⟩, .inr ⟨hv, rfl⟩⟩
  · exact absurd (congrArg removed hstep) hgrows

theorem removed_step (s : State V C) (colors : Nat) :
    (s.step colors).removed = s.removed ∨ ∃ g, s.Removes colors g := by
  rcases s.step_cases colors with
    ⟨v, u, k, h, -, hu, -, -, hstep⟩ | ⟨v, k, mayLackColor, hk, hstep⟩ | ⟨-, hstep⟩
  · exact .inl (hstep ▸ removed_merge hu)
  · exact .inr ⟨_, hstep ▸ removed_remove hk⟩
  · exact .inl (congrArg removed hstep)

/-! ## Vertices that are together -/

/-- Some vertices are members of one group, left or removed. -/
def Together (s : State V C) (vertices : List V) : Prop :=
  (∃ v k, s.groups.get? v = some k ∧ ∀ a ∈ vertices, a ∈ k.members) ∨
    ∃ g ∈ s.removed, ∀ a ∈ vertices, a ∈ g.members

theorem Together.step {vertices : List V} (hs : s.Together vertices) (colors : Nat) :
    (s.step colors).Together vertices := by
  rcases s.step_cases colors with
    ⟨v, u, k, h, hv, hu, hne, -, hstep⟩ | ⟨v, k, mayLackColor, hv, hstep⟩ | ⟨-, hstep⟩
  · rw [hstep]
    rcases hs with ⟨t, m, hm, hall⟩ | hremoved
    · obtain ⟨m', hm', hsub⟩ := exists_group_merge hv hu hne hm
      exact .inl ⟨_, m', hm', fun a ha => hsub a (hall a ha)⟩
    · refine .inr ?_
      rwa [removed_merge hu]
  · rw [hstep]
    rw [Together, removed_remove hv]
    rcases hs with ⟨t, m, hm, hall⟩ | ⟨g, hg, hall⟩
    · by_cases htv : t = v
      · subst htv
        obtain rfl := Option.some.inj (hm.symm.trans hv)
        exact .inr ⟨_, List.mem_cons_self, hall⟩
      · exact .inl ⟨t, _, get?_remove_of_ne hv hm htv, hall⟩
    · exact .inr ⟨g, List.mem_cons_of_mem _ hg, hall⟩
  · rwa [hstep]

/-! ## Many steps -/

theorem Together.steps {vertices : List V} (hs : s.Together vertices) (colors n : Nat) :
    (s.steps colors n).Together vertices :=
  steps_keep (fun s (h : s.Together vertices) => h.step colors) hs n

theorem steps_add (s : State V C) (colors m n : Nat) :
    s.steps colors (m + n) = (s.steps colors m).steps colors n := by
  induction m generalizing s with
  | zero => rw [Nat.zero_add, steps]
  | succ m ih => rw [Nat.succ_add, steps, steps, ih]

theorem removed_suffix_steps (s : State V C) (colors n : Nat) :
    s.removed <:+ (s.steps colors n).removed := by
  induction n generalizing s with
  | zero => exact List.suffix_rfl
  | succ n ih =>
      refine List.IsSuffix.trans ?_ (ih (s.step colors))
      rcases s.removed_step colors with hsame | ⟨g, hg⟩
      · rw [hsame]
      · exact ⟨[g], hg.symm⟩

/-- Whatever has been removed after some steps was removed by one of them. -/
theorem exists_removes_of_mem (hg : g ∈ (s.steps colors n).removed) :
    g ∈ s.removed ∨ ∃ m, (s.steps colors m).Removes colors g := by
  induction n generalizing s with
  | zero => exact .inl hg
  | succ n ih =>
      rcases ih hg with hfirst | ⟨m, hm⟩
      · rcases s.removed_step colors with hsame | ⟨g', hg'⟩
        · exact .inl (hsame ▸ hfirst)
        · have hcons := hfirst
          rw [hg'] at hcons
          rcases List.mem_cons.mp hcons with rfl | hold
          · exact .inr ⟨0, hg'⟩
          · exact .inl hold
      · exact .inr ⟨m + 1, hm⟩

end State

section Problem

variable [DecidableEq C] {p : ColoringProblem V C} {n : Nat} {v : V} {k : Group V C}
  {g : RemovedGroup V C}

theorem stateAfter_succ (p : ColoringProblem V C) (n : Nat) :
    stateAfter p (n + 1) = (stateAfter p n).step p.allowed.length := by
  rw [stateAfter, State.steps_add]
  rfl

theorem lt_size_of_group (hv : (stateAfter p n).groups.get? v = some k) : n < p.vertices.size := by
  have hpos : 0 < (stateAfter p n).groups.size :=
    List.length_pos_of_mem (InsertionMap.get?_eq_some_iff.mp hv)
  rw [size_stateAfter] at hpos
  omega

/-- Every removed group is removed by some step. -/
theorem exists_removes (hg : g ∈ removedGroups p) :
    ∃ n, (stateAfter p n).Removes p.allowed.length g :=
  (State.exists_removes_of_mem hg).resolve_left List.not_mem_nil

theorem removedGroups_eq_steps (hn : n ≤ p.vertices.size) :
    removedGroups p =
      ((stateAfter p n).steps p.allowed.length (p.vertices.size - n)).removed := by
  rw [removedGroups, stateAfter, stateAfter, ← State.steps_add, Nat.add_sub_cancel' hn]

/-- Behind a group in the list stand the groups removed before it. -/
theorem removedGroups_split (hg : (stateAfter p n).Removes p.allowed.length g) :
    ∃ later, removedGroups p = later ++ g :: (stateAfter p n).removed := by
  obtain ⟨⟨k, hk, -, -⟩, -⟩ := hg.cases
  have hlt : n + 1 ≤ p.vertices.size := lt_size_of_group hk
  have hsuffix := (stateAfter p (n + 1)).removed_suffix_steps p.allowed.length
    (p.vertices.size - (n + 1))
  rw [← removedGroups_eq_steps hlt, stateAfter_succ, hg] at hsuffix
  obtain ⟨later, hlater⟩ := hsuffix
  exact ⟨later, hlater.symm⟩

theorem mem_removedGroups_of_removes (hg : (stateAfter p n).Removes p.allowed.length g) :
    g ∈ removedGroups p := by
  obtain ⟨later, hsplit⟩ := removedGroups_split hg
  simp [hsplit]

/-- The members of a group that is left at some time end up in one group. -/
theorem exists_removedGroup_of_group (hv : (stateAfter p n).groups.get? v = some k) :
    ∃ g ∈ removedGroups p, ∀ a ∈ k.members, a ∈ g.members := by
  have hle : n ≤ p.vertices.size := (lt_size_of_group hv).le
  have hnow : (stateAfter p n).Together k.members := .inl ⟨v, k, hv, fun _ => id⟩
  rcases hnow.steps p.allowed.length (p.vertices.size - n) with ⟨t, m, hm, -⟩ | hremoved
  · rw [stateAfter, ← State.steps_add, Nat.add_sub_cancel' hle] at hm
    exact absurd (lt_size_of_group (n := p.vertices.size) hm) (Nat.lt_irrefl _)
  · rwa [← removedGroups_eq_steps hle] at hremoved

end Problem

end Lowering.Coloring
