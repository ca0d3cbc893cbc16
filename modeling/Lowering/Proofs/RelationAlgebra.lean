import Lowering.Proofs.Relations
import Mathlib.Data.List.Induction

/-!
# The algebra of relations

The symmetric closure of a relation adds what is missing and nothing else. It lists the
vertices in the order in which the relation mentions them first, closing it once more
changes nothing but orders, and it makes no difference whether a relation is restricted
before or after it is closed.
-/

namespace Lowering

universe u

variable {V : Type u} [DecidableEq V]

/-- The set of a list lists its elements in the order of their first occurrence. -/
theorem InsertionSet.pairwise_idxOf_ofList (l : List V) :
    (ofList l).toList.Pairwise fun a b => l.idxOf a < l.idxOf b := by
  induction l using List.reverseRecOn with
  | nil => exact .nil
  | append_singleton l c ih =>
      have hold : ∀ a ∈ ofList l, (l ++ [c]).idxOf a = l.idxOf a := fun a ha =>
        List.idxOf_append_of_mem (mem_ofList.mp ha)
      have hpairs : (ofList l).toList.Pairwise fun a b =>
          (l ++ [c]).idxOf a < (l ++ [c]).idxOf b :=
        ih.imp_of_mem fun {a b} ha hb hab => by rwa [hold a ha, hold b hb]
      have hstep : ofList (l ++ [c]) = (ofList l).insert c := List.foldl_append
      rw [hstep]
      by_cases hc : c ∈ ofList l
      · rwa [insert_of_mem hc]
      · rw [toList_insert_of_not_mem hc]
        refine List.pairwise_append.mpr ⟨hpairs, List.pairwise_singleton _ _, fun a ha b hb => ?_⟩
        obtain rfl := List.mem_singleton.mp hb
        have hnew : ¬ b ∈ l := fun hb => hc (mem_ofList.mpr hb)
        rw [hold a ha, List.idxOf_append_of_notMem hnew, List.idxOf_cons_self, Nat.add_zero]
        exact List.idxOf_lt_length_of_mem (mem_ofList.mp ha)

namespace Relation

/-- Two relations know the same vertices and list the same vertices under each, in
whatever order. -/
structure SameUpToOrder (g h : Relation V) : Prop where
  keys : ∀ v, v ∈ g.keys ↔ v ∈ h.keys
  neighbors : ∀ v u, u ∈ g.neighbors v ↔ u ∈ h.neighbors v

theorem related_symmetricClosure (g : Relation V) (v u : V) :
    g.symmetricClosure.related v u = g.relatedEitherWay v u := by
  simp [related, relatedEitherWay, mem_neighbors_symmetricClosure]

theorem symmetricClosure_idem (g : Relation V) :
    g.symmetricClosure.symmetricClosure.SameUpToOrder g.symmetricClosure := by
  have hneighbors : ∀ v u, u ∈ g.symmetricClosure.symmetricClosure.neighbors v ↔
      u ∈ g.symmetricClosure.neighbors v := by
    intro v u
    simp only [mem_neighbors_symmetricClosure]
    rw [or_comm (a := v ∈ _), or_self]
  refine ⟨fun v => ?_, hneighbors⟩
  rw [mem_keys_symmetricClosure]
  refine ⟨?_, .inl⟩
  rintro (hv | ⟨u, hu⟩)
  · exact hv
  · rw [mem_neighbors_symmetricClosure] at hu
    exact mem_keys_of_mem_neighbors (mem_neighbors_symmetricClosure.mpr hu.symm)

theorem selfLoop?_symmetricClosure (g : Relation V) :
    g.symmetricClosure.selfLoop? = none ↔ g.selfLoop? = none := by
  simp only [selfLoop?_eq_none_iff, mem_neighbors_symmetricClosure, or_self]

theorem mem_keys_closure_restrict (g : Relation V) (keep : InsertionSet V) (v : V) :
    v ∈ (g.restrict keep).symmetricClosure.keys ↔ v ∈ keep := by
  rw [mem_keys_symmetricClosure, Mentions, keys_restrict]
  refine ⟨?_, .inl⟩
  rintro (hv | ⟨u, hu⟩)
  · exact hv
  · exact (mem_neighbors_restrict.mp hu).2.1

theorem restrict_symmetricClosure (g : Relation V) (keep : InsertionSet V) :
    (g.symmetricClosure.restrict keep).SameUpToOrder (g.restrict keep).symmetricClosure where
  keys v := by rw [keys_restrict, mem_keys_closure_restrict]
  neighbors v u := by
    simp only [mem_neighbors_restrict, mem_neighbors_symmetricClosure]
    tauto

/-- The laws of symmetric closures. A closure relates two vertices exactly if the relation
does in at least one direction. It knows the vertices that the relation mentions, by the
order of their first mention. Up to order it is its own closure, and it has a loop exactly
if the relation has one. Closing and restricting to some vertices can be exchanged: either
way these vertices and no others are known, and the same ones are related. -/
theorem symmetricClosure_laws (g : Relation V) (keep : InsertionSet V) :
    (∀ v u, g.symmetricClosure.related v u = true ↔ g.related v u = true ∨ g.related u v = true) ∧
    (∀ v, v ∈ g.symmetricClosure.keys ↔ v ∈ g.keys ∨ ∃ u, g.related u v = true) ∧
    (g.symmetricClosure.keys.toList.Pairwise fun v u =>
      g.mentioned.idxOf v < g.mentioned.idxOf u) ∧
    g.symmetricClosure.symmetricClosure.SameUpToOrder g.symmetricClosure ∧
    ((∃ v, g.symmetricClosure.selfLoop? = some v) ↔ ∃ v, g.selfLoop? = some v) ∧
    (g.symmetricClosure.restrict keep).keys = keep ∧
    (∀ v, v ∈ (g.restrict keep).symmetricClosure.keys ↔ v ∈ keep) ∧
    (g.symmetricClosure.restrict keep).SameUpToOrder (g.restrict keep).symmetricClosure := by
  refine ⟨fun v u => ?_, fun v => ?_, ?_, symmetricClosure_idem g, ?_, keys_restrict _ keep,
    mem_keys_closure_restrict g keep, restrict_symmetricClosure g keep⟩
  · rw [related_symmetricClosure, relatedEitherWay, Bool.or_eq_true]
  · simp [mem_keys_symmetricClosure, Mentions, related]
  · rw [keys_symmetricClosure]
    exact InsertionSet.pairwise_idxOf_ofList g.mentioned
  · simp only [← Option.ne_none_iff_exists', ne_eq, selfLoop?_symmetricClosure]

/-- The orders may indeed change: the third vertex is listed under the first one only once
the relation has been closed. -/
example : let g : Relation Nat := .ofList [(1, ∅), (2, ∅), (3, .ofList [1])]
    g.symmetricClosure.keys.toList = [1, 2, 3] ∧
      g.symmetricClosure.symmetricClosure.keys.toList = [1, 3, 2] := by
  decide

end Relation

end Lowering
