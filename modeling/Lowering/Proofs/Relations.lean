import Lowering.Proofs.Maps
import Lowering.Relation

/-!
# Who is related to whom

The vertices of relations that are built from others, and their neighbors there.
-/

namespace Lowering

universe u

/-- An ordered pair of a list is a part of the list. -/
theorem mem_orderedPairs {α : Type u} {a b : α} {l : List α} :
    (a, b) ∈ orderedPairs l ↔ [a, b].Sublist l := by
  induction l with
  | nil => simp [orderedPairs]
  | cons c l ih =>
      rw [orderedPairs, List.mem_append, ih, List.cons_sublist_cons', List.singleton_sublist,
        or_comm]
      simp [eq_comm, and_comm]

/-- Of two different elements of a list, one comes before the other. -/
theorem mem_orderedPairs_or {α : Type u} {a b : α} {l : List α} (ha : a ∈ l) (hb : b ∈ l)
    (hne : a ≠ b) : (a, b) ∈ orderedPairs l ∨ (b, a) ∈ orderedPairs l := by
  induction l with
  | nil => exact absurd ha List.not_mem_nil
  | cons c l ih =>
      simp only [orderedPairs, List.mem_append, List.mem_map, Prod.mk.injEq]
      rcases List.mem_cons.mp ha with rfl | hal
      · exact .inl (.inl ⟨b, (List.mem_cons.mp hb).resolve_left hne.symm, rfl, rfl⟩)
      · rcases List.mem_cons.mp hb with rfl | hbl
        · exact .inr (.inl ⟨a, hal, rfl, rfl⟩)
        · exact (ih hal hbl).imp .inr .inr

namespace Relation

variable {V : Type u} [DecidableEq V] {g : Relation V}

theorem mem_neighbors_iff_entry {v u : V} :
    u ∈ g.neighbors v ↔ ∃ e ∈ g.entries, e.1 = v ∧ u ∈ e.2 := by
  unfold neighbors
  cases hget : g.get? v with
  | none =>
      simp only [Option.getD_none, InsertionSet.not_mem_empty, false_iff]
      rintro ⟨⟨_, t⟩, he, rfl, -⟩
      rw [InsertionMap.get?_eq_some_iff.mpr he] at hget
      exact absurd hget (by simp)
  | some t =>
      simp only [Option.getD_some]
      constructor
      · exact fun hu => ⟨(v, t), InsertionMap.get?_eq_some_iff.mp hget, rfl, hu⟩
      · rintro ⟨⟨_, t'⟩, he, rfl, hu⟩
        rw [InsertionMap.get?_eq_some_iff.mpr he] at hget
        exact Option.some.inj hget ▸ hu

theorem mem_neighbors_addArcs {l : List (V × V)} {v u : V} :
    u ∈ (l.foldl (fun g p => g.addArc p.1 p.2) g).neighbors v ↔
      u ∈ g.neighbors v ∨ (v, u) ∈ l := by
  induction l generalizing g with
  | nil => simp
  | cons p l ih =>
      rw [List.foldl_cons, ih, neighbors_addArc, List.mem_cons, Prod.ext_iff]
      by_cases hv : v = p.1
      · simp [hv, or_assoc]
      · simp [hv]

/-- The symmetric closure relates two vertices if one is listed under the other. -/
theorem mem_neighbors_symmetricClosure {v u : V} :
    u ∈ g.symmetricClosure.neighbors v ↔ u ∈ g.neighbors v ∨ v ∈ g.neighbors u := by
  have hfold : ∀ (l : List (V × InsertionSet V)) (h : Relation V),
      u ∈ (l.foldl (fun h e =>
        (h.addVertex e.1).addEdges (e.2.toList.map fun b => (e.1, b))) h).neighbors v ↔
      u ∈ h.neighbors v ∨ (∃ e ∈ l, e.1 = v ∧ u ∈ e.2) ∨ ∃ e ∈ l, e.1 = u ∧ v ∈ e.2 := by
    intro l
    induction l with
    | nil => simp
    | cons e l ih =>
        intro h
        rw [List.foldl_cons, ih, mem_neighbors_addEdges, neighbors_addVertex]
        simp only [List.mem_map, Prod.mk.injEq, List.mem_cons, exists_eq_or_imp,
          InsertionSet.mem_iff]
        grind
  have hempty : ¬ u ∈ neighbors (∅ : Relation V) v := by simp [neighbors]
  rw [symmetricClosure, hfold, mem_neighbors_iff_entry (g := g), mem_neighbors_iff_entry (g := g)]
  simp only [hempty, false_or]

theorem mem_keys_of_mem_neighbors {v u : V} (h : u ∈ g.neighbors v) : v ∈ g.keys := by
  obtain ⟨e, he, rfl, -⟩ := mem_neighbors_iff_entry.mp h
  exact List.mem_map_of_mem he

theorem not_mem_neighbors_self {v : V} (h : g.selfLoop? = none) : ¬ v ∈ g.neighbors v := by
  intro hv
  have hrelated := List.find?_eq_none.mp h v (mem_keys_of_mem_neighbors hv)
  simp [related, hv] at hrelated

theorem mem_neighbors_of_selfLoop? {v : V} (h : g.selfLoop? = some v) : v ∈ g.neighbors v := by
  simpa [related] using List.find?_some h

theorem selfLoop?_eq_none_iff : g.selfLoop? = none ↔ ¬ ∃ v, v ∈ g.neighbors v := by
  constructor
  · rintro h ⟨v, hv⟩
    exact not_mem_neighbors_self h hv
  · intro h
    apply Option.eq_none_iff_forall_ne_some.mpr
    intro v hv
    exact h ⟨v, mem_neighbors_of_selfLoop? hv⟩

theorem mem_pairs {v u : V} : (v, u) ∈ g.pairs ↔ u ∈ g.neighbors v := by
  rw [mem_neighbors_iff_entry, pairs, List.mem_flatMap]
  simp only [List.mem_map, Prod.mk.injEq, InsertionSet.mem_iff]
  grind

/-! ## The vertices of a relation -/

/-- A relation mentions a vertex if it knows it or lists it under another. -/
def Mentions (g : Relation V) (v : V) : Prop :=
  v ∈ g.keys ∨ ∃ u, v ∈ g.neighbors u

theorem mentions_iff_entry {v : V} : g.Mentions v ↔ ∃ e ∈ g.entries, v = e.1 ∨ v ∈ e.2 := by
  have hkey : v ∈ g.keys ↔ ∃ e ∈ g.entries, v = e.1 := by
    simp [InsertionMap.keys, InsertionSet.mem_iff, eq_comm]
  rw [Mentions, hkey]
  constructor
  · rintro (⟨e, he, hv⟩ | ⟨u, hu⟩)
    · exact ⟨e, he, .inl hv⟩
    · obtain ⟨e, he, -, hv⟩ := mem_neighbors_iff_entry.mp hu
      exact ⟨e, he, .inr hv⟩
  · rintro ⟨e, he, hv | hv⟩
    · exact .inl ⟨e, he, hv⟩
    · exact .inr ⟨e.1, mem_neighbors_iff_entry.mpr ⟨e, he, rfl, hv⟩⟩

theorem mem_keys_addEdges {l : List (V × V)} {v : V} :
    v ∈ (g.addEdges l).keys ↔ v ∈ g.keys ∨ ∃ p ∈ l, v = p.1 ∨ v = p.2 := by
  induction l generalizing g with
  | nil => simp [addEdges]
  | cons p l ih =>
      have hstep : g.addEdges (p :: l) = (g.addEdge p.1 p.2).addEdges l := rfl
      rw [hstep, ih]
      simp [or_assoc]

/-- The vertices that a relation mentions, in order: each known vertex is followed by
those listed under it. -/
def mentioned (g : Relation V) : List V :=
  g.entries.flatMap fun e => e.1 :: e.2.toList

theorem mem_mentioned {v : V} : v ∈ g.mentioned ↔ g.Mentions v := by
  simp [mentioned, mentions_iff_entry, InsertionSet.mem_iff]

/-- Edges from a known vertex make their other ends known, in order. -/
theorem keys_addEdges_from {v : V} (hv : v ∈ g.keys) (l : List V) :
    (g.addEdges (l.map fun u => (v, u))).keys = g.keys.insertAll l := by
  induction l generalizing g with
  | nil => rfl
  | cons u l ih =>
      have hkeys : (g.addEdge v u).keys = g.keys.insert u := by
        rw [keys_addEdge, InsertionSet.insert_of_mem hv]
      have hstep : g.addEdges ((u :: l).map fun u => (v, u)) =
          (g.addEdge v u).addEdges (l.map fun u => (v, u)) := rfl
      rw [hstep, ih (hkeys ▸ InsertionSet.mem_insert.mpr (.inl hv)), hkeys,
        InsertionSet.insertAll_cons]

/-- The symmetric closure knows the vertices that are mentioned, in the order of their
first mention. -/
theorem keys_symmetricClosure (g : Relation V) :
    g.symmetricClosure.keys = .ofList g.mentioned := by
  have hfold : ∀ (l : List (V × InsertionSet V)) (h : Relation V),
      (l.foldl (fun h e =>
        (h.addVertex e.1).addEdges (e.2.toList.map fun b => (e.1, b))) h).keys =
      h.keys.insertAll (l.flatMap fun e => e.1 :: e.2.toList) := by
    intro l
    induction l with
    | nil => exact fun h => rfl
    | cons e l ih =>
        intro h
        have hknown : e.1 ∈ (h.addVertex e.1).keys := by simp
        rw [List.foldl_cons, ih, keys_addEdges_from hknown, keys_addVertex, List.flatMap_cons,
          InsertionSet.insertAll, InsertionSet.insertAll, ← List.foldl_append]
        rfl
  exact hfold g.entries ∅

/-- The symmetric closure knows every vertex that is mentioned. -/
theorem mem_keys_symmetricClosure {v : V} : v ∈ g.symmetricClosure.keys ↔ g.Mentions v := by
  rw [keys_symmetricClosure, InsertionSet.mem_ofList, mem_mentioned]

end Relation

end Lowering
