import Lowering.Collection.InsertionMap
import Mathlib.Data.List.Nodup

/-!
# Looking up written entries

What `get?` finds in a map after a list of pairs has been written to it, and how
entries and values correspond.
-/

namespace Lowering.InsertionMap

universe u v

variable {κ : Type u} {α : Type v} [DecidableEq κ] {m : InsertionMap κ α} {k : κ} {a : α}

theorem lookup_eq_some_iff {l : List (κ × α)} (hl : (l.map Prod.fst).Nodup) :
    l.lookup k = some a ↔ (k, a) ∈ l := by
  induction l with
  | nil => simp
  | cons e l ih =>
      rw [List.map_cons, List.nodup_cons] at hl
      by_cases hk : k = e.1
      · subst hk
        have hnot : ¬ (e.1, a) ∈ l := fun h => hl.1 (List.mem_map.mpr ⟨_, h, rfl⟩)
        simp [lookup_cons_eq_ite, hnot, Prod.ext_iff, eq_comm]
      · simp [lookup_cons_eq_ite, hk, ih hl.2, Prod.ext_iff]

theorem get?_eq_some_iff : m.get? k = some a ↔ (k, a) ∈ m.entries :=
  lookup_eq_some_iff m.nodup

theorem mem_iff_exists_get? : k ∈ m ↔ ∃ a, m.get? k = some a := by
  rw [← isSome_get?, Option.isSome_iff_exists]

theorem mem_insert {j : κ} : k ∈ m.insert j a ↔ k = j ∨ k ∈ m := by
  by_cases hk : k = j <;> simp [mem_iff_exists_get?, hk]

theorem keys_erase (m : InsertionMap κ α) (k : κ) : (m.erase k).keys = m.keys.erase k := by
  ext1
  simp [erase, filterKeys, keys, InsertionSet.erase, List.filter_map, Function.comp_def]

/-- The entries of a map are that of a key and those of the map without it. -/
theorem perm_cons_erase (h : m.get? k = some a) :
    m.entries.Perm ((k, a) :: (m.erase k).entries) := by
  have hmem : ∀ e, e ∈ (m.erase k).entries ↔ e ∈ m.entries ∧ e.1 ≠ k := by
    simp [erase, filterKeys]
  have hnot : ¬ (k, a) ∈ (m.erase k).entries := fun hk => ((hmem _).mp hk).2 rfl
  have hnodup : ((k, a) :: (m.erase k).entries).Nodup :=
    List.nodup_cons.mpr ⟨hnot, (m.erase k).nodup.of_map⟩
  apply (List.perm_ext_iff_of_nodup m.nodup.of_map hnodup).mpr
  intro e
  rw [List.mem_cons, hmem]
  constructor
  · intro he
    refine or_iff_not_imp_right.mpr fun hne => ?_
    have hk : e.1 = k := not_not.mp fun hk => hne ⟨he, hk⟩
    have hget : m.get? e.1 = some e.2 := get?_eq_some_iff.mpr he
    rw [hk, h] at hget
    exact Prod.ext hk (Option.some.inj hget).symm
  · rintro (rfl | he)
    · exact get?_eq_some_iff.mp h
    · exact he.1

theorem size_erase (h : m.get? k = some a) : (m.erase k).size + 1 = m.size :=
  (perm_cons_erase h).length_eq.symm

omit [DecidableEq κ] in
theorem size_mapValues {β : Type} (f : κ → α → β) : (m.mapValues f).size = m.size :=
  List.length_map _

omit [DecidableEq κ] in
theorem isEmpty_iff : m.isEmpty = true ↔ m.size = 0 := by
  rw [isEmpty, size, List.isEmpty_iff, List.length_eq_zero_iff]

theorem get?_insertAll_of_not_mem {l : List (κ × α)} (h : ¬ k ∈ l.map Prod.fst) :
    (m.insertAll l).get? k = m.get? k := by
  induction l generalizing m with
  | nil => rfl
  | cons e l ih =>
      rw [List.map_cons, List.mem_cons, not_or] at h
      exact (ih h.2).trans (by simp [h.1])

/-- A key that is written only with one value has that value in the end. -/
theorem get?_insertAll_of_mem {l : List (κ × α)} (hmem : (k, a) ∈ l)
    (hall : ∀ b, (k, b) ∈ l → b = a) : (m.insertAll l).get? k = some a := by
  induction l generalizing m with
  | nil => simp at hmem
  | cons e l ih =>
      by_cases hk : k ∈ l.map Prod.fst
      · obtain ⟨⟨_, b⟩, hb, rfl⟩ := List.mem_map.mp hk
        obtain rfl := hall b (List.mem_cons_of_mem _ hb)
        exact ih hb fun c hc => hall c (List.mem_cons_of_mem _ hc)
      · have hhead : (k, a) = e :=
          (List.mem_cons.mp hmem).resolve_right fun h => hk (List.mem_map_of_mem h)
        exact (get?_insertAll_of_not_mem hk).trans (by simp [← hhead])

theorem get?_ofList_of_not_mem {l : List (κ × α)} (h : ¬ k ∈ l.map Prod.fst) :
    (ofList l).get? k = none :=
  get?_insertAll_of_not_mem h

theorem get?_ofList_of_mem {l : List (κ × α)} (hl : (l.map Prod.fst).Nodup)
    (hmem : (k, a) ∈ l) : (ofList l).get? k = some a := by
  refine get?_insertAll_of_mem hmem fun b hb => ?_
  have hlookup := (lookup_eq_some_iff hl).mpr hmem
  rw [(lookup_eq_some_iff hl).mpr hb] at hlookup
  exact Option.some.inj hlookup

end Lowering.InsertionMap
