import Lowering.Collection.InsertionSet

/-!
# Maps that remember the order of insertion

An `InsertionMap` lists its entries in an order decided by the writes to it.
There are two ways to write. `insert` puts its entry at the back, also when the
key was present before. `modifyD` changes the value of a present key where it
stands, and appends an absent key.

The view of a map is `get?` together with the list of its keys.
-/

namespace Lowering

universe u v w

variable {κ : Type u} {α : Type v} {β : Type w}

/-- A finite map listed in the order in which its keys were written. -/
@[ext]
structure InsertionMap (κ : Type u) (α : Type v) where
  entries : List (κ × α)
  nodup : (entries.map Prod.fst).Nodup
deriving DecidableEq

namespace InsertionMap

def empty : InsertionMap κ α :=
  ⟨[], List.nodup_nil⟩

instance : EmptyCollection (InsertionMap κ α) :=
  ⟨empty⟩

instance : Inhabited (InsertionMap κ α) :=
  ⟨∅⟩

/-- The keys in the order of the entries. -/
def keys (m : InsertionMap κ α) : InsertionSet κ :=
  ⟨m.entries.map Prod.fst, m.nodup⟩

instance : Membership κ (InsertionMap κ α) :=
  ⟨fun m k => k ∈ m.keys⟩

theorem mem_iff_mem_keys {m : InsertionMap κ α} {k : κ} : k ∈ m ↔ k ∈ m.keys :=
  Iff.rfl

def size (m : InsertionMap κ α) : Nat :=
  m.entries.length

def isEmpty (m : InsertionMap κ α) : Bool :=
  m.entries.isEmpty

/-- Keeps the entries whose key satisfies `p`. -/
def filterKeys (m : InsertionMap κ α) (p : κ → Bool) : InsertionMap κ α :=
  ⟨m.entries.filter (fun e => p e.1),
    m.nodup.sublist (List.filter_sublist.map Prod.fst)⟩

/-- Changes every value, keeping the keys and their order. -/
def mapValues (m : InsertionMap κ α) (f : κ → α → β) : InsertionMap κ β :=
  ⟨m.entries.map (fun e => (e.1, f e.1 e.2)), by
    have h : (m.entries.map fun e => (e.1, f e.1 e.2)).map Prod.fst =
        m.entries.map Prod.fst := by
      simp [Function.comp_def]
    exact h ▸ m.nodup⟩

@[simp]
theorem keys_mapValues (m : InsertionMap κ α) (f : κ → α → β) :
    (m.mapValues f).keys = m.keys := by
  ext1
  simp [keys, mapValues, Function.comp_def]

/-- The map that gives every key of a set its value under `f`. -/
def ofKeys (s : InsertionSet κ) (f : κ → α) : InsertionMap κ α :=
  ⟨s.toList.map (fun k => (k, f k)), by
    have h : (s.toList.map fun k => (k, f k)).map Prod.fst = s.toList := by
      simp [Function.comp_def]
    exact h.symm ▸ s.nodup⟩

@[simp]
theorem keys_ofKeys (s : InsertionSet κ) (f : κ → α) : (ofKeys s f).keys = s := by
  ext1
  simp [keys, ofKeys, Function.comp_def]

theorem map_fst_filterMap (f : κ → Option α) (l : List κ) :
    (l.filterMap fun k => (f k).map fun a => (k, a)).map Prod.fst =
      l.filter (fun k => (f k).isSome) := by
  induction l with
  | nil => rfl
  | cons k l ih => cases h : f k <;> simp [h, ih]

/-- The map that gives the keys of a set their values under `f`, where there is
one. -/
def ofPartial (s : InsertionSet κ) (f : κ → Option α) : InsertionMap κ α :=
  ⟨s.toList.filterMap (fun k => (f k).map fun a => (k, a)), by
    rw [map_fst_filterMap]
    exact s.nodup.sublist List.filter_sublist⟩

variable [DecidableEq κ]

instance (m : InsertionMap κ α) (k : κ) : Decidable (k ∈ m) :=
  inferInstanceAs (Decidable (k ∈ m.keys))

/-- The value of a key. -/
def get? (m : InsertionMap κ α) (k : κ) : Option α :=
  m.entries.lookup k

theorem lookup_cons_eq_ite (k : κ) (e : κ × α) (l : List (κ × α)) :
    (e :: l).lookup k = if k = e.1 then some e.2 else l.lookup k := by
  by_cases h : k = e.1
  · rw [List.lookup_cons, if_pos h, beq_iff_eq.mpr h]
  · rw [List.lookup_cons, if_neg h, beq_false_of_ne h]

/-- Removes a key and its value. -/
def erase (m : InsertionMap κ α) (k : κ) : InsertionMap κ α :=
  m.filterKeys (fun j => decide (j ≠ k))

theorem nodup_fst_filter_append (m : InsertionMap κ α) (k : κ) (a : α) :
    ((m.entries.filter (fun e => decide (e.1 ≠ k)) ++ [(k, a)]).map Prod.fst).Nodup := by
  rw [List.map_append, List.nodup_append]
  refine ⟨m.nodup.sublist (List.filter_sublist.map Prod.fst), by simp, ?_⟩
  intro x hx y hy heq
  obtain ⟨e, he, rfl⟩ := List.mem_map.mp hx
  obtain rfl : y = k := by simpa using hy
  simpa [heq] using (List.mem_filter.mp he).2

/-- Gives `k` the value `a` at the back of the map, wherever it stood before. -/
def insert (m : InsertionMap κ α) (k : κ) (a : α) : InsertionMap κ α :=
  ⟨m.entries.filter (fun e => decide (e.1 ≠ k)) ++ [(k, a)], nodup_fst_filter_append m k a⟩

/-- Writes the pairs of a list one after another. -/
def insertAll (m : InsertionMap κ α) (l : List (κ × α)) : InsertionMap κ α :=
  l.foldl (fun m e => m.insert e.1 e.2) m

/-- The map of a list of pairs; the last pair of a key wins, and gives the place. -/
def ofList (l : List (κ × α)) : InsertionMap κ α :=
  (∅ : InsertionMap κ α).insertAll l

/-- `modifyEntries k d f l` changes the value of `k` in place, starting from `d`
in a new entry at the back if there is none. -/
def modifyEntries (k : κ) (d : α) (f : α → α) : List (κ × α) → List (κ × α)
  | [] => [(k, f d)]
  | e :: l => if e.1 = k then (k, f e.2) :: l else e :: modifyEntries k d f l

theorem map_fst_modifyEntries (k : κ) (d : α) (f : α → α) (l : List (κ × α)) :
    (modifyEntries k d f l).map Prod.fst = appendNew (l.map Prod.fst) k := by
  induction l with
  | nil => simp [modifyEntries, appendNew]
  | cons e l ih =>
      by_cases h : e.1 = k
      · simp [modifyEntries, appendNew, h]
      · have hk : ¬ k = e.1 := fun heq => h heq.symm
        simp only [modifyEntries, if_neg h, List.map_cons, ih, appendNew, List.mem_cons, hk,
          false_or]
        split <;> rfl

/-- Changes the value of `k` by `f` where it stands; an absent key is appended
with the value `f d`. -/
def modifyD (m : InsertionMap κ α) (k : κ) (d : α) (f : α → α) : InsertionMap κ α :=
  ⟨modifyEntries k d f m.entries, by
    rw [map_fst_modifyEntries]
    exact nodup_appendNew m.nodup k⟩

@[simp]
theorem keys_modifyD (m : InsertionMap κ α) (k : κ) (d : α) (f : α → α) :
    (m.modifyD k d f).keys = m.keys.insert k := by
  ext1
  exact map_fst_modifyEntries k d f m.entries

@[simp]
theorem get?_empty (k : κ) : (∅ : InsertionMap κ α).get? k = none :=
  rfl

theorem isSome_get? {m : InsertionMap κ α} {k : κ} : (m.get? k).isSome = true ↔ k ∈ m := by
  simp only [get?, mem_iff_mem_keys, InsertionSet.mem_iff, keys]
  induction m.entries with
  | nil => simp
  | cons e l ih => by_cases h : k = e.1 <;> simp [lookup_cons_eq_ite, h, ih]

theorem get?_eq_none {m : InsertionMap κ α} {k : κ} : m.get? k = none ↔ ¬ k ∈ m := by
  rw [← isSome_get?]
  simp

theorem lookup_modifyEntries (k j : κ) (d : α) (f : α → α) (l : List (κ × α)) :
    (modifyEntries k d f l).lookup j =
      if j = k then some (f ((l.lookup k).getD d)) else l.lookup j := by
  induction l with
  | nil => by_cases h : j = k <;> simp [modifyEntries, lookup_cons_eq_ite, h]
  | cons e l ih =>
      by_cases he : e.1 = k
      · by_cases hj : j = k <;> simp [modifyEntries, lookup_cons_eq_ite, he, hj]
      · have hk : ¬ k = e.1 := fun heq => he heq.symm
        by_cases hj : j = k
        · subst hj
          simp [modifyEntries, lookup_cons_eq_ite, he, hk, ih]
        · simp [modifyEntries, lookup_cons_eq_ite, he, hj, ih]

@[simp]
theorem get?_modifyD (m : InsertionMap κ α) (k j : κ) (d : α) (f : α → α) :
    (m.modifyD k d f).get? j =
      if j = k then some (f ((m.get? k).getD d)) else m.get? j :=
  lookup_modifyEntries k j d f m.entries

theorem lookup_filter (p : κ → Bool) (l : List (κ × α)) (k : κ) :
    (l.filter fun e => p e.1).lookup k = if p k = true then l.lookup k else none := by
  induction l with
  | nil => simp
  | cons e l ih =>
      by_cases hk : k = e.1
      · subst hk
        by_cases hp : p e.1 = true <;> simp [lookup_cons_eq_ite, hp, ih]
      · by_cases hp : p e.1 = true <;> simp [lookup_cons_eq_ite, hp, hk, ih]

@[simp]
theorem get?_filterKeys (m : InsertionMap κ α) (p : κ → Bool) (k : κ) :
    (m.filterKeys p).get? k = if p k = true then m.get? k else none :=
  lookup_filter p m.entries k

@[simp]
theorem get?_erase (m : InsertionMap κ α) (k j : κ) :
    (m.erase k).get? j = if j = k then none else m.get? j := by
  by_cases h : j = k <;> simp [erase, h]

@[simp]
theorem get?_insert (m : InsertionMap κ α) (k j : κ) (a : α) :
    (m.insert k a).get? j = if j = k then some a else m.get? j := by
  have h := lookup_filter (fun i => decide (i ≠ k)) m.entries j
  simp only [get?, insert, List.lookup_append, h]
  by_cases hj : j = k <;> simp [hj, lookup_cons_eq_ite]

@[simp]
theorem get?_mapValues (m : InsertionMap κ α) (f : κ → α → β) (k : κ) :
    (m.mapValues f).get? k = (m.get? k).map (f k) := by
  simp only [get?, mapValues]
  induction m.entries with
  | nil => rfl
  | cons e l ih =>
      by_cases h : k = e.1
      · subst h
        simp [lookup_cons_eq_ite]
      · simp [lookup_cons_eq_ite, h, ih]

@[simp]
theorem get?_ofKeys (s : InsertionSet κ) (f : κ → α) (k : κ) :
    (ofKeys s f).get? k = if k ∈ s then some (f k) else none := by
  simp only [get?, ofKeys, InsertionSet.mem_iff]
  induction s.toList with
  | nil => rfl
  | cons j l ih =>
      by_cases h : k = j
      · subst h
        simp [lookup_cons_eq_ite]
      · simp [lookup_cons_eq_ite, h, ih]

@[simp]
theorem get?_ofPartial (s : InsertionSet κ) (f : κ → Option α) (k : κ) :
    (ofPartial s f).get? k = if k ∈ s then f k else none := by
  simp only [get?, ofPartial, InsertionSet.mem_iff]
  induction s.toList with
  | nil => rfl
  | cons j l ih =>
      by_cases h : k = j
      · subst h
        cases hf : f k with
        | none =>
            simp only [List.filterMap_cons, hf, Option.map_none, ih]
            simp
        | some a => simp [hf, lookup_cons_eq_ite]
      · cases hf : f j with
        | none => simp [hf, ih, h]
        | some a => simp [hf, lookup_cons_eq_ite, h, ih]

end InsertionMap

end Lowering
