/-!
# Sets that remember the order of insertion

An `InsertionSet` lists its elements by the time of their insertion. Inserting
an element that is present leaves the set as it is, so every order that a later
stage derives from such a set is decided by the input alone.

The view of a set is its `toList`, and membership is membership in that list.
-/

namespace Lowering

universe u

variable {α : Type u}

/-- `appendNew l a` puts `a` at the back of `l` unless `l` holds it already. -/
def appendNew [DecidableEq α] (l : List α) (a : α) : List α :=
  if a ∈ l then l else l ++ [a]

theorem mem_appendNew [DecidableEq α] {l : List α} {a b : α} :
    b ∈ appendNew l a ↔ b ∈ l ∨ b = a := by
  unfold appendNew
  split
  · exact ⟨Or.inl, fun h => h.elim id fun heq => heq ▸ ‹a ∈ l›⟩
  · simp

theorem nodup_appendNew [DecidableEq α] {l : List α} (hl : l.Nodup) (a : α) :
    (appendNew l a).Nodup := by
  unfold appendNew
  split
  · exact hl
  · rename_i ha
    refine List.nodup_append.mpr ⟨hl, by simp, ?_⟩
    intro x hx y hy heq
    obtain rfl := List.mem_singleton.mp hy
    exact ha (heq ▸ hx)

/-- All pairs of an earlier and a later element of a list, row by row. -/
def orderedPairs : List α → List (α × α)
  | [] => []
  | a :: l => l.map (fun b => (a, b)) ++ orderedPairs l

/-- A finite set listed in the order in which its elements were inserted. -/
@[ext]
structure InsertionSet (α : Type u) where
  toList : List α
  nodup : toList.Nodup
deriving DecidableEq

namespace InsertionSet

def empty : InsertionSet α :=
  ⟨[], List.nodup_nil⟩

instance : EmptyCollection (InsertionSet α) :=
  ⟨empty⟩

instance : Inhabited (InsertionSet α) :=
  ⟨∅⟩

instance : Membership α (InsertionSet α) :=
  ⟨fun s a => a ∈ s.toList⟩

theorem mem_iff {s : InsertionSet α} {a : α} : a ∈ s ↔ a ∈ s.toList :=
  Iff.rfl

@[simp]
theorem toList_empty : (∅ : InsertionSet α).toList = [] :=
  rfl

@[simp]
theorem not_mem_empty (a : α) : ¬ a ∈ (∅ : InsertionSet α) := by
  simp [mem_iff]

instance [DecidableEq α] (s : InsertionSet α) (a : α) : Decidable (a ∈ s) :=
  inferInstanceAs (Decidable (a ∈ s.toList))

def size (s : InsertionSet α) : Nat :=
  s.toList.length

def isEmpty (s : InsertionSet α) : Bool :=
  s.toList.isEmpty

theorem isEmpty_of_mem {s : InsertionSet α} {a : α} (h : a ∈ s) : s.isEmpty = false :=
  List.isEmpty_eq_false_iff_exists_mem.mpr ⟨a, h⟩

/-- Keeps the elements that satisfy `p`, in their order. -/
def filter (s : InsertionSet α) (p : α → Bool) : InsertionSet α :=
  ⟨s.toList.filter p, s.nodup.sublist List.filter_sublist⟩

@[simp]
theorem toList_filter (s : InsertionSet α) (p : α → Bool) :
    (s.filter p).toList = s.toList.filter p :=
  rfl

@[simp]
theorem mem_filter {s : InsertionSet α} {p : α → Bool} {a : α} :
    a ∈ s.filter p ↔ a ∈ s ∧ p a = true := by
  simp [mem_iff, filter]

/-- The earliest element together with the set of the others. -/
def popFront? (s : InsertionSet α) : Option (α × InsertionSet α) :=
  match s with
  | ⟨[], _⟩ => none
  | ⟨a :: l, h⟩ => some (a, ⟨l, (List.nodup_cons.mp h).2⟩)

/-- The latest element together with the set of the others. -/
def popBack? (s : InsertionSet α) : Option (α × InsertionSet α) :=
  s.toList.getLast?.map fun a =>
    (a, ⟨s.toList.dropLast, s.nodup.sublist (List.dropLast_sublist _)⟩)

variable [DecidableEq α]

/-- Adds `a` at the back; a present element keeps its place. -/
def insert (s : InsertionSet α) (a : α) : InsertionSet α :=
  ⟨appendNew s.toList a, nodup_appendNew s.nodup a⟩

@[simp]
theorem mem_insert {s : InsertionSet α} {a b : α} :
    b ∈ s.insert a ↔ b ∈ s ∨ b = a :=
  mem_appendNew

theorem insert_of_mem {s : InsertionSet α} {a : α} (h : a ∈ s) : s.insert a = s := by
  ext1
  exact if_pos h

theorem toList_insert_of_not_mem {s : InsertionSet α} {a : α} (h : ¬ a ∈ s) :
    (s.insert a).toList = s.toList ++ [a] :=
  if_neg h

/-- Adds the elements of a list one after another. -/
def insertAll (s : InsertionSet α) (l : List α) : InsertionSet α :=
  l.foldl insert s

@[simp]
theorem insertAll_nil (s : InsertionSet α) : s.insertAll [] = s :=
  rfl

@[simp]
theorem insertAll_cons (s : InsertionSet α) (a : α) (l : List α) :
    s.insertAll (a :: l) = (s.insert a).insertAll l :=
  rfl

@[simp]
theorem mem_insertAll {s : InsertionSet α} {l : List α} {b : α} :
    b ∈ s.insertAll l ↔ b ∈ s ∨ b ∈ l := by
  induction l generalizing s with
  | nil => simp
  | cons a l ih => simp [ih, or_assoc]

theorem insertAll_of_forall_mem {s : InsertionSet α} {l : List α} (h : ∀ a ∈ l, a ∈ s) :
    s.insertAll l = s := by
  induction l with
  | nil => rfl
  | cons a l ih =>
      rw [List.forall_mem_cons] at h
      rw [insertAll_cons, insert_of_mem h.1, ih h.2]

/-- The set of the elements of a list; the first occurrence gives the place. -/
def ofList (l : List α) : InsertionSet α :=
  (∅ : InsertionSet α).insertAll l

@[simp]
theorem mem_ofList {l : List α} {a : α} : a ∈ ofList l ↔ a ∈ l := by
  simp [ofList]

theorem toList_insertAll_of_disjoint {s : InsertionSet α} {l : List α}
    (hl : l.Nodup) (hs : ∀ a ∈ l, ¬ a ∈ s) :
    (s.insertAll l).toList = s.toList ++ l := by
  induction l generalizing s with
  | nil => simp
  | cons a l ih =>
      obtain ⟨ha, hl⟩ := List.nodup_cons.mp hl
      have hnew : ¬ a ∈ s := hs a List.mem_cons_self
      have hrest : ∀ b ∈ l, ¬ b ∈ s.insert a := by
        intro b hb hmem
        rcases mem_insert.mp hmem with hmem | rfl
        · exact hs b (List.mem_cons_of_mem _ hb) hmem
        · exact ha hb
      rw [insertAll_cons, ih hl hrest, toList_insert_of_not_mem hnew]
      simp

/-- A set is the set of its own list, in the same order. -/
@[simp]
theorem ofList_toList (s : InsertionSet α) : ofList s.toList = s := by
  ext1
  rw [ofList, toList_insertAll_of_disjoint s.nodup (fun a _ => not_mem_empty a)]
  rfl

/-- Removes `a`; the others keep their order. -/
def erase (s : InsertionSet α) (a : α) : InsertionSet α :=
  s.filter (fun b => decide (b ≠ a))

@[simp]
theorem mem_erase {s : InsertionSet α} {a b : α} : b ∈ s.erase a ↔ b ∈ s ∧ b ≠ a := by
  simp [erase]

/-- Inserts `a` and tells whether the set grew. -/
def tryInsert (s : InsertionSet α) (a : α) : Bool × InsertionSet α :=
  (decide (¬ a ∈ s), s.insert a)

/-- Erases `a` and tells whether the set shrank. -/
def tryErase (s : InsertionSet α) (a : α) : Bool × InsertionSet α :=
  (decide (a ∈ s), s.erase a)

/-- Whether two sets have the same elements, in whatever order. Since no element
is listed twice, equal sizes and one inclusion decide it. -/
def sameElements (s t : InsertionSet α) : Bool :=
  decide (s.size = t.size) && s.toList.all (fun a => decide (a ∈ t))

end InsertionSet

end Lowering
