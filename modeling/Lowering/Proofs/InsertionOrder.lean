import Lowering.Collection.InsertionSet
import Mathlib.Data.Set.Card

/-!
# Sets after any history

A history lists what happened to a set, event by event, and the place of an event in it is
its time. A history alone decides which elements are present after it, and when each of
them came in: at the latest time at which it was inserted while it was absent.

Whatever is done to a set, it lists the elements that are present after its history, by
the times at which they came in. What its operations answer follows from that.
-/

namespace Lowering.InsertionSet

universe u

variable {α : Type u} {s t : InsertionSet α} {a b : α}

/-! ## Histories -/

/-- What happens to a set. An element is put in or taken out whether or not it was
present. -/
inductive Event (α : Type u) where
  | inserted (a : α)
  | removed (a : α)
  | cleared

/-- Whether an event takes `a` out. -/
def Event.TakesOut (a : α) : Event α → Prop
  | .inserted _ => False
  | .removed b => b = a
  | .cleared => True

/-- An element is present after a history if it was inserted and has not been taken out
since. -/
def PresentAfter (h : List (Event α)) (a : α) : Prop :=
  ∃ before since, h = before ++ .inserted a :: since ∧ ∀ e ∈ since, ¬ e.TakesOut a

/-- The event at time `i` inserts `a`, which is absent until then. -/
def EntersAt (h : List (Event α)) (a : α) (i : Nat) : Prop :=
  h[i]? = some (.inserted a) ∧ ¬ PresentAfter (h.take i) a

/-- The latest insertion of `a` while it was absent is that at time `i`. -/
def LastEntry (h : List (Event α)) (a : α) (i : Nat) : Prop :=
  IsGreatest {j | EntersAt h a j} i

/-- The latest insertion of `a` while it was absent is earlier than that of `b`. -/
def EnteredBefore (h : List (Event α)) (a b : α) : Prop :=
  ∃ i j, LastEntry h a i ∧ LastEntry h b j ∧ i < j

variable {h : List (Event α)} {e : Event α} {i : Nat}

theorem not_presentAfter_nil (a : α) : ¬ PresentAfter [] a := by
  rintro ⟨before, since, heq, -⟩
  simp at heq

theorem presentAfter_append_singleton :
    PresentAfter (h ++ [e]) a ↔ e = .inserted a ∨ PresentAfter h a ∧ ¬ e.TakesOut a := by
  constructor
  · rintro ⟨before, since, heq, hsince⟩
    rcases List.eq_nil_or_concat since with rfl | ⟨since, last, rfl⟩
    · obtain ⟨-, hlast⟩ := List.append_inj' heq rfl
      exact .inl (List.cons.inj hlast).1
    · rw [List.concat_eq_append, ← List.cons_append, ← List.append_assoc] at heq
      obtain ⟨hbefore, hlast⟩ := List.append_inj' heq rfl
      obtain rfl := (List.cons.inj hlast).1
      rw [List.concat_eq_append, List.forall_mem_append, List.forall_mem_singleton] at hsince
      exact .inr ⟨⟨before, since, hbefore, hsince.1⟩, hsince.2⟩
  · rintro (rfl | ⟨⟨before, since, rfl, hsince⟩, he⟩)
    · exact ⟨h, [], rfl, List.forall_mem_nil _⟩
    · refine ⟨before, since ++ [e], by simp, ?_⟩
      rw [List.forall_mem_append, List.forall_mem_singleton]
      exact ⟨hsince, he⟩

theorem EntersAt.lt_length (hi : EntersAt h a i) : i < h.length :=
  (List.getElem?_eq_some_iff.mp hi.1).1

theorem EntersAt.le_length_of_append_singleton (hi : EntersAt (h ++ [e]) a i) :
    i ≤ h.length := by
  have hlt := hi.lt_length
  rw [List.length_append, List.length_singleton] at hlt
  exact Nat.le_of_lt_succ hlt

theorem entersAt_append_singleton :
    EntersAt (h ++ [e]) a i ↔
      EntersAt h a i ∨ i = h.length ∧ e = .inserted a ∧ ¬ PresentAfter h a := by
  rcases Nat.lt_trichotomy i h.length with hi | rfl | hi
  · simp only [EntersAt, List.getElem?_append_left hi, List.take_append_of_le_length hi.le, hi.ne,
      false_and, or_false]
  · simp [EntersAt]
  · have hold : ¬ EntersAt h a i := fun hi' => hi.asymm hi'.lt_length
    have hnew : ¬ EntersAt (h ++ [e]) a i := fun hi' =>
      hi.not_ge hi'.le_length_of_append_singleton
    simp [hold, hnew, hi.ne']

/-- An element that is present does not come in once more. -/
theorem LastEntry.append_singleton (hi : LastEntry h a i) (ha : PresentAfter h a) :
    LastEntry (h ++ [e]) a i := by
  simpa only [LastEntry, entersAt_append_singleton, ha, not_true_eq_false, and_false, or_false]
    using hi

theorem lastEntry_append_inserted (ha : ¬ PresentAfter h a) :
    LastEntry (h ++ [.inserted a]) a h.length :=
  ⟨entersAt_append_singleton.mpr (.inr ⟨rfl, rfl, ha⟩), fun _ hj =>
    EntersAt.le_length_of_append_singleton hj⟩

/-! ## Steps and runs -/

/-- What can be done to a set. -/
inductive Step (α : Type u) where
  | insert (a : α)
  | remove (a : α)
  | popFront
  | popBack
  | extend (l : List α)
  | clear

/-- A set together with what happened to it. -/
structure Recorded (α : Type u) where
  set : InsertionSet α
  history : List (Event α)

/-- Records what a pop has left and which element it took, if there was one. -/
def Recorded.pop (r : Recorded α) : Option (α × InsertionSet α) → Recorded α
  | none => r
  | some (a, rest) => ⟨rest, r.history ++ [.removed a]⟩

/-- Takes a step. A list is inserted element by element. -/
def Recorded.step [DecidableEq α] (r : Recorded α) : Step α → Recorded α
  | .insert a => ⟨(r.set.tryInsert a).2, r.history ++ [.inserted a]⟩
  | .remove a => ⟨(r.set.tryErase a).2, r.history ++ [.removed a]⟩
  | .popFront => r.pop r.set.popFront?
  | .popBack => r.pop r.set.popBack?
  | .extend l => ⟨r.set.insertAll l, r.history ++ l.map .inserted⟩
  | .clear => ⟨∅, r.history ++ [.cleared]⟩

/-- Makes a set of a list and takes steps on it. -/
def run [DecidableEq α] (init : List α) (steps : List (Step α)) : Recorded α :=
  steps.foldl Recorded.step ⟨ofList init, init.map .inserted⟩

/-! ## What a set reflects -/

/-- A set lists the elements that are present after a history by their latest entries. -/
structure Reflects (s : InsertionSet α) (h : List (Event α)) : Prop where
  mem_iff : ∀ a, a ∈ s ↔ PresentAfter h a
  entered : ∀ a ∈ s, ∃ i, LastEntry h a i
  ordered : s.toList.Pairwise (EnteredBefore h)

namespace Reflects

theorem empty : Reflects (∅ : InsertionSet α) [] where
  mem_iff a := iff_of_false (not_mem_empty a) (not_presentAfter_nil a)
  entered a ha := absurd ha (not_mem_empty a)
  ordered := .nil

/-- One more event leaves the elements of a set their entries, which are earlier. -/
theorem lastEntry_append (hs : s.Reflects h) (ha : a ∈ s) :
    ∃ i < h.length, LastEntry (h ++ [e]) a i := by
  obtain ⟨i, hi⟩ := hs.entered a ha
  exact ⟨i, EntersAt.lt_length hi.1, hi.append_singleton ((hs.mem_iff a).mp ha)⟩

theorem enteredBefore_append (hs : s.Reflects h) (ha : a ∈ s) (hb : b ∈ s)
    (hab : EnteredBefore h a b) : EnteredBefore (h ++ [e]) a b := by
  obtain ⟨i, j, hi, hj, hlt⟩ := hab
  exact ⟨i, j, hi.append_singleton ((hs.mem_iff a).mp ha),
    hj.append_singleton ((hs.mem_iff b).mp hb), hlt⟩

/-- After an event that lets no element in, those which are left keep their order. -/
theorem sublist (hs : s.Reflects h) (hsub : t.toList.Sublist s.toList)
    (hmem : ∀ a, a ∈ t ↔ PresentAfter (h ++ [e]) a) : t.Reflects (h ++ [e]) where
  mem_iff := hmem
  entered a ha := by
    obtain ⟨i, -, hi⟩ := hs.lastEntry_append (hsub.subset ha)
    exact ⟨i, hi⟩
  ordered := (hs.ordered.sublist hsub).imp_of_mem fun ha hb =>
    hs.enteredBefore_append (hsub.subset ha) (hsub.subset hb)

theorem clear (hs : s.Reflects h) : Reflects (∅ : InsertionSet α) (h ++ [.cleared]) := by
  refine hs.sublist (List.nil_sublist _) fun a => ?_
  rw [presentAfter_append_singleton]
  simp [Event.TakesOut]

end Reflects

/-! ## Single operations -/

/-- Two sets have the same elements, in whatever order. -/
def SameMembers (s t : InsertionSet α) : Prop :=
  ∀ a, a ∈ s ↔ a ∈ t

theorem size_lt_of_popFront? (hs : s.popFront? = some (a, t)) : t.size < s.size := by
  obtain ⟨_ | ⟨b, l⟩, hl⟩ := s
  · cases hs
  · cases hs
    exact Nat.lt_succ_self _

/-- Pops elements from the front until none is left, and lists them. -/
def drain (s : InsertionSet α) : List α :=
  match _hs : s.popFront? with
  | none => []
  | some (a, rest) => a :: rest.drain
termination_by s.size
decreasing_by exact size_lt_of_popFront? _hs

theorem drain_eq_toList (s : InsertionSet α) : s.drain = s.toList := by
  obtain ⟨l, hl⟩ := s
  induction l with
  | nil =>
      rw [drain]
      rfl
  | cons a l ih =>
      rw [drain]
      exact congrArg (a :: ·) (ih (List.nodup_cons.mp hl).2)

variable [DecidableEq α]

theorem toList_erase_of_eq_append {l r : List α} (hs : s.toList = l ++ a :: r) :
    (s.erase a).toList = l ++ r := by
  have hnot : ¬ a ∈ l ++ r := (List.nodup_middle.mp (hs ▸ s.nodup)).notMem
  have hkeep : (l ++ r).filter (fun b => decide (b ≠ a)) = l ++ r :=
    List.filter_eq_self.mpr fun b hb => decide_eq_true fun heq => hnot (heq ▸ hb)
  rw [List.filter_append] at hkeep
  rw [erase, toList_filter, hs, List.filter_append, List.filter_cons_of_neg (by simp), hkeep]

theorem popFront?_eq (s : InsertionSet α) :
    s.popFront? = s.toList.head?.map fun a => (a, s.erase a) := by
  obtain ⟨_ | ⟨a, l⟩, hl⟩ := s
  · rfl
  · refine congrArg some (Prod.ext rfl (InsertionSet.ext ?_))
    exact (toList_erase_of_eq_append (s := ⟨a :: l, hl⟩) (l := []) rfl).symm

theorem popBack?_eq (s : InsertionSet α) :
    s.popBack? = s.toList.getLast?.map fun a => (a, s.erase a) := by
  refine Option.map_congr fun a ha => Prod.ext rfl (InsertionSet.ext ?_)
  have hs : s.toList = s.toList.dropLast ++ [a] := (List.dropLast_append_getLast? a ha).symm
  exact ((toList_erase_of_eq_append hs).trans (List.append_nil _)).symm

theorem tryInsert_eq_true_iff :
    (s.tryInsert a).1 = true ↔ ¬ SameMembers s (s.tryInsert a).2 := by
  simp only [tryInsert, SameMembers, decide_eq_true_eq, mem_insert]
  grind

theorem tryErase_eq_true_iff :
    (s.tryErase a).1 = true ↔ ¬ SameMembers s (s.tryErase a).2 := by
  simp only [tryErase, SameMembers, decide_eq_true_eq, mem_erase]
  grind

/-- Without repetition, an included list of the same length is a rearrangement. -/
theorem sameElements_iff : s.sameElements t = true ↔ SameMembers s t := by
  simp only [sameElements, Bool.and_eq_true, decide_eq_true_eq, List.all_eq_true]
  constructor
  · rintro ⟨hsize, hsub⟩ a
    have hperm : s.toList.Perm t.toList :=
      (s.nodup.subperm hsub).perm_of_length_le hsize.ge
    exact hperm.mem_iff
  · intro hmem
    have hperm : s.toList.Perm t.toList := (List.perm_ext_iff_of_nodup s.nodup t.nodup).mpr hmem
    exact ⟨hperm.length_eq, fun a ha => (hmem a).mp ha⟩

/-! ## The order of a set -/

namespace Reflects

theorem insert (hs : s.Reflects h) (a : α) : (s.insert a).Reflects (h ++ [.inserted a]) := by
  have hmem : ∀ b, b ∈ s.insert a ↔ PresentAfter (h ++ [.inserted a]) b := by
    intro b
    rw [mem_insert, presentAfter_append_singleton, hs.mem_iff, Event.inserted.injEq, or_comm,
      eq_comm, Event.TakesOut, not_false_eq_true, and_true]
  by_cases ha : a ∈ s
  · refine hs.sublist ?_ hmem
    rw [insert_of_mem ha]
  · have hnew : LastEntry (h ++ [.inserted a]) a h.length :=
      lastEntry_append_inserted fun hpresent => ha ((hs.mem_iff a).mpr hpresent)
    refine ⟨hmem, fun b hb => ?_, ?_⟩
    · rcases mem_insert.mp hb with hb | rfl
      · obtain ⟨i, -, hi⟩ := hs.lastEntry_append hb
        exact ⟨i, hi⟩
      · exact ⟨h.length, hnew⟩
    · rw [toList_insert_of_not_mem ha]
      refine List.pairwise_append.mpr
        ⟨hs.ordered.imp_of_mem hs.enteredBefore_append, List.pairwise_singleton _ _, ?_⟩
      intro b hb c hc
      obtain rfl := List.mem_singleton.mp hc
      obtain ⟨i, hlt, hi⟩ := hs.lastEntry_append hb
      exact ⟨i, h.length, hi, hnew, hlt⟩

theorem insertAll (hs : s.Reflects h) (l : List α) :
    (s.insertAll l).Reflects (h ++ l.map .inserted) := by
  induction l generalizing s h with
  | nil => rwa [List.map_nil, List.append_nil]
  | cons a l ih =>
      have hrest := ih (hs.insert a)
      rwa [List.append_assoc] at hrest

theorem erase (hs : s.Reflects h) (a : α) : (s.erase a).Reflects (h ++ [.removed a]) := by
  refine hs.sublist List.filter_sublist fun b => ?_
  rw [mem_erase, presentAfter_append_singleton, hs.mem_iff]
  simp [Event.TakesOut, eq_comm]

/-- A pop erases the element that it takes. -/
theorem pop {r : Recorded α} (hr : r.set.Reflects r.history) (taken : Option α) :
    (r.pop (taken.map fun a => (a, r.set.erase a))).set.Reflects
      (r.pop (taken.map fun a => (a, r.set.erase a))).history := by
  cases taken with
  | none => exact hr
  | some a => exact hr.erase a

theorem step {r : Recorded α} (hr : r.set.Reflects r.history) (x : Step α) :
    (r.step x).set.Reflects (r.step x).history := by
  cases x with
  | insert a => exact hr.insert a
  | remove a => exact hr.erase a
  | popFront =>
      rw [Recorded.step, popFront?_eq]
      exact hr.pop _
  | popBack =>
      rw [Recorded.step, popBack?_eq]
      exact hr.pop _
  | extend l => exact hr.insertAll l
  | clear => exact hr.clear

theorem foldl {r : Recorded α} (hr : r.set.Reflects r.history) (steps : List (Step α)) :
    (steps.foldl Recorded.step r).set.Reflects (steps.foldl Recorded.step r).history := by
  induction steps generalizing r with
  | nil => exact hr
  | cons x steps ih => exact ih (hr.step x)

theorem encard_present (hs : s.Reflects h) : {a | PresentAfter h a}.encard = s.size := by
  have hset : {a | PresentAfter h a} = s.toList.toFinset := by
    ext a
    simp [← hs.mem_iff, InsertionSet.mem_iff]
  rw [hset, Set.encard_coe_eq_coe_finsetCard, List.toFinset_card_of_nodup s.nodup, size]

end Reflects

theorem reflects_run (init : List α) (steps : List (Step α)) :
    (run init steps).set.Reflects (run init steps).history :=
  Reflects.foldl (Reflects.empty.insertAll init) steps

/-- A set keeps the order of insertion, whatever is done to it. It lists the elements that
are present after its history, each of them once, by the times of their latest insertions
while they were absent, and has as many elements as are present. Inserting and removing
tell whether the members changed. The first and the last of the list are what a pop takes.
Popping all elements lists the set as it is, and the set of that list is the same again.
Two sets are found equal exactly if they have the same members, whatever their histories. -/
theorem run_keeps_order (init : List α) (steps : List (Step α)) :
    let s := (run init steps).set
    let h := (run init steps).history
    (∀ a, a ∈ s.toList ↔ PresentAfter h a) ∧
    s.toList.Nodup ∧
    (∀ a ∈ s.toList, ∃ i, LastEntry h a i) ∧
    s.toList.Pairwise (EnteredBefore h) ∧
    {a | PresentAfter h a}.encard = s.size ∧
    (∀ a, (s.tryInsert a).1 = true ↔ ¬ SameMembers s (s.tryInsert a).2) ∧
    (∀ a, (s.tryErase a).1 = true ↔ ¬ SameMembers s (s.tryErase a).2) ∧
    s.popFront? = s.toList.head?.map (fun a => (a, s.erase a)) ∧
    s.popBack? = s.toList.getLast?.map (fun a => (a, s.erase a)) ∧
    s.drain = s.toList ∧
    (ofList s.drain).toList = s.toList ∧
    ∀ init' steps', s.sameElements (run init' steps').set = true ↔
      SameMembers s (run init' steps').set := by
  intro s h
  have hs : s.Reflects h := reflects_run init steps
  refine ⟨hs.mem_iff, s.nodup, hs.entered, hs.ordered, hs.encard_present,
    fun _ => tryInsert_eq_true_iff, fun _ => tryErase_eq_true_iff, popFront?_eq s, popBack?_eq s,
    drain_eq_toList s, ?_, fun _ _ => sameElements_iff⟩
  rw [drain_eq_toList, ofList_toList]

/-- An element that was removed and inserted again has lost its place. Those that were
inserted while they were present have kept theirs, so the pops take the 6 and the 9. -/
theorem run_reinserted :
    let r := run [5, 6, 7] [.remove 5, .insert 6, .insert 5, .popFront, .extend [8, 7, 9], .popBack]
    r.set.toList = [7, 5, 8] ∧ EnteredBefore r.history 7 5 ∧ EnteredBefore r.history 5 8 ∧
      ¬ PresentAfter r.history 6 := by
  obtain ⟨hmem, -, -, hordered, -⟩ := run_keeps_order [5, 6, 7]
    [.remove 5, .insert 6, .insert 5, .popFront, .extend [8, 7, 9], .popBack]
  have hlist : (run [5, 6, 7] [.remove 5, .insert 6, .insert 5, .popFront, .extend [8, 7, 9],
      .popBack]).set.toList = [7, 5, 8] := by
    decide
  rw [hlist, List.pairwise_cons, List.pairwise_cons] at hordered
  rw [hlist] at hmem
  exact ⟨hlist, hordered.1 5 (by decide), hordered.2.1 8 (by decide),
    fun h6 => absurd ((hmem 6).mpr h6) (by decide)⟩

end Lowering.InsertionSet
