import Lowering.Coloring.Tables
import Lowering.Proofs.GroupInvariant

/-!
# Tables that stay in step

The tables of a graph that is taken apart say at every moment what the groups of a `State`
say: the same heads are left and joined, the same ones were removed, and under each head
are the members and the color of its group. Whoever looks at the tables therefore comes to
the same decisions, and a step that writes to several of them does what the step does to
the groups.
-/

namespace Lowering

variable {V C : Type} [DecidableEq V]

namespace DisjointSets

variable {d : DisjointSets V} {a b v u : V}

/-- Two vertices are in one set afterwards if they were before, or if their sets are among
the two that were united. -/
theorem root_union_eq_iff : (d.union a b).root v = (d.union a b).root u ↔
    d.root v = d.root u ∨ (d.root v = d.root a ∨ d.root v = d.root b) ∧
      (d.root u = d.root a ∨ d.root u = d.root b) := by
  obtain ⟨r, hr, hroot⟩ := d.exists_root_union a b
  rw [hroot, hroot]
  grind

end DisjointSets

namespace Relation

variable {g : Relation V} {l : List (V × V)} {v u w : V}

theorem mem_neighbors_removeVertex :
    w ∈ (g.removeVertex v).neighbors u ↔ w ∈ g.neighbors u ∧ u ≠ v ∧ w ≠ v := by
  by_cases huv : u = v
  · simp [neighbors, removeVertex, huv]
  · cases hu : g.get? u <;> simp [neighbors, removeVertex, huv, hu]

theorem keys_removeVertex : (g.removeVertex v).keys = g.keys.erase v := by
  simp [removeVertex, InsertionMap.keys_erase]

/-- Edges between known vertices make no others known. -/
theorem keys_addEdges_of_mem (h : ∀ e ∈ l, e.1 ∈ g.keys ∧ e.2 ∈ g.keys) :
    (g.addEdges l).keys = g.keys := by
  induction l generalizing g with
  | nil => rfl
  | cons e l ih =>
      obtain ⟨⟨hfirst, hsecond⟩, hl⟩ := List.forall_mem_cons.mp h
      have hkeys : (g.addEdge e.1 e.2).keys = g.keys := by
        rw [keys_addEdge, InsertionSet.insert_of_mem hfirst, InsertionSet.insert_of_mem hsecond]
      exact (ih (hkeys ▸ hl)).trans hkeys

end Relation

/-! ## Classes of copies -/

namespace ColoringProblem

variable {p : ColoringProblem V C} {d : DisjointSets V} {classes : InsertionMap V V}

/-- The sets divide the vertices as the classes do. -/
def SameClasses (p : ColoringProblem V C) (d : DisjointSets V) (classes : InsertionMap V V) :
    Prop :=
  ∀ a ∈ p.vertices, ∀ b ∈ p.vertices, d.root a = d.root b ↔ classes.get? a = classes.get? b

theorem keys_joinClasses (classes : InsertionMap V V) (e : V × V) :
    (joinClasses classes e).keys = classes.keys := by
  unfold joinClasses
  split
  · exact InsertionMap.keys_mapValues _ _
  · rfl

theorem SameClasses.join (h : p.SameClasses d classes) (hkeys : classes.keys = p.vertices)
    (e : V × V) : p.SameClasses
      (if e.1 ∈ p.vertices ∧ e.2 ∈ p.vertices then d.union e.1 e.2 else d)
      (joinClasses classes e) := by
  have hknown : ∀ v, v ∈ p.vertices ↔ ∃ x, classes.get? v = some x := fun v => by
    rw [← hkeys, ← InsertionMap.mem_iff_mem_keys, InsertionMap.mem_iff_exists_get?]
  by_cases hboth : e.1 ∈ p.vertices ∧ e.2 ∈ p.vertices
  · obtain ⟨x, hx⟩ := (hknown e.1).mp hboth.1
    obtain ⟨y, hy⟩ := (hknown e.2).mp hboth.2
    rw [if_pos hboth]
    intro a ha b hb
    obtain ⟨ca, hca⟩ := (hknown a).mp ha
    obtain ⟨cb, hcb⟩ := (hknown b).mp hb
    rw [DisjointSets.root_union_eq_iff, h a ha b hb, h a ha _ hboth.1, h a ha _ hboth.2,
      h b hb _ hboth.1, h b hb _ hboth.2]
    simp only [joinClasses, hx, hy, hca, hcb, InsertionMap.get?_mapValues, Option.map_some,
      Option.some.injEq]
    grind
  · have hsame : joinClasses classes e = classes := by
      unfold joinClasses
      split
      · next x y hx hy => exact absurd ⟨(hknown _).mpr ⟨x, hx⟩, (hknown _).mpr ⟨y, hy⟩⟩ hboth
      · rfl
    rwa [if_neg hboth, hsame]

theorem SameClasses.foldl (h : p.SameClasses d classes) (hkeys : classes.keys = p.vertices)
    (l : List (V × V)) : p.SameClasses
      (l.foldl (fun d e =>
        if e.1 ∈ p.vertices ∧ e.2 ∈ p.vertices then d.union e.1 e.2 else d) d)
      (l.foldl joinClasses classes) := by
  induction l generalizing d classes with
  | nil => exact h
  | cons e l ih => exact ih (h.join hkeys e) ((keys_joinClasses classes e).trans hkeys)

/-- Vertices are in one set of copies exactly if they are connected by copies. -/
theorem root_copySets_eq_iff {a b : V} (ha : a ∈ p.vertices) (hb : b ∈ p.vertices) :
    p.copySets.root a = p.copySets.root b ↔ p.CopyRelated a b := by
  have hstart : p.SameClasses .discrete (.ofKeys p.vertices id) := by
    intro a ha b hb
    simp [DisjointSets.discrete, ha, hb]
  have hsame := hstart.foldl (InsertionMap.keys_ofKeys _ _) p.coalesce.pairs a ha b hb
  refine hsame.trans ⟨fun heq => ?_, CopyRelated.class_eq⟩
  obtain ⟨x, hx⟩ := p.classesSound_classes.exists_class_iff.mp ha
  exact p.classesSound_classes.related a b x hx (heq ▸ hx)

end ColoringProblem

namespace Coloring

variable {p : ColoringProblem V C}

namespace Tables

variable {t : Tables V C} {s : State V C} {v u x : V} {g h : Group V C} {colors : Nat}

/-! ## What the tables say of groups -/

/-- The tables have the color and the members of the group of a head. -/
def Knows (p : ColoringProblem V C) (t : Tables V C) (head : V) (members : List V)
    (color : Option C) : Prop :=
  t.groupColor head = color ∧ ∀ x, x ∈ members ↔ x ∈ p.vertices ∧ t.headOf x = head

/-- The tables say what a state says. -/
structure Refines (p : ColoringProblem V C) (t : Tables V C) (s : State V C) : Prop where
  alive_eq : t.alive = s.groups.keys
  nodes_eq : t.current.keys = t.alive
  neighbors : ∀ v u, u ∈ t.current.neighbors v ↔ u ∈ s.neighbors v
  stack_eq : t.selectStack = (s.removed.map RemovedGroup.head).reverse
  left : ∀ v g, s.groups.get? v = some g → t.Knows p v g.members g.color
  removed : ∀ r ∈ s.removed, t.Knows p r.head r.members r.color
  root_headOf : ∀ x ∈ p.vertices, t.groups.root (t.headOf x) = t.groups.root x
  root_mem : ∀ x ∈ p.vertices, t.groups.root x ∈ p.vertices
  in_order : t.alive.toList = p.vertices.toList.filter fun x => decide (x ∈ t.alive)
  copyClassOf_eq : t.copyClassOf = p.copySets.root
  copyClasses_eq : ∀ r, t.copyClasses r =
    p.vertices.toList.filter fun x => decide (t.copyClassOf x = r)

theorem Refines.mem_alive_iff (ht : t.Refines p s) :
    v ∈ t.alive ↔ ∃ g, s.groups.get? v = some g := by
  rw [ht.alive_eq, ← InsertionMap.mem_iff_mem_keys, InsertionMap.mem_iff_exists_get?]

theorem Refines.headOf_of_group (ht : t.Refines p s) (hs : s.Headed)
    (hg : s.groups.get? v = some g) : v ∈ p.vertices ∧ t.headOf v = v :=
  ((ht.left v g hg).2 v).mp (hs v g hg)

/-! ## The same decisions -/

theorem Refines.degree_eq (ht : t.Refines p s) (v : V) : t.degree v = s.degree v := by
  have hperm : (t.current.neighbors v).toList.Perm (s.neighbors v).toList :=
    (List.perm_ext_iff_of_nodup (t.current.neighbors v).nodup (s.neighbors v).nodup).mpr
      (ht.neighbors v)
  exact hperm.length_eq

theorem Refines.isSafeMerge_eq (ht : t.Refines p s) (v u : V) :
    t.isSafeMerge colors v u = s.isSafeMerge colors v u := by
  rw [Bool.eq_iff_iff, isSafeMerge, State.isSafeMerge, List.all_eq_true, List.all_eq_true]
  refine forall_congr' fun w => imp_congr (ht.neighbors v w) ?_
  simp [Relation.related, ht.neighbors, ht.degree_eq]

/-- Heads are in one class of copies if their groups are. -/
def SameCopies (t : Tables V C) (s : State V C) : Prop :=
  ∀ v u g h, s.groups.get? v = some g → s.groups.get? u = some h →
    (t.copyClassOf u = t.copyClassOf v ↔ h.copyClass = g.copyClass)

theorem Refines.copies_eq (ht : t.Refines p s) (hclass : t.SameCopies s) (hv : v ∈ t.alive) :
    t.copies v = s.copies v := by
  obtain ⟨g, hg⟩ := ht.mem_alive_iff.mp hv
  have hlist : t.copies v =
      t.alive.toList.filter fun u => decide (u ≠ v ∧ t.copyClassOf u = t.copyClassOf v) := by
    rw [copies, ht.copyClasses_eq, List.filter_filter, ht.in_order, List.filter_filter]
    exact List.filter_congr fun u _ => by grind
  have hentries : s.copies v = (s.groups.entries.filter fun e =>
      decide (e.1 ≠ v ∧ t.copyClassOf e.1 = t.copyClassOf v)).map Prod.fst := by
    rw [State.copies, hg]
    refine congrArg (List.map Prod.fst) (List.filter_congr fun e he => ?_)
    simp [hclass v e.1 g e.2 hg (InsertionMap.get?_eq_some_iff.mpr he)]
  rw [hlist, hentries, ht.alive_eq, InsertionMap.keys, List.filter_map]
  rfl

theorem findSome?_congr {α β : Type} {l : List α} {f f' : α → Option β}
    (h : ∀ a ∈ l, f a = f' a) : l.findSome? f = l.findSome? f' := by
  induction l with
  | nil => rfl
  | cons a l ih =>
      rw [List.forall_mem_cons] at h
      rw [List.findSome?_cons, List.findSome?_cons, h.1, ih h.2]

theorem Refines.merge?_eq (ht : t.Refines p s) (hcopies : ∀ v ∈ t.alive, t.copies v = s.copies v) :
    t.merge? colors = s.merge? colors := by
  have hmergeable : ∀ v ∈ t.alive, t.mergeable? colors v = s.mergeable? colors v := by
    intro v hv
    rw [mergeable?, State.mergeable?, hcopies v hv]
    congr 1
    funext u
    simp [Relation.related, ht.neighbors, ht.isSafeMerge_eq]
  rw [merge?, State.merge?, ← ht.alive_eq]
  exact findSome?_congr fun v hv => by rw [hmergeable v hv]

theorem Refines.simplifiable?_eq (ht : t.Refines p s) :
    t.simplifiable? colors = s.simplifiable? colors := by
  simp only [simplifiable?, State.simplifiable?, ht.alive_eq, ht.degree_eq]

theorem Refines.candidate?_eq (ht : t.Refines p s) : t.candidate? = s.candidate? := by
  have hdegree : t.degree = s.degree := funext ht.degree_eq
  have hcolor : ∀ v ∈ s.groups.keys.toList, (t.groupColor v).isNone = (s.color? v).isNone := by
    intro v hv
    obtain ⟨g, hg⟩ := State.exists_group hv
    rw [(ht.left v g hg).1, State.color?, hg]
    rfl
  rw [candidate?, State.candidate?, ht.alive_eq, hdegree, List.filter_congr hcolor]
  cases (s.groups.keys.toList.filter fun v => (s.color? v).isNone).minOn? s.degree <;> rfl

/-! ## The same steps -/

/-- The groups of the two heads have one head then, and all others keep theirs. -/
theorem Refines.headOf_merge (ht : t.Refines p s) (hv : t.headOf v = v) (hu : t.headOf u = u)
    (hx : x ∈ p.vertices) :
    (t.merge v u).headOf x = if t.headOf x = v ∨ t.headOf x = u then v else t.headOf x := by
  obtain ⟨r, hr, hroot⟩ := t.groups.exists_root_union v u
  have hsame : ∀ w, t.headOf w = w →
      (t.headOf x = w ↔ t.groups.root x = t.groups.root w) := by
    intro w hw
    constructor
    · intro heq
      rw [← ht.root_headOf x hx, heq]
    · intro heq
      rw [headOf, heq]
      exact hw
  have hheads := or_congr (hsame v hv) (hsame u hu)
  have hmerged : (t.merge v u).headOf x =
      setEntry t.groupHead r v ((t.groups.union v u).root x) := by
    simp [headOf, merge, hroot v]
  rw [hmerged, hroot]
  by_cases hunited : t.headOf x = v ∨ t.headOf x = u
  · rw [if_pos hunited, if_pos (hheads.mp hunited), setEntry, if_pos rfl]
  · have hapart := mt hheads.mpr hunited
    have hne : t.groups.root x ≠ r := by
      rintro rfl
      exact hapart hr
    rw [if_neg hunited, if_neg hapart, setEntry, if_neg hne, headOf]

theorem groupColor_merge_self (t : Tables V C) (hvu : v ≠ u) :
    (t.merge v u).groupColor v = (t.groupColor v).or (t.groupColor u) := by
  cases hv : t.groupColor v <;> simp [merge, setEntry, hv, hvu]

theorem groupColor_merge_of_ne (t : Tables V C) (hxv : x ≠ v) (hxu : x ≠ u) :
    (t.merge v u).groupColor x = t.groupColor x := by
  cases hv : t.groupColor v <;> simp [merge, setEntry, hv, hxv, hxu]

/-- The merged group is joined to what its two parts were joined to. -/
theorem mem_neighbors_merge {w : V} : w ∈ (t.merge v u).current.neighbors x ↔
    (w ∈ t.current.neighbors x ∨ x = v ∧ w ∈ t.current.neighbors u ∧ w ≠ v ∨
      w = v ∧ x ∈ t.current.neighbors u ∧ x ≠ v) ∧ x ≠ u ∧ w ≠ u := by
  rw [merge, Relation.mem_neighbors_removeVertex, Relation.mem_neighbors_addEdges]
  simp only [List.mem_map, List.mem_filter, decide_eq_true_eq, Prod.mk.injEq,
    ← InsertionSet.mem_iff]
  grind

theorem in_order_erase {alive : InsertionSet V} {l : List V}
    (h : alive.toList = l.filter fun x => decide (x ∈ alive)) (v : V) :
    (alive.erase v).toList = l.filter fun x => decide (x ∈ alive.erase v) := by
  rw [InsertionSet.erase, InsertionSet.toList_filter, h, List.filter_filter]
  exact List.filter_congr fun x _ => by simp [and_comm]

/-- Merging two groups does the same to the tables and to the state. -/
theorem Refines.merge (ht : t.Refines p s) (hs : s.Represents p) (hg : s.groups.get? v = some g)
    (hh : s.groups.get? u = some h) (hvu : v ≠ u) : (t.merge v u).Refines p (s.merge v u) := by
  have hhead : ∀ w k, s.groups.get? w = some k → w ∈ p.vertices ∧ t.headOf w = w := fun w k hk =>
    ht.headOf_of_group hs.headed hk
  have hv := hhead v g hg
  have hu := hhead u h hh
  have hheadOf : ∀ x ∈ p.vertices, (t.merge v u).headOf x =
      if t.headOf x = v ∨ t.headOf x = u then v else t.headOf x := fun x =>
    ht.headOf_merge hv.2 hu.2
  have hother : ∀ w members color, w ≠ v → w ≠ u → t.Knows p w members color →
      (t.merge v u).Knows p w members color := by
    intro w members color hwv hwu hknows
    refine ⟨(groupColor_merge_of_ne t hwv hwu).trans hknows.1, fun x => ?_⟩
    rw [hknows.2 x]
    refine and_congr_right fun hx => ?_
    rw [hheadOf x hx]
    grind
  constructor
  case alive_eq => simp [Tables.merge, State.merge, hh, InsertionMap.keys_erase, ht.alive_eq]
  case nodes_eq =>
    have hknown : ∀ w, (∃ k, s.groups.get? w = some k) → w ∈ t.current.keys := fun w hw =>
      ht.nodes_eq ▸ ht.mem_alive_iff.mpr hw
    rw [Tables.merge, Relation.keys_removeVertex, Relation.keys_addEdges_of_mem, ht.nodes_eq]
    intro e he
    obtain ⟨w, hw, rfl⟩ := List.mem_map.mp he
    have hmem := (ht.neighbors u w).mp (List.mem_filter.mp hw).1
    exact ⟨hknown v ⟨g, hg⟩, hknown w (State.exists_group (hs.neighbors_left u w hmem).2)⟩
  case neighbors =>
    intro x w
    rw [mem_neighbors_merge, ht.neighbors, ht.neighbors, ht.neighbors]
    by_cases hxu : x = u
    · simp [hxu, State.neighbors, State.merge, hh]
    · have hsymm : x ∈ s.neighbors u ↔ u ∈ s.neighbors x :=
        ⟨hs.neighbors_symm, hs.neighbors_symm⟩
      by_cases hxv : x = v
      · subst hxv
        have hself : w ∈ s.neighbors x → w ≠ x := fun hw hwx => hs.not_mem_self (hwx ▸ hw)
        rw [State.mem_neighbors_merge_self hg hh hvu]
        grind
      · rw [State.mem_neighbors_merge_of_ne hh hxv hxu]
        grind
  case stack_eq =>
    rw [State.removed_merge hh]
    exact ht.stack_eq
  case left =>
    intro w k hk
    obtain ⟨hwu, k', hk', rfl⟩ := State.get?_merge hh hk
    by_cases hwv : w = v
    · subst hwv
      obtain rfl := Option.some.inj (hg.symm.trans hk')
      rw [if_pos rfl]
      refine ⟨?_, fun x => ?_⟩
      · rw [groupColor_merge_self t hvu, (ht.left w g hg).1, (ht.left u h hh).1]
        rfl
      · rw [State.absorb, List.mem_append, (ht.left w g hg).2 x, (ht.left u h hh).2 x,
          ← and_or_left]
        refine and_congr_right fun hx => ?_
        rw [hheadOf x hx]
        grind
    · rw [if_neg hwv, State.members_redirect, State.color_redirect]
      exact hother w _ _ hwv hwu (ht.left w k' hk')
  case removed =>
    rw [State.removed_merge hh]
    exact fun r hr => hother r.head _ _ (hs.head_ne hg hr) (hs.head_ne hh hr) (ht.removed r hr)
  case root_headOf =>
    intro x hx
    refine DisjointSets.root_union_eq_iff.mpr ?_
    have hroot := ht.root_headOf x hx
    rw [hheadOf x hx]
    split_ifs with hunited
    · refine .inr ⟨.inl rfl, ?_⟩
      rw [← hroot]
      exact hunited.imp (congrArg _) (congrArg _)
    · exact .inl hroot
  case root_mem =>
    intro x hx
    obtain ⟨r, hr, hroot⟩ := t.groups.exists_root_union v u
    have hroots : ∀ w ∈ p.vertices, t.groups.root w ∈ p.vertices := ht.root_mem
    rw [Tables.merge, hroot]
    split_ifs
    · rcases hr with rfl | rfl
      · exact hroots v hv.1
      · exact hroots u hu.1
    · exact hroots x hx
  case in_order => exact in_order_erase ht.in_order u
  case copyClassOf_eq => exact ht.copyClassOf_eq
  case copyClasses_eq => exact ht.copyClasses_eq

/-- So does removing a group. -/
theorem Refines.push (ht : t.Refines p s) (hg : s.groups.get? v = some g) (mayLackColor : Bool) :
    (t.push v).Refines p (s.remove v mayLackColor) := by
  constructor
  case alive_eq => simp [Tables.push, State.remove, hg, InsertionMap.keys_erase, ht.alive_eq]
  case nodes_eq => rw [Tables.push, Relation.keys_removeVertex, ht.nodes_eq]
  case neighbors =>
    intro x w
    rw [Tables.push, Relation.mem_neighbors_removeVertex, State.mem_neighbors_remove hg,
      ht.neighbors]
  case stack_eq => simp [Tables.push, State.removed_remove hg, ht.stack_eq]
  case left =>
    intro w k hk
    obtain ⟨-, k', hk', rfl⟩ := State.get?_remove hg hk
    exact ht.left w k' hk'
  case removed =>
    rw [State.removed_remove hg]
    exact List.forall_mem_cons.mpr ⟨ht.left v g hg, ht.removed⟩
  case root_headOf => exact ht.root_headOf
  case root_mem => exact ht.root_mem
  case in_order => exact in_order_erase ht.in_order v
  case copyClassOf_eq => exact ht.copyClassOf_eq
  case copyClasses_eq => exact ht.copyClasses_eq

/-- A step does the same to the tables and to the state. -/
theorem Refines.step (ht : t.Refines p s) (hs : s.Represents p) (hclass : t.SameCopies s)
    (colors : Nat) : (t.step colors).Refines p (s.step colors) := by
  unfold Tables.step State.step
  rw [ht.merge?_eq fun v => ht.copies_eq hclass, ht.simplifiable?_eq, ht.candidate?_eq]
  cases hmerge : s.merge? colors with
  | some pair =>
      obtain ⟨g, h, hg, hh, hne, -⟩ := State.merge?_eq_some hmerge
      exact ht.merge hs hg hh hne
  | none =>
      cases hsimple : s.simplifiable? colors with
      | some v =>
          obtain ⟨g, hg⟩ := State.exists_group (List.mem_of_find?_eq_some hsimple)
          exact ht.push hg false
      | none =>
          cases hcandidate : s.candidate? with
          | some v =>
              obtain ⟨g, hg⟩ := State.exists_group (State.candidate?_mem hcandidate)
              exact ht.push hg true
          | none => exact ht

/-! ## Many steps -/

theorem steps_succ (colors n : Nat) (t : Tables V C) :
    t.steps colors (n + 1) = (t.steps colors n).step colors := by
  induction n generalizing t with
  | zero => rfl
  | succ n ih => exact ih (t.step colors)

/-- Taking steps as long as a group is left ends after as many steps as there are
groups. -/
theorem takeApart_eq (colors : Nat) (t : Tables V C) :
    t.takeApart colors = (t.alive.size, t.steps colors t.alive.size) := by
  induction hsize : t.alive.size generalizing t with
  | zero =>
      rw [takeApart, dif_pos (List.eq_nil_of_length_eq_zero hsize)]
      rfl
  | succ n ih =>
      have hleft : t.alive.toList ≠ [] := fun hnil => by simp [InsertionSet.size, hnil] at hsize
      have hrest := ih (t.step colors) (by have := t.size_alive_step colors hleft; omega)
      rw [takeApart, dif_neg hleft, hrest]
      rfl

variable [DecidableEq C]

theorem after_succ (p : ColoringProblem V C) (n : Nat) :
    after p (n + 1) = (after p n).step p.allowed.length :=
  steps_succ _ _ _

/-- As many groups are left as there are steps still to take. -/
theorem size_alive_after (p : ColoringProblem V C) {n : Nat} (hn : n ≤ p.vertices.size) :
    (after p n).alive.size + n = p.vertices.size := by
  induction n with
  | zero => rfl
  | succ n ih =>
      have hsize := ih (Nat.le_of_succ_le hn)
      have hpos : 0 < (after p n).alive.size := by omega
      have hstep := (after p n).size_alive_step p.allowed.length (List.ne_nil_of_length_pos hpos)
      rw [after_succ]
      omega

theorem refines_start (p : ColoringProblem V C) : (start p).Refines p (Coloring.start p) := by
  have hkeys : (Coloring.start p).groups.keys = p.vertices := InsertionMap.keys_ofKeys _ _
  constructor
  case alive_eq => exact hkeys.symm
  case nodes_eq =>
    exact Relation.keys_addEdges_of_mem fun e he => mem_vertices_of_mem_pinnedApart he
  case neighbors =>
    intro v u
    by_cases hv : v ∈ p.vertices
    · simp [start, State.neighbors, Coloring.start, hv]
    · have hnone : ¬ u ∈ p.conflicts.neighbors v := fun hu =>
        hv (mem_vertices_of_mem_conflicts hu).1
      simp [start, State.neighbors, Coloring.start, hv, hnone]
  case stack_eq => rfl
  case left =>
    intro v g hg
    obtain ⟨hv, rfl⟩ := eq_of_get?_start hg
    refine ⟨rfl, fun x => ?_⟩
    rw [List.mem_singleton]
    exact ⟨fun hx => ⟨hx ▸ hv, hx⟩, fun hx => hx.2⟩
  case removed => exact fun r hr => absurd hr List.not_mem_nil
  case root_headOf => exact fun x _ => rfl
  case root_mem => exact fun x => id
  case in_order => exact (List.filter_eq_self.mpr fun x hx => decide_eq_true hx).symm
  case copyClassOf_eq => rfl
  case copyClasses_eq => exact fun r => rfl

theorem Refines.sameCopies {n : Nat} (ht : t.Refines p (stateAfter p n))
    (hs : (stateAfter p n).Represents p) : t.SameCopies (stateAfter p n) := by
  intro v u g h hg hh
  have hv := (ht.headOf_of_group hs.headed hg).1
  have hu := (ht.headOf_of_group hs.headed hh).1
  rw [ht.copyClassOf_eq, ColoringProblem.root_copySets_eq_iff hu hv]
  exact copyRelated_iff_copyClass_eq hh hg (hs.headed u h hh) (hs.headed v g hg)

/-- The tables say what the state says, however many steps are taken. -/
theorem refines_after (hloop : p.graph.selfLoop? = none) (n : Nat) :
    (after p n).Refines p (stateAfter p n) := by
  induction n with
  | zero => exact refines_start p
  | succ n ih =>
      have hs := represents_stateAfter hloop n
      rw [stateAfter_succ, after_succ]
      exact ih.step hs (ih.sameCopies hs) _

end Tables

end Coloring

end Lowering
