import Lowering.Coloring.FirstFit
import Lowering.Proofs.Renaming

/-!
# Coloring a graph with renamed vertices

The coloring looks at its vertices through equality and through the order in which the
problem lists them, and at nothing else. So each step that takes the graph apart makes the
same choice under other names, and the answer is the same one renamed.
-/

namespace Lowering

variable {V W C : Type} {R : V → W → Prop}

/-- Two coloring problems are the same up to the names of the vertices. -/
structure ColoringProblem.Renamed (R : V → W → Prop) (p : ColoringProblem V C)
    (q : ColoringProblem W C) : Prop where
  graph : Relation.Renamed R p.graph q.graph
  coalesce : Relation.Renamed R p.coalesce q.coalesce
  fixed : p.fixed.Renamed R (· = ·) q.fixed
  allowed : p.allowed = q.allowed

namespace ColoringProblem.Renamed

variable [DecidableEq V] [DecidableEq W] {p : ColoringProblem V C} {q : ColoringProblem W C}
  (hR : Relator.BiUnique R)
include hR

protected theorem vertices (h : p.Renamed R q) : p.vertices.Renamed R q.vertices :=
  (h.graph.symmetricClosure hR).keys

protected theorem joinClasses {k : InsertionMap V V} {l : InsertionMap W W}
    (h : k.Renamed R R l) {e : V × V} {f : W × W} (hef : EntryRenamed R R e f) :
    (joinClasses k e).Renamed R R (joinClasses l f) := by
  unfold ColoringProblem.joinClasses
  rcases cases_of_optionRel (h.get? hR hef.1) with ⟨h1, h2⟩ | ⟨a, b, h1, h2, hab⟩
  · rw [h1, h2]
    exact h
  rcases cases_of_optionRel (h.get? hR hef.2) with ⟨h3, h4⟩ | ⟨c, d, h3, h4, hcd⟩
  · rw [h1, h2, h3, h4]
    exact h
  · rw [h1, h2, h3, h4]
    exact h.mapValues fun _ _ _ _ _ hxy => ite_renamed (Relator.rel_eq hR hxy hcd) hab hxy

protected theorem classes (h : p.Renamed R q) : p.classes.Renamed R R q.classes :=
  List.rel_foldl (P := InsertionMap.Renamed R R) (R := EntryRenamed R R)
    (fun _ _ hk _ _ hef => Renamed.joinClasses hR hk hef)
    (.ofKeys (h.vertices hR) fun _ _ hab => hab) (Relation.Renamed.pairs h.coalesce)

variable [DecidableEq C]

protected theorem pinnedApart (h : p.Renamed R q) :
    List.Forall₂ (EntryRenamed R R) p.pinnedApart q.pinnedApart := by
  refine filter_renamed (orderedPairs_renamed (h.vertices hR)) fun e f hef => ?_
  rw [h.fixed.get?_eq hR hef.1, h.fixed.get?_eq hR hef.2]

protected theorem conflicts (h : p.Renamed R q) :
    Relation.Renamed R p.conflicts q.conflicts :=
  (h.graph.symmetricClosure hR).addEdges hR (h.pinnedApart hR)

end ColoringProblem.Renamed

/-! ## Taking a renamed graph apart -/

namespace Coloring

theorem minOn?_renamed {l : List V} {m : List W} (h : List.Forall₂ R l m) {f : V → Nat}
    {g : W → Nat} (hfg : ∀ a b, R a b → f a = g b) :
    Option.Rel R (l.minOn? f) (m.minOn? g) := by
  induction h with
  | nil => exact .none
  | @cons a b _ _ hab _ ih =>
      rw [List.minOn?_cons, List.minOn?_cons]
      rcases cases_of_optionRel ih with ⟨h1, h2⟩ | ⟨c, d, h1, h2, hcd⟩
      · rw [h1, h2]
        exact .some hab
      · simp only [h1, h2, Option.elim_some, minOn, hfg a b hab, hfg c d hcd]
        split
        · exact .some hab
        · exact .some hcd

/-- Two groups are the same up to the names of the vertices. -/
structure Group.Renamed (R : V → W → Prop) (g : Group V C) (h : Group W C) : Prop where
  members : List.Forall₂ R g.members h.members
  neighbors : g.neighbors.Renamed R h.neighbors
  color : g.color = h.color
  copyClass : R g.copyClass h.copyClass

/-- Two removed groups are the same up to the names of the vertices. -/
structure RemovedGroup.Renamed (R : V → W → Prop) (g : RemovedGroup V C)
    (h : RemovedGroup W C) : Prop where
  head : R g.head h.head
  members : List.Forall₂ R g.members h.members
  color : g.color = h.color
  mayLackColor : g.mayLackColor = h.mayLackColor

/-- Two graphs have been taken apart in the same way, up to the names of the vertices. -/
structure State.Renamed (R : V → W → Prop) (s : State V C) (t : State W C) : Prop where
  groups : s.groups.Renamed R (Group.Renamed R) t.groups
  removed : List.Forall₂ (RemovedGroup.Renamed R) s.removed t.removed

variable [DecidableEq V] [DecidableEq W]

namespace State.Renamed

variable {s : State V C} {t : State W C} {a u : V} {b w : W} {g k : Group V C} {h l : Group W C}
  (hR : Relator.BiUnique R)
include hR

protected theorem neighbors (hs : s.Renamed R t) (hab : R a b) :
    (s.neighbors a).Renamed R (t.neighbors b) := by
  unfold State.neighbors
  rcases cases_of_optionRel (hs.groups.get? hR hab) with ⟨h1, h2⟩ | ⟨g, h, h1, h2, hgh⟩
  · rw [h1, h2]
    exact .empty
  · rw [h1, h2]
    exact hgh.neighbors

theorem degree_eq (hs : s.Renamed R t) (hab : R a b) : s.degree a = t.degree b :=
  (hs.neighbors hR hab).size_eq

theorem color?_eq (hs : s.Renamed R t) (hab : R a b) : s.color? a = t.color? b := by
  unfold State.color?
  rcases cases_of_optionRel (hs.groups.get? hR hab) with ⟨h1, h2⟩ | ⟨g, h, h1, h2, hgh⟩
  · rw [h1, h2]
    rfl
  · rw [h1, h2]
    exact hgh.color

protected theorem copies (hs : s.Renamed R t) (hab : R a b) :
    List.Forall₂ R (s.copies a) (t.copies b) := by
  unfold State.copies
  rcases cases_of_optionRel (hs.groups.get? hR hab) with ⟨h1, h2⟩ | ⟨g, h, h1, h2, hgh⟩
  · rw [h1, h2]
    exact .nil
  · rw [h1, h2]
    refine List.rel_map (fun _ _ he => he.1) (filter_renamed hs.groups fun e f he => ?_)
    rw [decide_ne_of_renamed hR he.1 hab, decide_eq_of_renamed hR he.2.copyClass hgh.copyClass]

theorem isSafeMerge_eq (hs : s.Renamed R t) (colors : Nat) (hab : R a b) (huw : R u w) :
    s.isSafeMerge colors a u = t.isSafeMerge colors b w := by
  refine all_eq_of_forall₂ (hs.neighbors hR hab) fun c d hcd => ?_
  rw [(hs.neighbors hR hcd).decide_mem_eq hR huw, hs.degree_eq hR hcd]

protected theorem mergeable? (hs : s.Renamed R t) (colors : Nat) (hab : R a b) :
    Option.Rel R (s.mergeable? colors a) (t.mergeable? colors b) := by
  refine find?_renamed (hs.copies hR hab) fun u w huw => ?_
  rw [(hs.neighbors hR hab).decide_not_mem_eq hR huw, hs.isSafeMerge_eq hR colors hab huw]

protected theorem merge? (hs : s.Renamed R t) (colors : Nat) :
    Option.Rel (EntryRenamed R R) (s.merge? colors) (t.merge? colors) := by
  refine findSome?_renamed hs.groups.keys fun a b hab => ?_
  rcases cases_of_optionRel (hs.mergeable? hR colors hab) with ⟨h1, h2⟩ | ⟨u, w, h1, h2, huw⟩
  · rw [h1, h2]
    exact .none
  · rw [h1, h2]
    exact .some ⟨hab, huw⟩

protected theorem simplifiable? (hs : s.Renamed R t) (colors : Nat) :
    Option.Rel R (s.simplifiable? colors) (t.simplifiable? colors) := by
  refine find?_renamed hs.groups.keys fun a b hab => ?_
  rw [hs.degree_eq hR hab]

protected theorem candidate? (hs : s.Renamed R t) : Option.Rel R s.candidate? t.candidate? := by
  have hdegree : ∀ a b, R a b → s.degree a = t.degree b := fun _ _ hab => hs.degree_eq hR hab
  have hfree : List.Forall₂ R (s.groups.keys.toList.filter fun v => (s.color? v).isNone)
      (t.groups.keys.toList.filter fun v => (t.color? v).isNone) := by
    refine filter_renamed hs.groups.keys fun a b hab => ?_
    rw [hs.color?_eq hR hab]
  unfold State.candidate?
  rcases cases_of_optionRel (minOn?_renamed hfree hdegree) with ⟨h1, h2⟩ | ⟨a, b, h1, h2, hab⟩
  · simp only [h1, h2]
    exact minOn?_renamed hs.groups.keys hdegree
  · simp only [h1, h2]
    exact .some hab

protected theorem absorb (hgh : g.Renamed R h) (hkl : k.Renamed R l) (hab : R a b)
    (huw : R u w) : (absorb a u g k).Renamed R (absorb b w h l) where
  members := List.rel_append hgh.members hkl.members
  neighbors := ((hgh.neighbors.insertAll hR hkl.neighbors).erase hR huw).erase hR hab
  color := by simp only [State.absorb, hgh.color, hkl.color]
  copyClass := hgh.copyClass

protected theorem redirect (hgh : g.Renamed R h) (hab : R a b) (huw : R u w) :
    (redirect a u g).Renamed R (redirect b w h) := by
  refine ite_renamed (hgh.neighbors.mem_iff hR huw) ?_ hgh
  exact { hgh with neighbors := (hgh.neighbors.erase hR huw).insert hR hab }

protected theorem merge (hs : s.Renamed R t) (hab : R a b) (huw : R u w) :
    (s.merge a u).Renamed R (t.merge b w) := by
  unfold State.merge
  rcases cases_of_optionRel (hs.groups.get? hR huw) with ⟨h1, h2⟩ | ⟨k, l, h1, h2, hkl⟩
  · rw [h1, h2]
    exact hs
  rw [h1, h2]
  refine ⟨(hs.groups.erase hR huw).mapValues fun c d hcd g h hgh => ?_, hs.removed⟩
  exact ite_renamed (Relator.rel_eq hR hcd hab) (State.Renamed.absorb hR hgh hkl hab huw)
    (State.Renamed.redirect hR hgh hab huw)

protected theorem remove (hs : s.Renamed R t) (hab : R a b) (mayLackColor : Bool) :
    (s.remove a mayLackColor).Renamed R (t.remove b mayLackColor) := by
  unfold State.remove
  rcases cases_of_optionRel (hs.groups.get? hR hab) with ⟨h1, h2⟩ | ⟨g, h, h1, h2, hgh⟩
  · rw [h1, h2]
    exact hs
  · rw [h1, h2]
    exact ⟨(hs.groups.erase hR hab).mapValues fun _ _ _ _ _ hkl =>
        { hkl with neighbors := hkl.neighbors.erase hR hab },
      .cons ⟨hab, hgh.members, hgh.color, rfl⟩ hs.removed⟩

/-- One step makes the same choice under other names. -/
protected theorem step (hs : s.Renamed R t) (colors : Nat) :
    (s.step colors).Renamed R (t.step colors) := by
  unfold State.step
  rcases cases_of_optionRel (hs.merge? hR colors) with ⟨h1, h2⟩ | ⟨e, f, h1, h2, hef⟩
  · rw [h1, h2]
    rcases cases_of_optionRel (hs.simplifiable? hR colors) with ⟨h3, h4⟩ | ⟨a, b, h3, h4, hab⟩
    · rw [h3, h4]
      rcases cases_of_optionRel (hs.candidate? hR) with ⟨h5, h6⟩ | ⟨a, b, h5, h6, hab⟩
      · rw [h5, h6]
        exact hs
      · rw [h5, h6]
        exact hs.remove hR hab true
    · rw [h3, h4]
      exact hs.remove hR hab false
  · rw [h1, h2]
    exact hs.merge hR hef.1 hef.2

protected theorem steps (hs : s.Renamed R t) (colors n : Nat) :
    (s.steps colors n).Renamed R (t.steps colors n) := by
  induction n generalizing s t with
  | zero => exact hs
  | succ n ih => exact ih (hs.step hR colors)

end State.Renamed

section

variable [DecidableEq C] {p : ColoringProblem V C} {q : ColoringProblem W C}
  (hR : Relator.BiUnique R)
include hR

theorem start_renamed (h : p.Renamed R q) : (start p).Renamed R (start q) where
  groups := by
    refine .ofKeys (h.vertices hR) fun a b hab => ⟨.cons hab .nil, ?_, ?_, ?_⟩
    · exact (h.conflicts hR).neighbors hR hab
    · exact h.fixed.get?_eq hR hab
    · rcases cases_of_optionRel ((h.classes hR).get? hR hab) with ⟨h1, h2⟩ | ⟨c, d, h1, h2, hcd⟩
      · simp only [h1, h2]
        exact hab
      · simp only [h1, h2]
        exact hcd
  removed := .nil

theorem removedGroups_renamed (h : p.Renamed R q) :
    List.Forall₂ (RemovedGroup.Renamed R) (removedGroups p) (removedGroups q) := by
  unfold removedGroups stateAfter
  rw [h.allowed, (h.vertices hR).size_eq]
  exact ((start_renamed hR h).steps hR _ _).removed

end

/-! ## Coloring the groups -/

theorem paint_renamed (hR : Relator.BiUnique R) {m : InsertionMap V C} {n : InsertionMap W C}
    (hm : m.Renamed R (· = ·) n) {l : List V} {k : List W} (hl : List.Forall₂ R l k) (c : C) :
    (paint m l c).Renamed R (· = ·) (paint n k c) :=
  List.rel_foldl (P := InsertionMap.Renamed R (· = ·)) (R := R)
    (fun _ _ hm _ _ hab => hm.insert hR hab rfl) hm hl

theorem pinned_renamed (hR : Relator.BiUnique R) {l : List (RemovedGroup V C)}
    {k : List (RemovedGroup W C)} (hl : List.Forall₂ (RemovedGroup.Renamed R) l k) :
    (pinned l).Renamed R (· = ·) (pinned k) := by
  refine List.rel_foldl (P := InsertionMap.Renamed R (· = ·)) (fun _ _ hm g h hgh => ?_) .empty hl
  simp only [hgh.color]
  split
  · exact paint_renamed hR hm hgh.members _
  · exact hm

theorem taken_eq (hR : Relator.BiUnique R) {g : Relation V} {h : Relation W}
    (hg : Relation.Renamed R g h) {m : InsertionMap V C} {n : InsertionMap W C}
    (hm : m.Renamed R (· = ·) n) {l : List V} {k : List W} (hl : List.Forall₂ R l k) :
    taken g m l = taken h n k := by
  rw [← List.forall₂_eq_eq_eq]
  exact List.rel_flatMap hl fun _ _ hab =>
    List.rel_filterMap (fun _ _ hcd => hm.get? hR hcd) (hg.neighbors hR hab)

variable [DecidableEq C]

theorem colorGroup_renamed (hR : Relator.BiUnique R) {g : Relation V} {h : Relation W}
    (hg : Relation.Renamed R g h) (allowed : List C) {m : InsertionMap V C}
    {n : InsertionMap W C} (hm : m.Renamed R (· = ·) n) {a : RemovedGroup V C}
    {b : RemovedGroup W C} (hab : a.Renamed R b) :
    (colorGroup g allowed m a).Renamed R (· = ·) (colorGroup h allowed n b) := by
  unfold colorGroup
  rw [hab.color, taken_eq hR hg hm hab.members]
  split
  · exact hm
  · split
    · exact paint_renamed hR hm hab.members _
    · exact hm

theorem assign_renamed (hR : Relator.BiUnique R) {p : ColoringProblem V C}
    {q : ColoringProblem W C} (h : p.Renamed R q) :
    (assign p).Renamed R (· = ·) (assign q) := by
  have hremoved := removedGroups_renamed hR h
  unfold assign
  rw [h.allowed]
  exact List.rel_foldl (P := InsertionMap.Renamed R (· = ·)) (R := RemovedGroup.Renamed R)
    (fun _ _ hm _ _ hab => colorGroup_renamed hR (h.conflicts hR) q.allowed hm hab)
    (pinned_renamed hR hremoved) hremoved

/-- Renamed problems get the same colors, and a self-loop is found at the same vertex. -/
theorem firstFit_renamed (hR : Relator.BiUnique R) {p : ColoringProblem V C}
    {q : ColoringProblem W C} (h : p.Renamed R q) :
    SameOutcome (fun e d => R e.vertex d.vertex) (InsertionMap.Renamed R (· = ·)) (firstFit p)
      (firstFit q) := by
  unfold firstFit
  rcases cases_of_optionRel (h.graph.selfLoop? hR) with ⟨h1, h2⟩ | ⟨a, b, h1, h2, hab⟩
  · rw [h1, h2]
    exact .ok (.ofPartial (h.vertices hR) fun _ _ hab => (assign_renamed hR h).get? hR hab)
  · rw [h1, h2]
    exact .error hab

end Coloring

end Lowering
