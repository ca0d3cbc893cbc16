import Lowering.Relation
import Mathlib.Data.List.Forall2

/-!
# The same data under other names

Two runs of a program that differ in the names of the things they work on are compared
by a relation `R` between the old names and the new ones. `R` is one-to-one: a name has
at most one new name, and belongs to at most one old name. Two lists are then the same up
to names if they have the same length and `R` holds place by place, and two sets or maps
are if their lists of elements or entries are. So the order is part of what is compared.

Every operation on sets, maps and relations answers alike under the new names: it only
asks whether names are equal, and `R` keeps equality.
-/

namespace Lowering

universe u v w x

/-- Two pairs have related first parts and related second parts. -/
def EntryRenamed {V : Type u} {W : Type v} {α : Type w} {β : Type x} (R : V → W → Prop)
    (S : α → β → Prop) (e : V × α) (f : W × β) : Prop :=
  R e.1 f.1 ∧ S e.2 f.2

/-! ## Lists -/

section Lists

variable {V : Type u} {W : Type v} {α : Type w} {β : Type x} {R : V → W → Prop}
  {S : α → β → Prop} {l : List V} {m : List W}

theorem ite_renamed {P Q : Prop} [Decidable P] [Decidable Q] (hPQ : P ↔ Q) {a c : α} {b d : β}
    (hab : S a b) (hcd : S c d) : S (if P then a else c) (if Q then b else d) := by
  by_cases h : P
  · rw [if_pos h, if_pos (hPQ.mp h)]
    exact hab
  · rw [if_neg h, if_neg fun hQ => h (hPQ.mpr hQ)]
    exact hcd

theorem cases_of_optionRel {a : Option α} {b : Option β} (h : Option.Rel S a b) :
    (a = none ∧ b = none) ∨ ∃ x y, a = some x ∧ b = some y ∧ S x y := by
  cases h with
  | none => exact .inl ⟨rfl, rfl⟩
  | some h => exact .inr ⟨_, _, rfl, rfl, h⟩

theorem optionRel_eq_iff {a b : Option α} : Option.Rel (· = ·) a b ↔ a = b := by
  constructor
  · intro h
    rcases cases_of_optionRel h with ⟨rfl, rfl⟩ | ⟨x, y, rfl, rfl, rfl⟩
    · rfl
    · rfl
  · rintro rfl
    cases a with
    | none => exact .none
    | some x => exact .some rfl

theorem filter_renamed (h : List.Forall₂ R l m) {p : V → Bool} {q : W → Bool}
    (hpq : ∀ a b, R a b → p a = q b) : List.Forall₂ R (l.filter p) (m.filter q) :=
  List.rel_filter (fun a b hab => Bool.eq_iff_iff.mp (hpq a b hab)) h

theorem find?_renamed (h : List.Forall₂ R l m) {p : V → Bool} {q : W → Bool}
    (hpq : ∀ a b, R a b → p a = q b) : Option.Rel R (l.find? p) (m.find? q) := by
  induction h with
  | nil => exact .none
  | cons hab _ ih =>
      rw [List.find?_cons, List.find?_cons, hpq _ _ hab]
      split
      · exact .some hab
      · exact ih

theorem findSome?_renamed (h : List.Forall₂ R l m) {f : V → Option α} {g : W → Option β}
    (hfg : ∀ a b, R a b → Option.Rel S (f a) (g b)) :
    Option.Rel S (l.findSome? f) (m.findSome? g) := by
  induction h with
  | nil => exact .none
  | @cons a b _ _ hab _ ih =>
      rw [List.findSome?_cons, List.findSome?_cons]
      rcases cases_of_optionRel (hfg a b hab) with ⟨ha, hb⟩ | ⟨x, y, ha, hb, hxy⟩
      · rw [ha, hb]
        exact ih
      · rw [ha, hb]
        exact .some hxy

theorem all_eq_of_forall₂ (h : List.Forall₂ R l m) {p : V → Bool} {q : W → Bool}
    (hpq : ∀ a b, R a b → p a = q b) : l.all p = m.all q := by
  induction h with
  | nil => rfl
  | cons hab _ ih => rw [List.all_cons, List.all_cons, hpq _ _ hab, ih]

theorem getElem?_renamed (h : List.Forall₂ R l m) (i : Nat) : Option.Rel R l[i]? m[i]? := by
  induction h generalizing i with
  | nil => exact .none
  | cons hab _ ih =>
      cases i with
      | zero => exact .some hab
      | succ i => exact ih i

theorem modify_renamed (h : List.Forall₂ R l m) (i : Nat) {f : V → V} {g : W → W}
    (hfg : ∀ a b, R a b → R (f a) (g b)) : List.Forall₂ R (l.modify i f) (m.modify i g) := by
  induction h generalizing i with
  | nil => cases i <;> exact .nil
  | cons hab htail ih =>
      cases i with
      | zero => exact .cons (hfg _ _ hab) htail
      | succ i => exact .cons hab (ih i)

theorem zipIdx_renamed (h : List.Forall₂ R l m) (n : Nat) :
    List.Forall₂ (EntryRenamed R (· = ·)) (l.zipIdx n) (m.zipIdx n) := by
  induction h generalizing n with
  | nil => exact .nil
  | cons hab _ ih => exact .cons ⟨hab, rfl⟩ (ih (n + 1))

theorem zip_renamed (h : List.Forall₂ R l m) {a : List α} {b : List β}
    (hab : List.Forall₂ S a b) :
    List.Forall₂ (EntryRenamed R S) (l.zip a) (m.zip b) := by
  induction h generalizing a b with
  | nil => exact .nil
  | cons hlm _ ih =>
      cases hab with
      | nil => exact .nil
      | cons hxy hrest => exact .cons ⟨hlm, hxy⟩ (ih hrest)

theorem orderedPairs_renamed (h : List.Forall₂ R l m) :
    List.Forall₂ (EntryRenamed R R) (orderedPairs l) (orderedPairs m) := by
  induction h with
  | nil => exact .nil
  | cons hab htail ih => exact List.rel_append (List.rel_map (fun _ _ h => ⟨hab, h⟩) htail) ih

section

variable [DecidableEq V] [DecidableEq W] {a c : V} {b d : W} (hR : Relator.BiUnique R)
include hR

theorem decide_eq_of_renamed (hab : R a b) (hcd : R c d) : decide (a = c) = decide (b = d) :=
  decide_eq_decide.mpr (Relator.rel_eq hR hab hcd)

theorem decide_ne_of_renamed (hab : R a b) (hcd : R c d) : decide (a ≠ c) = decide (b ≠ d) :=
  decide_eq_decide.mpr (not_congr (Relator.rel_eq hR hab hcd))

theorem appendNew_renamed (h : List.Forall₂ R l m) (hab : R a b) :
    List.Forall₂ R (appendNew l a) (appendNew m b) :=
  ite_renamed (List.rel_mem hR hab h) h (List.rel_append h (.cons hab .nil))

end

end Lists

/-! ## Computations that may fail -/

/-- Two computations both succeed with related results, or both fail with related errors. -/
inductive SameOutcome {ε : Type u} {δ : Type v} {α : Type w} {β : Type x} (E : ε → δ → Prop)
    (S : α → β → Prop) : Except ε α → Except δ β → Prop
  | error {e : ε} {d : δ} : E e d → SameOutcome E S (.error e) (.error d)
  | ok {a : α} {b : β} : S a b → SameOutcome E S (.ok a) (.ok b)

namespace SameOutcome

variable {ε δ ε' δ' : Type u} {α β γ κ : Type v} {V W : Type w} {E : ε → δ → Prop}
  {E' : ε' → δ' → Prop} {S : α → β → Prop} {T : γ → κ → Prop} {R : V → W → Prop}
  {x : Except ε α} {y : Except δ β}

theorem cases (h : SameOutcome E S x y) :
    (∃ e d, x = .error e ∧ y = .error d ∧ E e d) ∨ ∃ a b, x = .ok a ∧ y = .ok b ∧ S a b := by
  cases h with
  | error h => exact .inl ⟨_, _, rfl, rfl, h⟩
  | ok h => exact .inr ⟨_, _, rfl, rfl, h⟩

theorem exists_ok (h : SameOutcome E S x y) (hx : ∃ a, x = .ok a) :
    ∃ a b, x = .ok a ∧ y = .ok b ∧ S a b := by
  obtain ⟨a, rfl⟩ := hx
  cases h with
  | ok h => exact ⟨_, _, rfl, rfl, h⟩

protected theorem bind (h : SameOutcome E S x y) {f : α → Except ε γ} {g : β → Except δ κ}
    (hfg : ∀ a b, S a b → SameOutcome E T (f a) (g b)) : SameOutcome E T (x >>= f) (y >>= g) := by
  cases h with
  | error h => exact .error h
  | ok h => exact hfg _ _ h

protected theorem mapError (h : SameOutcome E S x y) {f : ε → ε'} {g : δ → δ'}
    (hfg : ∀ e d, E e d → E' (f e) (g d)) :
    SameOutcome E' S (x.mapError f) (y.mapError g) := by
  cases h with
  | error h => exact .error (hfg _ _ h)
  | ok h => exact .ok h

protected theorem mapM {l : List V} {m : List W} (h : List.Forall₂ R l m)
    {f : V → Except ε α} {g : W → Except δ β}
    (hfg : ∀ a b, R a b → SameOutcome E S (f a) (g b)) :
    SameOutcome E (List.Forall₂ S) (l.mapM f) (m.mapM g) := by
  induction h with
  | nil => exact .ok .nil
  | cons hab _ ih =>
      rw [List.mapM_cons, List.mapM_cons]
      exact (hfg _ _ hab).bind fun _ _ hx => ih.bind fun _ _ hrest => .ok (.cons hx hrest)

protected theorem foldlM {l : List V} {m : List W} (h : List.Forall₂ R l m)
    {f : α → V → Except ε α} {g : β → W → Except δ β}
    (hfg : ∀ a b, S a b → ∀ c d, R c d → SameOutcome E S (f a c) (g b d)) {a : α} {b : β}
    (hab : S a b) : SameOutcome E S (l.foldlM f a) (m.foldlM g b) := by
  induction h generalizing a b with
  | nil => exact .ok hab
  | cons hcd _ ih =>
      rw [List.foldlM_cons, List.foldlM_cons]
      exact (hfg _ _ hab _ _ hcd).bind fun _ _ hx => ih hx

end SameOutcome

/-! ## Sets, maps and relations -/

namespace InsertionSet

variable {V : Type u} {W : Type v} {R : V → W → Prop} {s : InsertionSet V} {t : InsertionSet W}
  {a : V} {b : W}

/-- Two sets have the same elements in the same order, up to names. -/
def Renamed (R : V → W → Prop) (s : InsertionSet V) (t : InsertionSet W) : Prop :=
  List.Forall₂ R s.toList t.toList

namespace Renamed

protected theorem empty : Renamed R ∅ ∅ :=
  .nil

theorem size_eq (h : s.Renamed R t) : s.size = t.size :=
  List.Forall₂.length_eq h

theorem isEmpty_eq (h : s.Renamed R t) : s.isEmpty = t.isEmpty := by
  rw [Bool.eq_iff_iff, isEmpty, isEmpty, List.isEmpty_iff_length_eq_zero,
    List.isEmpty_iff_length_eq_zero, List.Forall₂.length_eq h]

protected theorem filter (h : s.Renamed R t) {p : V → Bool} {q : W → Bool}
    (hpq : ∀ a b, R a b → p a = q b) : (s.filter p).Renamed R (t.filter q) :=
  filter_renamed h hpq

section

variable (hR : Relator.BiUnique R)
include hR

theorem mem_iff (h : s.Renamed R t) (hab : R a b) : a ∈ s ↔ b ∈ t :=
  List.rel_mem hR hab h

variable [DecidableEq V] [DecidableEq W]

theorem decide_mem_eq (h : s.Renamed R t) (hab : R a b) : decide (a ∈ s) = decide (b ∈ t) :=
  decide_eq_decide.mpr (mem_iff hR h hab)

theorem decide_not_mem_eq (h : s.Renamed R t) (hab : R a b) :
    decide (¬ a ∈ s) = decide (¬ b ∈ t) :=
  decide_eq_decide.mpr (not_congr (mem_iff hR h hab))

protected theorem insert (h : s.Renamed R t) (hab : R a b) :
    (s.insert a).Renamed R (t.insert b) :=
  appendNew_renamed hR h hab

protected theorem insertAll (h : s.Renamed R t) {l : List V} {m : List W}
    (hl : List.Forall₂ R l m) : (s.insertAll l).Renamed R (t.insertAll m) :=
  List.rel_foldl (P := Renamed R) (R := R) (fun _ _ h _ _ hab => h.insert hR hab) h hl

protected theorem ofList {l : List V} {m : List W} (hl : List.Forall₂ R l m) :
    (ofList l).Renamed R (ofList m) :=
  Renamed.empty.insertAll hR hl

protected theorem erase (h : s.Renamed R t) (hab : R a b) : (s.erase a).Renamed R (t.erase b) :=
  h.filter fun _ _ hcd => decide_ne_of_renamed hR hcd hab

end

end Renamed

end InsertionSet

namespace InsertionMap

variable {V : Type u} {W : Type v} {α : Type w} {β : Type x} {R : V → W → Prop}
  {S : α → β → Prop} {m : InsertionMap V α} {n : InsertionMap W β} {a : V} {b : W}

/-- Two maps have the same entries in the same order, up to names. -/
def Renamed (R : V → W → Prop) (S : α → β → Prop) (m : InsertionMap V α) (n : InsertionMap W β) :
    Prop :=
  List.Forall₂ (EntryRenamed R S) m.entries n.entries

namespace Renamed

protected theorem empty : Renamed R S ∅ ∅ :=
  .nil

protected theorem keys (h : m.Renamed R S n) : m.keys.Renamed R n.keys :=
  List.rel_map (fun _ _ he => he.1) h

protected theorem mapValues {α' β' : Type*} {S' : α' → β' → Prop} (h : m.Renamed R S n)
    {f : V → α → α'} {g : W → β → β'}
    (hfg : ∀ a b, R a b → ∀ c d, S c d → S' (f a c) (g b d)) :
    (m.mapValues f).Renamed R S' (n.mapValues g) :=
  List.rel_map (fun _ _ he => ⟨he.1, hfg _ _ he.1 _ _ he.2⟩) h

protected theorem filterKeys (h : m.Renamed R S n) {p : V → Bool} {q : W → Bool}
    (hpq : ∀ a b, R a b → p a = q b) : (m.filterKeys p).Renamed R S (n.filterKeys q) :=
  filter_renamed h fun _ _ he => hpq _ _ he.1

protected theorem ofKeys {s : InsertionSet V} {t : InsertionSet W} (h : s.Renamed R t)
    {f : V → α} {g : W → β} (hfg : ∀ a b, R a b → S (f a) (g b)) :
    (ofKeys s f).Renamed R S (ofKeys t g) :=
  List.rel_map (fun a b hab => ⟨hab, hfg a b hab⟩) h

protected theorem ofPartial {s : InsertionSet V} {t : InsertionSet W} (h : s.Renamed R t)
    {f : V → Option α} {g : W → Option β} (hfg : ∀ a b, R a b → Option.Rel S (f a) (g b)) :
    (ofPartial s f).Renamed R S (ofPartial t g) := by
  refine List.rel_filterMap (fun a b hab => ?_) h
  rcases cases_of_optionRel (hfg a b hab) with ⟨ha, hb⟩ | ⟨c, d, ha, hb, hcd⟩
  · rw [ha, hb]
    exact .none
  · rw [ha, hb]
    exact .some ⟨hab, hcd⟩

section

variable (hR : Relator.BiUnique R)
include hR

theorem mem_iff (h : m.Renamed R S n) (hab : R a b) : a ∈ m ↔ b ∈ n :=
  h.keys.mem_iff hR hab

variable [DecidableEq V] [DecidableEq W]

protected theorem lookup {l : List (V × α)} {k : List (W × β)}
    (h : List.Forall₂ (EntryRenamed R S) l k) (hab : R a b) :
    Option.Rel S (l.lookup a) (k.lookup b) := by
  induction h with
  | nil => exact .none
  | cons hef _ ih =>
      rw [InsertionMap.lookup_cons_eq_ite, InsertionMap.lookup_cons_eq_ite]
      exact ite_renamed (Relator.rel_eq hR hab hef.1) (.some hef.2) ih

protected theorem get? (h : m.Renamed R S n) (hab : R a b) :
    Option.Rel S (m.get? a) (n.get? b) :=
  Renamed.lookup hR h hab

theorem get?_eq {n : InsertionMap W α} (h : m.Renamed R (· = ·) n)
    (hab : R a b) : m.get? a = n.get? b :=
  optionRel_eq_iff.mp (h.get? hR hab)

protected theorem erase (h : m.Renamed R S n) (hab : R a b) :
    (m.erase a).Renamed R S (n.erase b) :=
  h.filterKeys fun _ _ hcd => decide_ne_of_renamed hR hcd hab

protected theorem insert (h : m.Renamed R S n) (hab : R a b) {c : α} {d : β} (hcd : S c d) :
    (m.insert a c).Renamed R S (n.insert b d) :=
  List.rel_append (h.erase hR hab) (.cons ⟨hab, hcd⟩ .nil)

protected theorem insertAll (h : m.Renamed R S n) {l : List (V × α)} {k : List (W × β)}
    (hl : List.Forall₂ (EntryRenamed R S) l k) :
    (m.insertAll l).Renamed R S (n.insertAll k) :=
  List.rel_foldl (P := Renamed R S) (fun _ _ h _ _ he => h.insert hR he.1 he.2) h hl

protected theorem ofList {l : List (V × α)} {k : List (W × β)}
    (hl : List.Forall₂ (EntryRenamed R S) l k) : (ofList l).Renamed R S (ofList k) :=
  Renamed.empty.insertAll hR hl

protected theorem modifyEntries {l : List (V × α)} {k : List (W × β)}
    (h : List.Forall₂ (EntryRenamed R S) l k) (hab : R a b) {c : α} {d : β} (hcd : S c d)
    {f : α → α} {g : β → β} (hfg : ∀ c d, S c d → S (f c) (g d)) :
    List.Forall₂ (EntryRenamed R S) (InsertionMap.modifyEntries a c f l)
      (InsertionMap.modifyEntries b d g k) := by
  induction h with
  | nil => exact .cons ⟨hab, hfg c d hcd⟩ .nil
  | cons hek htail ih =>
      exact ite_renamed (Relator.rel_eq hR hek.1 hab) (.cons ⟨hab, hfg _ _ hek.2⟩ htail)
        (.cons hek ih)

protected theorem modifyD (h : m.Renamed R S n) (hab : R a b) {c : α} {d : β} (hcd : S c d)
    {f : α → α} {g : β → β} (hfg : ∀ c d, S c d → S (f c) (g d)) :
    (m.modifyD a c f).Renamed R S (n.modifyD b d g) :=
  Renamed.modifyEntries hR h hab hcd hfg

end

end Renamed

end InsertionMap

namespace Relation

variable {V : Type u} {W : Type v} {R : V → W → Prop} {g : Relation V} {h : Relation W}
  {a c : V} {b d : W}

/-- Two relations list the same vertices under the same vertices, up to names. -/
abbrev Renamed (R : V → W → Prop) (g : Relation V) (h : Relation W) : Prop :=
  InsertionMap.Renamed R (InsertionSet.Renamed R) g h

namespace Renamed

protected theorem pairs (hg : Renamed R g h) :
    List.Forall₂ (EntryRenamed R R) g.pairs h.pairs :=
  List.rel_flatMap hg fun _ _ he => List.rel_map (fun _ _ hab => ⟨he.1, hab⟩) he.2

protected theorem discrete {s : InsertionSet V} {t : InsertionSet W} (hs : s.Renamed R t) :
    Renamed R (discrete s) (discrete t) :=
  .ofKeys hs fun _ _ _ => .empty

variable [DecidableEq V] [DecidableEq W] (hR : Relator.BiUnique R)
include hR

protected theorem neighbors (hg : Renamed R g h) (hab : R a b) :
    (g.neighbors a).Renamed R (h.neighbors b) := by
  unfold Relation.neighbors
  rcases cases_of_optionRel (hg.get? hR hab) with ⟨ha, hb⟩ | ⟨s, t, ha, hb, hst⟩
  · rw [ha, hb]
    exact .empty
  · rw [ha, hb]
    exact hst

theorem related_eq (hg : Renamed R g h) (hab : R a b) (hcd : R c d) :
    g.related a c = h.related b d :=
  (Renamed.neighbors hR hg hab).decide_mem_eq hR hcd

theorem relatedEitherWay_eq (hg : Renamed R g h) (hab : R a b) (hcd : R c d) :
    g.relatedEitherWay a c = h.relatedEitherWay b d := by
  unfold relatedEitherWay
  rw [related_eq hR hg hab hcd, related_eq hR hg hcd hab]

protected theorem addArc (hg : Renamed R g h) (hab : R a b) (hcd : R c d) :
    Renamed R (g.addArc a c) (h.addArc b d) :=
  hg.modifyD hR hab .empty fun _ _ hst => hst.insert hR hcd

protected theorem addVertex (hg : Renamed R g h) (hab : R a b) :
    Renamed R (g.addVertex a) (h.addVertex b) :=
  hg.modifyD hR hab .empty fun _ _ hst => hst

protected theorem addEdge (hg : Renamed R g h) (hab : R a b) (hcd : R c d) :
    Renamed R (g.addEdge a c) (h.addEdge b d) :=
  Renamed.addArc hR (Renamed.addArc hR hg hab hcd) hcd hab

protected theorem addEdges (hg : Renamed R g h) {l : List (V × V)} {m : List (W × W)}
    (hl : List.Forall₂ (EntryRenamed R R) l m) : Renamed R (g.addEdges l) (h.addEdges m) :=
  List.rel_foldl (P := Renamed R) (fun _ _ hg _ _ he => Renamed.addEdge hR hg he.1 he.2) hg hl

protected theorem symmetricClosure (hg : Renamed R g h) :
    Renamed R g.symmetricClosure h.symmetricClosure := by
  refine List.rel_foldl (P := Renamed R) (fun _ _ hk e f he => ?_) .empty hg
  exact Renamed.addEdges hR (Renamed.addVertex hR hk he.1)
    (List.rel_map (fun _ _ hab => ⟨he.1, hab⟩) he.2)

protected theorem selfLoop? (hg : Renamed R g h) : Option.Rel R g.selfLoop? h.selfLoop? :=
  find?_renamed hg.keys fun _ _ hab => related_eq hR hg hab hab

end Renamed

end Relation

end Lowering
