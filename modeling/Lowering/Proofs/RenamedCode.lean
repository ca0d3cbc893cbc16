import Lowering.Interaction
import Lowering.Proofs.Renaming

/-!
# Code with renamed registers

A renaming gives virtual registers other numbers. It is one-to-one on the registers that
it renames, it keeps whether a register holds a reference, and it leaves the fixed
registers alone. Code under a renaming has the same points and the same control flow, the
sweeps that find its live sets go through the same rounds, and so the registers of the
renamed code interact as those of the code do.
-/

namespace Lowering

/-- The relation between the old and the new numbers of virtual registers. A register has at
most one new number, and a new number is given once. A register that has none may not
occur in the code that is renamed. -/
structure IsRenaming (ρ : VirtualRegister → VirtualRegister → Prop) : Prop where
  biUnique : Relator.BiUnique ρ
  holdsReference_eq : ∀ v w, ρ v w → v.holdsReference = w.holdsReference

/-- The kinds of errors. -/
inductive ErrorKind
  | input | spilling | allocation | options
deriving DecidableEq

def Error.kind : Error → ErrorKind
  | invalidInput _ => .input
  | spilling _ => .spilling
  | invalidAllocation _ => .allocation
  | invalidOptions _ => .options

/-- Two errors are of one kind. -/
def SameKind (e d : Error) : Prop :=
  e.kind = d.kind

theorem rejectFirst_renamed {α β ε δ : Type} {S : α → β → Prop} {l : List α} {m : List β}
    (h : List.Forall₂ S l m) {f : α → Option ε} {g : β → Option δ}
    (hfg : ∀ a b, S a b → Option.Rel (fun _ _ => True) (f a) (g b)) :
    SameOutcome (fun _ _ => True) (· = ·) (rejectFirst l f) (rejectFirst m g) := by
  unfold rejectFirst
  rcases cases_of_optionRel (findSome?_renamed h hfg) with ⟨h1, h2⟩ | ⟨e, d, h1, h2, -⟩
  · rw [h1, h2]
    exact .ok rfl
  · rw [h1, h2]
    exact .error trivial

namespace Register

variable {ρ : VirtualRegister → VirtualRegister → Prop} {r s : Register}

/-- A fixed register is not renamed, and a virtual one is renamed by `ρ`. -/
inductive Renamed (ρ : VirtualRegister → VirtualRegister → Prop) : Register → Register → Prop
  | fixed (h : HardwareRegister) : Renamed ρ (.fixed h) (.fixed h)
  | virtual {v w : VirtualRegister} : ρ v w → Renamed ρ (.virtual v) (.virtual w)

namespace Renamed

theorem fixed?_eq (h : Renamed ρ r s) : r.fixed? = s.fixed? := by
  cases h <;> rfl

theorem isFixed_eq (h : Renamed ρ r s) : r.isFixed = s.isFixed := by
  cases h <;> rfl

protected theorem virtual? (h : Renamed ρ r s) : Option.Rel ρ r.virtual? s.virtual? := by
  cases h with
  | fixed h => exact .none
  | virtual h => exact .some h

theorem forall₂_fixed (l : List HardwareRegister) :
    List.Forall₂ (Renamed ρ) (l.map .fixed) (l.map .fixed) := by
  refine List.forall₂_same.mpr fun r hr => ?_
  obtain ⟨h, -, rfl⟩ := List.mem_map.mp hr
  exact .fixed h

end Renamed

end Register

namespace IsRenaming

variable {ρ : VirtualRegister → VirtualRegister → Prop}

theorem registers (hρ : IsRenaming ρ) : Relator.BiUnique (Register.Renamed ρ) := by
  constructor
  · intro r s t hr hs
    cases hr with
    | fixed h => cases hs; rfl
    | virtual hv =>
        cases hs with
        | virtual hw => rw [hρ.biUnique.1 hv hw]
  · intro r s t hs ht
    cases hs with
    | fixed h => cases ht; rfl
    | virtual hv =>
        cases ht with
        | virtual hw => rw [hρ.biUnique.2 hv hw]

theorem register_holdsReference_eq (hρ : IsRenaming ρ) {r s : Register}
    (h : Register.Renamed ρ r s) : r.holdsReference = s.holdsReference := by
  cases h with
  | fixed h => rfl
  | virtual h => exact hρ.holdsReference_eq _ _ h

end IsRenaming

/-! ## Instructions, blocks and points -/

section Code

variable {R : Register → Register → Prop}

/-- Two moves use the same slot and related registers. -/
inductive Transfer.Renamed (R : Register → Register → Prop) : Transfer → Transfer → Prop
  | load {r s : Register} (slot : FrameSlot) : R r s → Renamed R (.load r slot) (.load s slot)
  | store {r s : Register} (slot : FrameSlot) : R r s → Renamed R (.store slot r) (.store slot s)

/-- Two copies go between related registers. -/
structure Copy.Renamed (R : Register → Register → Prop) (c d : Copy) : Prop where
  into : R c.into d.into
  source : R c.source d.source

/-- Two operations do the same on related registers. -/
inductive Operation.Renamed (R : Register → Register → Prop) : Operation → Operation → Prop
  | compute (name : String) {r w r' w' : List Register} :
      List.Forall₂ R r r' → List.Forall₂ R w w' →
        Renamed R (.compute name r w) (.compute name r' w')
  | copy {c d : Copy} : c.Renamed R d → Renamed R (.copy c) (.copy d)
  | transfer {t u : Transfer} : t.Renamed R u → Renamed R (.transfer t) (.transfer u)

/-- Two instructions do the same on related registers. -/
inductive Instruction.Renamed (R : Register → Register → Prop) : Instruction → Instruction → Prop
  | operate {o p : Operation} : o.Renamed R p → Renamed R (.operate o) (.operate p)
  | fusedCopy {c d : Copy} {r w r' w' : List Register} :
      c.Renamed R d → List.Forall₂ R r r' → List.Forall₂ R w w' →
        Renamed R (.fusedCopy c r w) (.fusedCopy d r' w')
  | label (l : Label) : Renamed R (.label l) (.label l)
  | jump (l : Label) : Renamed R (.jump l) (.jump l)
  | branch (l : Label) (jumpIf : Bool) : Renamed R (.branch l jumpIf) (.branch l jumpIf)

theorem Copy.Renamed.map {c d : Copy} (h : c.Renamed R d) {f g : Register → Register}
    (hfg : ∀ r s, R r s → R (f r) (g s)) : (c.map f).Renamed R (d.map g) :=
  ⟨hfg _ _ h.into, hfg _ _ h.source⟩

namespace Operation.Renamed

variable {o p : Operation}

protected theorem reads (h : o.Renamed R p) : List.Forall₂ R o.reads p.reads := by
  cases h with
  | compute name hr hw => exact hr
  | copy h => exact .cons h.source .nil
  | transfer h =>
      cases h with
      | load slot h => exact .nil
      | store slot h => exact .cons h .nil

protected theorem writes (h : o.Renamed R p) : List.Forall₂ R o.writes p.writes := by
  cases h with
  | compute name hr hw => exact hw
  | copy h => exact .cons h.into .nil
  | transfer h =>
      cases h with
      | load slot h => exact .cons h .nil
      | store slot h => exact .nil

protected theorem copy? (h : o.Renamed R p) : Option.Rel (Copy.Renamed R) o.copy? p.copy? := by
  cases h with
  | compute name hr hw => exact .none
  | copy h => exact .some h
  | transfer h => exact .none

protected theorem map (h : o.Renamed R p) {f g : Register → Register}
    (hfg : ∀ r s, R r s → R (f r) (g s)) : (o.map f).Renamed R (p.map g) := by
  cases h with
  | compute name hr hw => exact .compute name (List.rel_map hfg hr) (List.rel_map hfg hw)
  | copy h => exact .copy (h.map hfg)
  | transfer h =>
      cases h with
      | load slot h => exact .transfer (.load slot (hfg _ _ h))
      | store slot h => exact .transfer (.store slot (hfg _ _ h))

end Operation.Renamed

namespace Instruction.Renamed

variable {i j : Instruction}

protected theorem reads (h : i.Renamed R j) : List.Forall₂ R i.reads j.reads := by
  cases h with
  | operate h => exact h.reads
  | fusedCopy h hr hw => exact hr
  | _ => exact .nil

protected theorem writes (h : i.Renamed R j) : List.Forall₂ R i.writes j.writes := by
  cases h with
  | operate h => exact h.writes
  | fusedCopy h hr hw => exact hw
  | _ => exact .nil

protected theorem copy? (h : i.Renamed R j) : Option.Rel (Copy.Renamed R) i.copy? j.copy? := by
  cases h with
  | operate h => exact h.copy?
  | fusedCopy h hr hw => exact .some h
  | _ => exact .none

protected theorem map (h : i.Renamed R j) {f g : Register → Register}
    (hfg : ∀ r s, R r s → R (f r) (g s)) : (i.map f).Renamed R (j.map g) := by
  cases h with
  | operate h => exact .operate (h.map hfg)
  | fusedCopy h hr hw =>
      exact .fusedCopy (h.map hfg) (List.rel_map hfg hr) (List.rel_map hfg hw)
  | label l => exact .label l
  | jump l => exact .jump l
  | branch l jumpIf => exact .branch l jumpIf

end Instruction.Renamed

/-- Two blocks have the same label and edges, and instructions that do the same on related
registers. -/
structure Block.Renamed (R : Register → Register → Prop) (b c : Block) : Prop where
  label : b.label = c.label
  instructions : List.Forall₂ (Instruction.Renamed R) b.instructions c.instructions
  successors : b.successors = c.successors
  predecessors : b.predecessors = c.predecessors

/-- Two functions have the same name and the same blocks, up to the names of registers. -/
structure Fragment.Renamed (R : Register → Register → Prop) (f g : Fragment) : Prop where
  name : f.name = g.name
  blocks : List.Forall₂ (Block.Renamed R) f.blocks g.blocks

/-- Two points are the same up to the names of registers. -/
structure Point.Renamed (R : Register → Register → Prop) (p q : Point) : Prop where
  block : p.block = q.block
  index : p.index = q.index
  reads : p.reads.Renamed R q.reads
  writes : p.writes.Renamed R q.writes
  successors : p.successors = q.successors
  copy? : Option.Rel (Copy.Renamed R) p.copy? q.copy?

namespace Fragment.Renamed

variable {f g : Fragment}

protected theorem instructions (h : f.Renamed R g) :
    List.Forall₂ (Instruction.Renamed R) f.instructions g.instructions :=
  List.rel_flatMap h.blocks fun _ _ hb => hb.instructions

theorem offset_eq (h : f.Renamed R g) (block : Nat) : f.offset block = g.offset block :=
  (List.rel_flatMap (List.forall₂_take block h.blocks) fun _ _ hb => hb.instructions).length_eq

theorem entry?_eq (h : f.Renamed R g) (block : Nat) : f.entry? block = g.entry? block := by
  unfold entry?
  rw [h.blocks.length_eq, h.offset_eq]

theorem following_eq (h : f.Renamed R g) (block : Nat) {b c : Block} (hbc : b.Renamed R c)
    (index : Nat) : f.following block b index = g.following block c index := by
  have hentry : f.entry? = g.entry? := funext h.entry?_eq
  unfold following
  rw [hbc.instructions.length_eq, h.offset_eq, hbc.successors, hentry]

protected theorem checkBlocks (h : f.Renamed R g) :
    SameOutcome (fun _ _ => True) (· = ·) f.checkBlocks g.checkBlocks := by
  refine rejectFirst_renamed h.blocks fun b c hbc => ?_
  have hempty : b.isEmpty = true ↔ c.isEmpty = true := by
    unfold Block.isEmpty
    rw [List.isEmpty_iff_length_eq_zero, List.isEmpty_iff_length_eq_zero,
      hbc.instructions.length_eq]
  exact ite_renamed hempty (.some trivial) .none

variable (hR : Relator.BiUnique R)
include hR

protected theorem blockPoints (h : f.Renamed R g) (block : Nat) {b c : Block}
    (hbc : b.Renamed R c) :
    List.Forall₂ (Point.Renamed R) (f.blockPoints block b) (g.blockPoints block c) := by
  refine List.rel_map (fun i j hij => ⟨rfl, hij.2, ?_, ?_, ?_, ?_⟩)
    (zipIdx_renamed hbc.instructions 0)
  · exact .ofList hR hij.1.reads
  · exact .ofList hR hij.1.writes
  · simp only [hij.2, h.following_eq block hbc]
  · exact hij.1.copy?

protected theorem points (h : f.Renamed R g) :
    List.Forall₂ (Point.Renamed R) f.points g.points := by
  refine List.rel_flatMap (zipIdx_renamed h.blocks 0) fun b c hbc => ?_
  rw [hbc.2]
  exact h.blockPoints hR c.2 hbc.1

protected theorem flatten (h : f.Renamed R g) :
    SameOutcome SameKind (List.Forall₂ (Point.Renamed R)) f.flatten g.flatten := by
  unfold Fragment.flatten
  rcases h.checkBlocks.cases with ⟨_, _, h1, h2, -⟩ | ⟨_, _, h1, h2, -⟩
  · rw [h1, h2]
    exact .error rfl
  · rw [h1, h2]
    exact .ok (h.points hR)

end Fragment.Renamed

/-! ## Live sets -/

/-- Two pairs of live sets are the same up to the names of registers. -/
structure Live.Renamed (R : Register → Register → Prop) (l m : Live) : Prop where
  before : l.before.Renamed R m.before
  after : l.after.Renamed R m.after

namespace Liveness

variable {code code' : List Point} {live live' : List Live}
  {registers registers' : InsertionSet Register}

theorem before_renamed (h : List.Forall₂ (Live.Renamed R) live live') (point : Nat) :
    (before live point).Renamed R (before live' point) := by
  unfold before
  rcases cases_of_optionRel (getElem?_renamed h point) with ⟨h1, h2⟩ | ⟨l, m, h1, h2, hlm⟩
  · rw [h1, h2]
    exact .empty
  · rw [h1, h2]
    exact hlm.before

theorem after_renamed (h : List.Forall₂ (Live.Renamed R) live live') (point : Nat) :
    (after live point).Renamed R (after live' point) := by
  unfold after
  rcases cases_of_optionRel (getElem?_renamed h point) with ⟨h1, h2⟩ | ⟨l, m, h1, h2, hlm⟩
  · rw [h1, h2]
    exact .empty
  · rw [h1, h2]
    exact hlm.after

theorem seed_renamed (h : List.Forall₂ (Point.Renamed R) code code') :
    List.Forall₂ (Live.Renamed R) (seed code) (seed code') :=
  List.rel_map (fun _ _ hp => ⟨hp.reads, hp.writes⟩) h

variable (hR : Relator.BiUnique R)
include hR

theorem registers_renamed (h : List.Forall₂ (Point.Renamed R) code code') :
    (Liveness.registers code).Renamed R (Liveness.registers code') :=
  .ofList hR (List.rel_flatMap h fun _ _ hp => List.rel_append hp.reads hp.writes)

theorem revise_renamed (h : List.Forall₂ (Live.Renamed R) live live') {p q : Point}
    (hp : p.Renamed R q) {l m : Live} (hl : l.Renamed R m) :
    (revise live p l).Renamed R (revise live' q m) := by
  have hpassed : List.Forall₂ R (p.successors.flatMap fun s => (before live s).toList)
      (q.successors.flatMap fun s => (before live' s).toList) := by
    rw [hp.successors]
    refine List.rel_flatMap (R := (· = ·)) (List.forall₂_refl _) fun s _ hs => ?_
    rw [← hs]
    exact before_renamed h s
  have hafter := hl.after.insertAll hR hpassed
  exact ⟨hl.before.insertAll hR
    (filter_renamed hafter fun _ _ hr => hp.writes.decide_not_mem_eq hR hr), hafter⟩

theorem sweep_renamed (hcode : List.Forall₂ (Point.Renamed R) code code')
    (h : List.Forall₂ (Live.Renamed R) live live') :
    List.Forall₂ (Live.Renamed R) (sweep code live) (sweep code' live') := by
  refine List.rel_foldr (P := List.Forall₂ (Live.Renamed R)) (fun p q hpq _ _ hlive => ?_) h
    (zipIdx_renamed hcode 0)
  rw [hpq.2]
  exact modify_renamed hlive q.2 fun _ _ hl => revise_renamed hR hlive hpq.1 hl

theorem missing_eq (hregisters : registers.Renamed R registers') {s t : InsertionSet Register}
    (hs : s.Renamed R t) : missing registers s = missing registers' t := by
  unfold missing
  rw [List.countP_eq_length_filter, List.countP_eq_length_filter]
  exact (filter_renamed hregisters fun _ _ hr => hs.decide_not_mem_eq hR hr).length_eq

theorem gaps_eq (hregisters : registers.Renamed R registers')
    (h : List.Forall₂ (Live.Renamed R) live live') :
    gaps registers live = gaps registers' live' := by
  induction h with
  | nil => rfl
  | cons hl _ ih =>
      unfold gaps
      rw [missing_eq hR hregisters hl.before, missing_eq hR hregisters hl.after, ih]

/-- Renamed code is swept over equally often, for the same gaps are counted. -/
theorem settle_renamed (hcode : List.Forall₂ (Point.Renamed R) code code')
    (hregisters : registers.Renamed R registers') {live live' : List Live}
    (h : List.Forall₂ (Live.Renamed R) live live') :
    List.Forall₂ (Live.Renamed R) (settle code registers live)
      (settle code' registers' live') := by
  have hnext := sweep_renamed hR hcode h
  have hgaps := gaps_eq hR hregisters h
  have hgaps' := gaps_eq hR hregisters hnext
  rw [settle.eq_def code registers live, settle.eq_def code' registers' live']
  by_cases hlt : gaps registers (sweep code live) < gaps registers live
  · rw [if_pos hlt, if_pos (hgaps ▸ hgaps' ▸ hlt)]
    exact settle_renamed hcode hregisters hnext
  · rw [if_neg hlt, if_neg (hgaps ▸ hgaps' ▸ hlt)]
    exact hnext
termination_by gaps registers live

theorem solve_renamed (h : List.Forall₂ (Point.Renamed R) code code') :
    List.Forall₂ (Live.Renamed R) (solve code) (solve code') :=
  settle_renamed hR h (registers_renamed hR h) (seed_renamed h)

end Liveness

end Code

/-! ## Interactions -/

/-- Two interactions have the same registers, related in the same way, up to the names of
registers. -/
structure Interaction.Renamed (ρ : VirtualRegister → VirtualRegister → Prop)
    (x y : Interaction) : Prop where
  registers : x.registers.Renamed (Register.Renamed ρ) y.registers
  interference : Relation.Renamed (Register.Renamed ρ) x.interference y.interference
  copying : Relation.Renamed (Register.Renamed ρ) x.copying y.copying

namespace Interaction

variable {ρ : VirtualRegister → VirtualRegister → Prop} {code code' : List Point}
  {live live' : List Live} {k l : Relation Register} {s t : InsertionSet Register}

theorem Renamed.withoutCopying {x y : Interaction} (h : x.Renamed ρ y) :
    x.withoutCopying.Renamed ρ y.withoutCopying :=
  { h with copying := h.copying.mapValues fun _ _ _ _ _ _ => .empty }

variable (hρ : IsRenaming ρ)
include hρ

theorem definitions_eq (h : List.Forall₂ (Point.Renamed (Register.Renamed ρ)) code code')
    {r r' : Register} (hr : Register.Renamed ρ r r') :
    definitions code r = definitions code' r' := by
  rw [← List.forall₂_eq_eq_eq]
  refine List.rel_map (fun _ _ hp => hp.2) (filter_renamed (zipIdx_renamed h 0) fun p q hp => ?_)
  exact hp.1.writes.decide_mem_eq hρ.registers hr

theorem isLasting_eq (h : List.Forall₂ (Point.Renamed (Register.Renamed ρ)) code code')
    (hlive : List.Forall₂ (Live.Renamed (Register.Renamed ρ)) live live') (point : Nat)
    {c d : Copy} (hc : c.Renamed (Register.Renamed ρ) d) :
    isLasting code live point c = isLasting code' live' point d := by
  have hdead : (fun n => decide (n = point) || decide (¬ c.into ∈ Liveness.after live n)) =
      fun n => decide (n = point) || decide (¬ d.into ∈ Liveness.after live' n) := by
    funext n
    rw [(Liveness.after_renamed hlive n).decide_not_mem_eq hρ.registers hc.into]
  unfold isLasting
  rw [decide_ne_of_renamed hρ.registers hc.into hc.source, definitions_eq hρ h hc.into,
    definitions_eq hρ h hc.source, hdead]

theorem copyPairs_renamed (h : List.Forall₂ (Point.Renamed (Register.Renamed ρ)) code code')
    (hlive : List.Forall₂ (Live.Renamed (Register.Renamed ρ)) live live') :
    List.Forall₂ (EntryRenamed (Register.Renamed ρ) (Register.Renamed ρ))
      (copyPairs code live) (copyPairs code' live') := by
  refine List.rel_filterMap (fun p q hpq => ?_) (zipIdx_renamed h 0)
  rcases cases_of_optionRel hpq.1.copy? with ⟨h1, h2⟩ | ⟨c, d, h1, h2, hc⟩
  · rw [h1, h2]
    exact .none
  · simp only [h1, h2, hpq.2, isLasting_eq hρ h hlive q.2 hc]
    exact ite_renamed Iff.rfl (.some ⟨hc.source, hc.into⟩) .none

theorem writePairs_renamed (h : List.Forall₂ (Point.Renamed (Register.Renamed ρ)) code code')
    (hlive : List.Forall₂ (Live.Renamed (Register.Renamed ρ)) live live')
    (hk : Relation.Renamed (Register.Renamed ρ) k l) :
    List.Forall₂ (EntryRenamed (Register.Renamed ρ) (Register.Renamed ρ))
      (writePairs code live k) (writePairs code' live' l) := by
  refine List.rel_flatMap (zip_renamed h hlive) fun p q hpq => ?_
  refine List.rel_flatMap hpq.2.after fun a b hab => ?_
  refine List.rel_map (fun _ _ hcd => ⟨hab, hcd⟩) (filter_renamed hpq.1.writes fun c d hcd => ?_)
  rw [decide_ne_of_renamed hρ.registers hab hcd, hk.relatedEitherWay_eq hρ.registers hab hcd]

theorem referencePairs_renamed (hs : s.Renamed (Register.Renamed ρ) t)
    (preserved : List HardwareRegister) :
    List.Forall₂ (EntryRenamed (Register.Renamed ρ) (Register.Renamed ρ))
      (referencePairs s preserved) (referencePairs t preserved) := by
  refine List.rel_flatMap (filter_renamed hs fun _ _ hr => hρ.register_holdsReference_eq hr)
    fun a b hab => ?_
  exact List.rel_map (R := (· = ·)) (fun p _ hp => ⟨hab, hp ▸ .fixed p⟩)
    (List.forall₂_refl _)

theorem alwaysLivePairs_renamed (hs : s.Renamed (Register.Renamed ρ) t)
    (alwaysLive : List HardwareRegister) (hk : Relation.Renamed (Register.Renamed ρ) k l) :
    List.Forall₂ (EntryRenamed (Register.Renamed ρ) (Register.Renamed ρ))
      (alwaysLivePairs s alwaysLive k) (alwaysLivePairs t alwaysLive l) := by
  refine List.rel_flatMap (R := (· = ·)) (List.forall₂_refl _) fun h _ hh => ?_
  rw [← hh]
  refine List.rel_map (fun _ _ hab => ⟨hab, .fixed h⟩) (filter_renamed hs fun a b hab => ?_)
  rw [decide_ne_of_renamed hρ.registers hab (.fixed h),
    hk.relatedEitherWay_eq hρ.registers hab (.fixed h)]

theorem ofLive_renamed (h : List.Forall₂ (Point.Renamed (Register.Renamed ρ)) code code')
    (hlive : List.Forall₂ (Live.Renamed (Register.Renamed ρ)) live live')
    (preserved alwaysLive : List HardwareRegister) :
    (ofLive code live preserved alwaysLive).Renamed ρ
      (ofLive code' live' preserved alwaysLive) := by
  have hregisters := ((Liveness.registers_renamed hρ.registers h).insertAll hρ.registers
    (Register.Renamed.forall₂_fixed preserved)).insertAll hρ.registers
    (Register.Renamed.forall₂_fixed alwaysLive)
  have hdiscrete := Relation.Renamed.discrete hregisters
  have hcopying := List.rel_foldl (P := Relation.Renamed (Register.Renamed ρ))
    (R := EntryRenamed (Register.Renamed ρ) (Register.Renamed ρ))
    (fun _ _ hg _ _ he => Relation.Renamed.addArc hρ.registers hg he.1 he.2) hdiscrete
    (copyPairs_renamed hρ h hlive)
  have hpairs := List.rel_append (List.rel_append (writePairs_renamed hρ h hlive hcopying)
    (referencePairs_renamed hρ hregisters preserved))
    (alwaysLivePairs_renamed hρ hregisters alwaysLive hcopying)
  exact ⟨hregisters, hdiscrete.addEdges hρ.registers hpairs, hcopying⟩

/-- The registers of renamed code interact as those of the code do. -/
theorem analyze_renamed {f g : Fragment} (h : f.Renamed (Register.Renamed ρ) g)
    (preserved alwaysLive : List HardwareRegister) :
    SameOutcome SameKind (Renamed ρ) (analyze f preserved alwaysLive)
      (analyze g preserved alwaysLive) := by
  unfold analyze
  rcases (h.flatten hρ.registers).cases with ⟨_, _, h1, h2, he⟩ | ⟨_, _, h1, h2, hcode⟩
  · rw [h1, h2]
    exact .error he
  · rw [h1, h2]
    exact .ok (ofLive_renamed hρ hcode (Liveness.solve_renamed hρ.registers hcode) _ _)

end Interaction

end Lowering
