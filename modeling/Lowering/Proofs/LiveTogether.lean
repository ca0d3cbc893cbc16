import Lowering.Proofs.ExactInteraction
import Mathlib.Data.List.Chain
import Mathlib.Data.List.Induction

/-!
# Registers that are live together

Interference arises only where a register is written. That is enough to keep apart what
is live at the same time: going back along any path from a place where two registers are
live, both stay live up to the last write to one of them, and there they interfere unless
one is a copy of the other. Only registers that no instruction on the way writes may be
live together unnoticed.
-/

namespace Lowering

/-- Control goes on only from instructions. -/
theorem Fragment.FlowsTo.exists_source {f : Fragment} {p q : Position} (h : f.FlowsTo p q) :
    ∃ i, f.instructionAt? p = some i := by
  have hwithin : ∀ b, f.blocks[p.block]? = some b → p.index < b.instructions.length →
      ∃ i, f.instructionAt? p = some i := by
    intro b hb hlt
    exact ⟨_, instructionAt?_eq_some.mpr ⟨b, hb, List.getElem?_eq_getElem hlt⟩⟩
  cases h with
  | next hnext =>
      obtain ⟨b, hb, hi⟩ := instructionAt?_eq_some.mp hnext
      exact hwithin b hb (Nat.lt_of_succ_lt (List.getElem?_eq_some_iff.mp hi).1)
  | edge hb hlast _ _ => exact hwithin _ hb (Nat.lt_of_succ_le (Nat.le_of_eq hlast))

namespace Interaction

variable {f : Fragment} {preserved alwaysLive : List HardwareRegister} {p q : Position}
  {a b : Register}

/-- Two registers interfere, or one is listed as a copy of the other. -/
def ApartOrCopied (x : Interaction) (a b : Register) : Prop :=
  (a ∈ x.interference.neighbors b ∧ b ∈ x.interference.neighbors a) ∨
    a ∈ x.copying.neighbors b ∨ b ∈ x.copying.neighbors a

/-- What is written while something else is live is kept apart from it, or is its copy. -/
theorem apartOrCopied_of_writtenWhileLive
    (ha : a ∈ (ofFragment f preserved alwaysLive).registers)
    (hb : b ∈ (ofFragment f preserved alwaysLive).registers) (hne : a ≠ b)
    (hwritten : f.WrittenWhileLive a b) :
    (ofFragment f preserved alwaysLive).ApartOrCopied a b := by
  by_cases huncopied : (ofFragment f preserved alwaysLive).Uncopied a b
  · have happart : (ofFragment f preserved alwaysLive).KeptApart f preserved alwaysLive a b :=
      .inl ⟨huncopied, hwritten⟩
    exact .inl ⟨mem_interference_iff_keptApart.mpr ⟨ha, hb, hne, happart⟩,
      mem_interference_iff_keptApart.mpr ⟨hb, ha, hne.symm, happart.symm⟩⟩
  · rw [Uncopied, not_and_or, not_not, not_not] at huncopied
    exact .inr huncopied

/-- One step back from a place where two registers are live: one of them was written
there, or both were live before already. -/
theorem apartOrCopied_or_live_before (hflow : f.FlowsTo p q) (hne : a ≠ b)
    (ha : a ∈ f.liveBefore q) (hb : b ∈ f.liveBefore q) :
    (ofFragment f preserved alwaysLive).ApartOrCopied a b ∨
      (¬ f.WritesAt a p ∧ ¬ f.WritesAt b p) ∧ a ∈ f.liveBefore p ∧ b ∈ f.liveBefore p := by
  obtain ⟨i, hi⟩ := hflow.exists_source
  have hafter : a ∈ f.liveAfter p := hflow.mem_liveAfter hi ha
  have hafter' : b ∈ f.liveAfter p := hflow.mem_liveAfter hi hb
  by_cases hwritten : f.WritesAt a p ∨ f.WritesAt b p
  · refine .inl (apartOrCopied_of_writtenWhileLive (mem_registers_of_liveAfter hafter)
      (mem_registers_of_liveAfter hafter') hne ⟨p, ?_⟩)
    exact hwritten.imp (fun hw => ⟨hw, hafter'⟩) fun hw => ⟨hw, hafter⟩
  · rw [not_or] at hwritten
    have hkept : ∀ r, r ∈ f.liveAfter p → ¬ f.WritesAt r p → r ∈ f.liveBefore p :=
      fun r hr hw => (Fragment.liveAt_iff_of_instruction hi).mp
        (Fragment.liveAt_of_mem_liveAfter hi hr fun hmem => hw ⟨i, hi, hmem⟩)
    exact .inr ⟨hwritten, hkept a hafter hwritten.1, hkept b hafter' hwritten.2⟩

/-- Back along a whole path, up to the last write. -/
theorem apartOrCopied_of_path {path : List Position}
    (hchain : List.IsChain f.FlowsTo (path ++ [q])) (hne : a ≠ b) (ha : a ∈ f.liveBefore q)
    (hb : b ∈ f.liveBefore q) (hwritten : ∃ p ∈ path, f.WritesAt a p ∨ f.WritesAt b p) :
    (ofFragment f preserved alwaysLive).ApartOrCopied a b := by
  induction path using List.reverseRecOn generalizing q with
  | nil =>
      obtain ⟨p, hp, -⟩ := hwritten
      exact absurd hp List.not_mem_nil
  | append_singleton path p ih =>
      rw [List.append_assoc, List.singleton_append] at hchain
      obtain ⟨hchain, hflow, -⟩ := List.isChain_append_cons_cons.mp hchain
      rcases apartOrCopied_or_live_before hflow hne ha hb with
        hsettled | ⟨⟨hkept, hkept'⟩, hbefore, hbefore'⟩
      · exact hsettled
      · obtain ⟨p', hp', hw⟩ := hwritten
        rcases List.mem_append.mp hp' with hp' | hp'
        · exact ih hchain hbefore hbefore' ⟨p', hp', hw⟩
        · obtain rfl := List.mem_singleton.mp hp'
          exact absurd hw (not_or.mpr ⟨hkept, hkept'⟩)

end Interaction

/-- Code without empty blocks can be analyzed. Take any path along which control may go,
and two registers that are both live before its last instruction. If some instruction
before the last writes one of them, then they interfere, or one is listed as a copy of the
other. -/
theorem live_together_interfere_or_copied (f : Fragment)
    (hblocks : ∀ b ∈ f.blocks, b.instructions ≠ []) (preserved alwaysLive : List HardwareRegister) :
    ∃ x, Interaction.analyze f preserved alwaysLive = .ok x ∧
      ∀ path q, List.IsChain f.FlowsTo (path ++ [q]) →
        ∀ a b, a ≠ b → a ∈ f.liveBefore q → b ∈ f.liveBefore q →
          (∃ p ∈ path, f.WritesAt a p ∨ f.WritesAt b p) →
          (a ∈ x.interference.neighbors b ∧ b ∈ x.interference.neighbors a) ∨
            a ∈ x.copying.neighbors b ∨ b ∈ x.copying.neighbors a := by
  refine ⟨_, Interaction.analyze_of_nonempty hblocks, ?_⟩
  intro path q hchain a b hne ha hb hwritten
  exact Interaction.apartOrCopied_of_path hchain hne ha hb hwritten

/-- A value and a copy of it are kept for the code after a loop that counts. -/
def keptThroughLoop : Fragment where
  name := "f"
  blocks := [
    ⟨⟨"entry"⟩, [.operate (.compute "make" [] [.virtual ⟨0, false⟩]),
      .operate (.copy ⟨.virtual ⟨1, false⟩, .virtual ⟨0, false⟩⟩),
      .operate (.compute "zero" [] [.virtual ⟨2, false⟩])], .ofList [1], ∅⟩,
    ⟨⟨"loop"⟩, [.operate (.compute "next" [.virtual ⟨2, false⟩] [.virtual ⟨2, false⟩])],
      .ofList [1, 2], .ofList [0, 1]⟩,
    ⟨⟨"exit"⟩, [.operate (.compute "use"
      [.virtual ⟨0, false⟩, .virtual ⟨1, false⟩, .virtual ⟨2, false⟩] [])], ∅, .ofList [1]⟩]

/-- A way round the loop once. -/
def roundLoop : List Position :=
  [⟨0, 0⟩, ⟨0, 1⟩, ⟨0, 2⟩, ⟨1, 0⟩, ⟨1, 0⟩]

theorem roundLoop_leads_out : List.IsChain keptThroughLoop.FlowsTo (roundLoop ++ [⟨2, 0⟩]) := by
  have henter : keptThroughLoop.FlowsTo ⟨0, 2⟩ ⟨1, 0⟩ := .edge rfl rfl (by decide) rfl
  have hagain : keptThroughLoop.FlowsTo ⟨1, 0⟩ ⟨1, 0⟩ := .edge rfl rfl (by decide) rfl
  have hleave : keptThroughLoop.FlowsTo ⟨1, 0⟩ ⟨2, 0⟩ := .edge rfl rfl (by decide) rfl
  exact .cons_cons (.next rfl) (.cons_cons (.next rfl)
    (.cons_cons henter (.cons_cons hagain (.cons_cons hleave (.singleton _)))))

/-- All three are live after the loop. Value and count interfere, since the count is
written in the loop, and value and copy may share a place. -/
theorem keptThroughLoop_interferes : ∃ x, Interaction.analyze keptThroughLoop [] [] = .ok x ∧
    (.virtual ⟨0, false⟩ ∈ keptThroughLoop.liveBefore ⟨2, 0⟩ ∧
      .virtual ⟨1, false⟩ ∈ keptThroughLoop.liveBefore ⟨2, 0⟩ ∧
      .virtual ⟨2, false⟩ ∈ keptThroughLoop.liveBefore ⟨2, 0⟩) ∧
    .virtual ⟨0, false⟩ ∈ x.interference.neighbors (.virtual ⟨2, false⟩) ∧
    .virtual ⟨1, false⟩ ∈ x.copying.neighbors (.virtual ⟨0, false⟩) := by
  obtain ⟨x, hx, hpaths⟩ := live_together_interfere_or_copied keptThroughLoop (by decide) [] []
  obtain rfl := (Interaction.analyze_eq_ok hx).2
  have hlive : .virtual ⟨0, false⟩ ∈ keptThroughLoop.liveBefore ⟨2, 0⟩ ∧
      .virtual ⟨1, false⟩ ∈ keptThroughLoop.liveBefore ⟨2, 0⟩ ∧
      .virtual ⟨2, false⟩ ∈ keptThroughLoop.liveBefore ⟨2, 0⟩ := by decide +kernel
  have hvalue : keptThroughLoop.WritesAt (.virtual ⟨0, false⟩) ⟨0, 0⟩ := ⟨_, rfl, by decide⟩
  have hcount : keptThroughLoop.WritesAt (.virtual ⟨2, false⟩) ⟨1, 0⟩ := ⟨_, rfl, by decide⟩
  have hapart := hpaths roundLoop ⟨2, 0⟩ roundLoop_leads_out (.virtual ⟨0, false⟩)
    (.virtual ⟨2, false⟩) (by decide) hlive.1 hlive.2.2 ⟨⟨1, 0⟩, by decide, .inr hcount⟩
  have hcopied := hpaths roundLoop ⟨2, 0⟩ roundLoop_leads_out (.virtual ⟨1, false⟩)
    (.virtual ⟨0, false⟩) (by decide) hlive.2.1 hlive.1 ⟨⟨0, 0⟩, by decide, .inr hvalue⟩
  refine ⟨_, hx, hlive, (hapart.resolve_right (by decide +kernel)).1, ?_⟩
  exact (hcopied.resolve_left (by decide +kernel)).resolve_right (by decide +kernel)

end Lowering
