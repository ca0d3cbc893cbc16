import Lowering.Proofs.Interference
import Lowering.Proofs.LiveAhead
import Lowering.Proofs.Replacement

/-!
# Rewriting keeps registers apart

When the code in the place of an instruction treats some registers as the
instruction does, those registers are live at the same places as before and
hold the same copies. So they interfere with one another only if they did.
-/

namespace Lowering

/-- An instruction neither reads nor writes the registers that are kept. -/
def Instruction.Spares (kept : Register → Prop) (i : Instruction) : Prop :=
  ∀ r, kept r → ¬ r ∈ i.reads ∧ ¬ r ∈ i.writes

/-- An instruction treats the registers that are kept as another one does. -/
structure Instruction.Matches (kept : Register → Prop) (i j : Instruction) : Prop where
  reads : ∀ r, kept r → (r ∈ j.reads ↔ r ∈ i.reads)
  writes : ∀ r, kept r → (r ∈ j.writes ↔ r ∈ i.writes)
  copies : ∀ a b, kept a → kept b → i.copy? = some ⟨b, a⟩ → j.copy? = some ⟨b, a⟩

/-- Code that treats the registers that are kept as one instruction does: at most
one of its instructions uses them. -/
inductive Instruction.Rewrites (kept : Register → Prop) (i : Instruction) :
    List Instruction → Prop
  | dropped (h : i.Spares kept) : Rewrites kept i []
  | wrapped {front back : List Instruction} {j : Instruction}
      (hfront : ∀ k ∈ front, k.Spares kept) (hj : i.Matches kept j)
      (hback : ∀ k ∈ back, k.Spares kept) : Rewrites kept i (front ++ [j] ++ back)

namespace Instruction

variable {kept : Register → Prop} {i j : Instruction} {code : List Instruction} {r : Register}
  {m : Nat}

theorem not_spares_of_write (hr : kept r) (h : r ∈ i.writes) : ¬ i.Spares kept :=
  fun hspares => (hspares r hr).2 h

theorem Matches.spares_iff (h : i.Matches kept j) : j.Spares kept ↔ i.Spares kept :=
  forall₂_congr fun r hr => and_congr (not_congr (h.reads r hr)) (not_congr (h.writes r hr))

/-- The instruction that uses a register that is kept stands for the whole code, and
is the only one to do so. -/
theorem Rewrites.of_not_spares (h : i.Rewrites kept code) (hj : code[m]? = some j)
    (hused : ¬ j.Spares kept) :
    i.Matches kept j ∧ (∀ k ∈ code.drop (m + 1), k.Spares kept) ∧
      ∀ m' j', code[m']? = some j' → ¬ j'.Spares kept → m' = m := by
  cases h with
  | dropped h => simp at hj
  | @wrapped front back main hfront hmain hback =>
      have honly : ∀ {m' : Nat} {j' : Instruction},
          (front ++ [main] ++ back)[m']? = some j' → ¬ j'.Spares kept → m' = front.length := by
        intro m' j' hj' hused'
        rw [List.append_assoc] at hj'
        rcases Nat.lt_trichotomy m' front.length with hlt | heq | hgt
        · rw [List.getElem?_append_left hlt] at hj'
          exact absurd (hfront _ (List.mem_of_getElem? hj')) hused'
        · exact heq
        · have hpast : front.length + 1 ≤ m' := hgt
          rw [← List.append_assoc, List.getElem?_append_right (by simpa using hpast)] at hj'
          exact absurd (hback _ (List.mem_of_getElem? hj')) hused'
      obtain rfl := honly hj hused
      obtain rfl : main = j := by simpa using hj
      exact ⟨hmain, by simpa using hback, fun m' j' hj' hused' => honly hj' hused'⟩

/-- An instruction that uses a register that is kept leaves one that does. -/
theorem Rewrites.exists_not_spares (h : i.Rewrites kept code) (hused : ¬ i.Spares kept) :
    ∃ (m : Nat) (j : Instruction), code[m]? = some j ∧ ¬ j.Spares kept := by
  cases h with
  | dropped h => exact absurd h hused
  | @wrapped front back main hfront hmain hback =>
      exact ⟨front.length, main, by simp, fun h => hused (hmain.spares_iff.mp h)⟩

section LivesOn

variable {live : Nat → Prop} {successors : InsertionSet Nat} {rest : List Instruction}

theorem livesOn_append_of_spares (hcode : ∀ k ∈ code, k.Spares kept) (hr : kept r) :
    LivesOn live r (code ++ rest) successors ↔ LivesOn live r rest successors := by
  induction code with
  | nil => rfl
  | cons k code ih =>
      obtain ⟨hk, hcode⟩ := List.forall_mem_cons.mp hcode
      obtain ⟨hreads, hwrites⟩ := hk r hr
      rw [List.cons_append, livesOn_cons, ih hcode, or_iff_right hreads, and_iff_right hwrites]

theorem Rewrites.livesOn_append (h : i.Rewrites kept code) (hr : kept r) :
    LivesOn live r (code ++ rest) successors ↔ LivesOn live r (i :: rest) successors := by
  rw [livesOn_cons]
  cases h with
  | dropped h =>
      obtain ⟨hreads, hwrites⟩ := h r hr
      rw [List.nil_append, or_iff_right hreads, and_iff_right hwrites]
  | wrapped hfront hj hback =>
      rw [List.append_assoc, List.append_assoc, livesOn_append_of_spares hfront hr,
        List.singleton_append, livesOn_cons, livesOn_append_of_spares hback hr,
        hj.reads r hr, hj.writes r hr]

/-- A register that is kept lives on in the rewritten code as in the code. -/
theorem livesOn_flatMap {rewrite : Instruction → List Instruction}
    (h : ∀ i ∈ code, i.Rewrites kept (rewrite i)) (hr : kept r) :
    LivesOn live r (code.flatMap rewrite) successors ↔ LivesOn live r code successors := by
  induction code with
  | nil => rfl
  | cons i code ih =>
      obtain ⟨hi, hcode⟩ := List.forall_mem_cons.mp h
      rw [List.flatMap_cons, hi.livesOn_append hr, livesOn_cons, livesOn_cons, ih hcode]

end LivesOn

end Instruction

/-- Code in the place of each instruction that treats the registers that are kept as
the instruction does. -/
structure Fragment.Rewriting (f : Fragment) (kept : Register → Prop)
    (code : Instruction → List Instruction) : Prop where
  nonempty : ∀ b ∈ f.blocks, b.instructions ≠ []
  nonempty_replace : ∀ b ∈ (f.replace code).blocks, b.instructions ≠ []
  rewrites : ∀ i ∈ f.instructions, i.Rewrites kept (code i)

namespace Fragment.Rewriting

variable {f : Fragment} {kept : Register → Prop} {code : Instruction → List Instruction}
  {p q : Position} {b : Block} {i j : Instruction} {r : Register} {m : Nat}

theorem rewrites_at (h : f.Rewriting kept code) (hi : f.instructionAt? p = some i) :
    i.Rewrites kept (code i) :=
  h.rewrites i (mem_instructions_of_instructionAt? hi)

/-- Liveness before rewriting is closed under the blocks of the rewritten code. -/
theorem liveAt_of_livesOn_replace (h : f.Rewriting kept code) (hr : kept r) {d : Nat} {b' : Block}
    (hb' : (f.replace code).blocks[d]? = some b')
    (hlives : LivesOn (fun d => f.LiveAt r ⟨d, 0⟩) r b'.instructions b'.successors) :
    f.LiveAt r ⟨d, 0⟩ := by
  obtain ⟨b, hb, rfl⟩ := exists_block_of_replace hb'
  have hcode : ∀ i ∈ b.instructions, i.Rewrites kept (code i) := by
    intro i hi
    exact h.rewrites i (List.mem_flatMap.mpr ⟨b, List.mem_of_getElem? hb, hi⟩)
  apply liveAt_of_livesOn (p := ⟨d, 0⟩) h.nonempty hb
  exact (Instruction.livesOn_flatMap hcode hr).mp hlives

/-- A register that is kept and live after the instruction that stands for one was
live after that one. -/
theorem mem_liveAfter (h : f.Rewriting kept code) (hi : f.instructionAt? p = some i)
    (hj : (code i)[m]? = some j) (hused : ¬ j.Spares kept) (hr : kept r)
    (hlive : r ∈ (f.replace code).liveAfter (f.inside code p m)) : r ∈ f.liveAfter p := by
  obtain ⟨hmatches, hback, -⟩ := (h.rewrites_at hi).of_not_spares hj hused
  rcases liveAt_next_of_mem_liveAfter (instructionAt?_inside hi hj) hlive with hw | hnext
  · exact mem_liveAfter_of_write hi ((hmatches.writes r hr).mp hw)
  · obtain ⟨b, hb, hib⟩ := instructionAt?_eq_some.mp hi
    have hlives := hnext.livesOn h.nonempty_replace
      (fun d b' hb' => h.liveAt_of_livesOn_replace hr hb') (getElem?_blocks_replace hb)
    rw [drop_next_inside hb hib hj, Instruction.livesOn_append_of_spares hback hr,
      Instruction.livesOn_flatMap (fun i hi => h.rewrites i ?_) hr] at hlives
    · exact (liveAt_of_livesOn (p := p.next) h.nonempty hb hlives).mem_liveAfter hi
    · exact List.mem_flatMap.mpr ⟨b, List.mem_of_getElem? hb, List.mem_of_mem_drop hi⟩

/-- The instruction of the code that an instruction of the rewritten code stands for. -/
theorem exists_matches (h : f.Rewriting kept code) (hq : (f.replace code).instructionAt? q = some j)
    (hused : ¬ j.Spares kept) :
    ∃ p i m, f.instructionAt? p = some i ∧ (code i)[m]? = some j ∧ q = f.inside code p m ∧
      i.Matches kept j := by
  obtain ⟨p, i, m, hi, hj, rfl⟩ := exists_origin hq
  exact ⟨p, i, m, hi, hj, rfl, ((h.rewrites_at hi).of_not_spares hj hused).1⟩

/-- Registers that are kept are used only if they were. -/
theorem mem_registers (h : f.Rewriting kept code) (hr : kept r)
    (hmem : r ∈ Liveness.registers (f.replace code).points) :
    r ∈ Liveness.registers f.points := by
  obtain ⟨j, hj, hused⟩ := mem_registers_iff.mp hmem
  obtain ⟨q, hq⟩ := exists_position_of_mem hj
  have hspares : ¬ j.Spares kept := fun hspares => hused.elim (hspares r hr).1 (hspares r hr).2
  obtain ⟨p, i, m, hi, -, -, hmatches⟩ := h.exists_matches hq hspares
  rw [hmatches.reads r hr, hmatches.writes r hr] at hused
  exact mem_registers_iff.mpr ⟨i, mem_instructions_of_instructionAt? hi, hused⟩

end Fragment.Rewriting

namespace Interaction

variable {f : Fragment} {kept : Register → Prop} {code : Instruction → List Instruction}
  {preserved alwaysLive : List HardwareRegister} {a b r : Register}

/-- Registers that are kept hold the same copies. -/
theorem IsCopy.replace (h : f.Rewriting kept code) (ha : kept a) (hb : kept b)
    (hcopy : IsCopy f a b) : IsCopy (f.replace code) a b := by
  obtain ⟨hne, p, i, hlasting⟩ := hcopy
  have hrewrites := h.rewrites_at hlasting.here
  obtain ⟨m, j, hj, hused⟩ := hrewrites.exists_not_spares
    (Instruction.not_spares_of_write hb hlasting.writes)
  obtain ⟨hmatches, -, hunique⟩ := hrewrites.of_not_spares hj hused
  have hsame : ∀ {i' j' : Instruction} {m' : Nat}, f.instructionAt? p = some i' →
      (code i')[m']? = some j' → ¬ j'.Spares kept → m' = m := by
    intro i' j' m' hi' hj' hused'
    obtain rfl := Option.some.inj (hlasting.here.symm.trans hi')
    exact hunique m' j' hj' hused'
  refine ⟨hne, f.inside code p m, j, Fragment.instructionAt?_inside hlasting.here hj,
    hmatches.copies a b ha hb hlasting.copies, (hmatches.writes b hb).mpr hlasting.writes, ?_, ?_⟩
  · intro q j' hq hw
    have hused' := Instruction.not_spares_of_write hb hw
    obtain ⟨p', i', m', hi', hj', rfl, hmatches'⟩ := h.exists_matches hq hused'
    obtain rfl := hlasting.only p' i' hi' ((hmatches'.writes b hb).mp hw)
    rw [hsame hi' hj' hused']
  · intro q j' hq hw
    have hused' := Instruction.not_spares_of_write ha hw
    obtain ⟨p', i', m', hi', hj', rfl, hmatches'⟩ := h.exists_matches hq hused'
    rcases hlasting.kept p' i' hi' ((hmatches'.writes a ha).mp hw) with rfl | hdead
    · rw [hsame hi' hj' hused']
      exact .inl rfl
    · exact .inr fun hlive => hdead (h.mem_liveAfter hi' hj' hused' hb hlive)

theorem mem_registers_of_replace (h : f.Rewriting kept code) (hr : kept r)
    (hmem : r ∈ (ofFragment (f.replace code) preserved alwaysLive).registers) :
    r ∈ (ofFragment f preserved alwaysLive).registers := by
  rw [mem_registers_iff] at hmem ⊢
  exact hmem.imp_left (h.mem_registers hr)

/-- Registers that are kept are kept apart for the reason they were. -/
theorem Conflict.of_replace (h : f.Rewriting kept code) (ha : kept a) (hb : kept b)
    (hconflict : Conflict (f.replace code) preserved alwaysLive a b) :
    Conflict f preserved alwaysLive a b := by
  have hinto : ¬ IsCopy (f.replace code) a b → ¬ IsCopy f a b := mt (.replace h ha hb)
  have hfrom : ¬ IsCopy (f.replace code) b a → ¬ IsCopy f b a := mt (.replace h hb ha)
  cases hconflict with
  | write hq hlive hw hne hnot hnot' =>
      have hused := Instruction.not_spares_of_write hb hw
      obtain ⟨p, i, m, hi, hj, rfl, hmatches⟩ := h.exists_matches hq hused
      have hlive' := h.mem_liveAfter hi hj hused ha hlive
      exact .write hi hlive' ((hmatches.writes b hb).mp hw) hne (hinto hnot) (hfrom hnot')
  | reference hmem href hh => exact .reference (mem_registers_of_replace h ha hmem) href hh
  | alwaysLive hmem hh hne hnot hnot' =>
      exact .alwaysLive (mem_registers_of_replace h ha hmem) hh hne (hinto hnot) (hfrom hnot')

/-- Registers that are kept interfere in the rewritten code only if they did in the
code. -/
theorem mem_interference_of_replace (h : f.Rewriting kept code) (ha : kept a) (hb : kept b)
    (hmem : b ∈ (ofFragment (f.replace code) preserved alwaysLive).interference.neighbors a) :
    b ∈ (ofFragment f preserved alwaysLive).interference.neighbors a := by
  rw [mem_interference_iff] at hmem ⊢
  exact hmem.imp (.of_replace h ha hb) (.of_replace h hb ha)

end Interaction

end Lowering
