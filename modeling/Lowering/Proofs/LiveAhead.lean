import Lowering.Proofs.Flow

/-!
# Liveness by blocks

A register is live at a place if the rest of the block reads it before writing it,
or leaves it alone and it is live at the start of a successor. Liveness at the
starts of blocks is the least solution of these conditions, so whatever satisfies
them holds wherever a register is live.
-/

namespace Lowering

/-- Code reads a register before it writes it. -/
def ReadsFirst (r : Register) : List Instruction → Prop
  | [] => False
  | i :: rest => r ∈ i.reads ∨ ¬ r ∈ i.writes ∧ ReadsFirst r rest

theorem readsFirst_append {r : Register} {first second : List Instruction} :
    ReadsFirst r (first ++ second) ↔
      ReadsFirst r first ∨ (∀ i ∈ first, ¬ r ∈ i.writes) ∧ ReadsFirst r second := by
  induction first with
  | nil => simp [ReadsFirst]
  | cons i first ih =>
      simp only [List.cons_append, ReadsFirst, ih, List.forall_mem_cons]
      tauto

/-- From some code on, a register is read before it is written: in the code, or,
if that leaves it alone, from one of the blocks that may follow. -/
def LivesOn (live : Nat → Prop) (r : Register) (code : List Instruction)
    (successors : InsertionSet Nat) : Prop :=
  ReadsFirst r code ∨ (∀ i ∈ code, ¬ r ∈ i.writes) ∧ ∃ d ∈ successors, live d

section LivesOn

variable {live : Nat → Prop} {r : Register} {i : Instruction} {code : List Instruction}
  {successors : InsertionSet Nat}

theorem livesOn_nil : LivesOn live r [] successors ↔ ∃ d ∈ successors, live d := by
  simp [LivesOn, ReadsFirst]

theorem livesOn_cons : LivesOn live r (i :: code) successors ↔
    r ∈ i.reads ∨ ¬ r ∈ i.writes ∧ LivesOn live r code successors := by
  simp only [LivesOn, ReadsFirst, List.forall_mem_cons]
  tauto

end LivesOn

namespace Fragment

variable {f : Fragment} {p : Position} {b : Block} {r : Register} {live : Nat → Prop}

/-- The code from a place on starts with the instruction there. -/
theorem drop_eq_cons {i : Instruction} (hi : b.instructions[p.index]? = some i) :
    b.instructions.drop p.index = i :: b.instructions.drop p.next.index := by
  rw [List.drop_eq_getElem?_toList_append, hi]
  rfl

/-- Where a register is needed, it lives on with whatever is closed under blocks. -/
theorem livesOn_of_needed (hblocks : ∀ b ∈ f.blocks, b.instructions ≠ [])
    (hclosed : ∀ d b, f.blocks[d]? = some b → LivesOn live r b.instructions b.successors → live d)
    {n : Nat} (hneeded : Liveness.Needed f.points r n) {i : Instruction}
    (hb : f.blocks[p.block]? = some b) (hi : b.instructions[p.index]? = some i)
    (hn : n = f.number p) : LivesOn live r (b.instructions.drop p.index) b.successors := by
  induction hneeded generalizing p b i with
  | read hq hr =>
      subst hn
      obtain rfl := Option.some.inj (hq.symm.trans (getElem?_points hb hi))
      rw [drop_eq_cons hi, livesOn_cons]
      exact .inl (InsertionSet.mem_ofList.mp hr)
  | @pass n s q hq hw hs _ ih =>
      subst hn
      obtain rfl := Option.some.inj (hq.symm.trans (getElem?_points hb hi))
      have hkeeps : ¬ r ∈ i.writes := fun hmem => hw (InsertionSet.mem_ofList.mpr hmem)
      rw [drop_eq_cons hi, livesOn_cons]
      refine .inr ⟨hkeeps, ?_⟩
      rcases successor_cases hs with ⟨hlt, hnext⟩ | ⟨hend, d, hd, hexists, hnext⟩
      · exact ih (p := p.next) hb (List.getElem?_eq_getElem hlt) hnext
      · obtain ⟨i', hi'⟩ := exists_first_instruction hblocks hexists
        obtain ⟨b', hb', hib'⟩ := instructionAt?_eq_some.mp hi'
        have hfirst := ih hb' hib' hnext
        have hnil : b.instructions.drop p.next.index = [] := List.drop_eq_nil_of_le hend
        rw [hnil, livesOn_nil]
        exact ⟨d, hd, hclosed d b' hb' hfirst⟩

/-- The same at all places, ends of blocks included. -/
theorem LiveAt.livesOn (hblocks : ∀ b ∈ f.blocks, b.instructions ≠ [])
    (hclosed : ∀ d b, f.blocks[d]? = some b → LivesOn live r b.instructions b.successors → live d)
    (h : f.LiveAt r p) (hb : f.blocks[p.block]? = some b) :
    LivesOn live r (b.instructions.drop p.index) b.successors := by
  cases h with
  | here hi hr =>
      obtain ⟨b', hb', hib⟩ := instructionAt?_eq_some.mp hi
      obtain rfl := Option.some.inj (hb'.symm.trans hb)
      exact livesOn_of_needed hblocks hclosed (Liveness.needed_of_mem_before hr) hb hib rfl
  | @ahead b' d hb' hend hd hexists hr =>
      obtain rfl := Option.some.inj (hb'.symm.trans hb)
      obtain ⟨i, hi⟩ := exists_first_instruction hblocks hexists
      obtain ⟨c, hc, hic⟩ := instructionAt?_eq_some.mp hi
      have hfirst := livesOn_of_needed hblocks hclosed (Liveness.needed_of_mem_before hr) hc hic rfl
      rw [List.drop_eq_nil_of_le hend, livesOn_nil]
      exact ⟨d, hd, hclosed d c hc hfirst⟩

/-- Liveness itself is closed under blocks. -/
theorem liveAt_of_livesOn (hblocks : ∀ b ∈ f.blocks, b.instructions ≠ [])
    (hb : f.blocks[p.block]? = some b)
    (h : LivesOn (fun d => f.LiveAt r ⟨d, 0⟩) r (b.instructions.drop p.index) b.successors) :
    f.LiveAt r p := by
  generalize hcode : b.instructions.drop p.index = code at h
  induction code generalizing p with
  | nil =>
      obtain ⟨d, hd, hlive⟩ := livesOn_nil.mp h
      exact hlive.of_successor hblocks hb (List.drop_eq_nil_iff.mp hcode) hd
  | cons i code ih =>
      have hib : b.instructions[p.index]? = some i := by
        rw [← List.head?_drop, hcode, List.head?_cons]
      have hi : f.instructionAt? p = some i := instructionAt?_eq_some.mpr ⟨b, hb, hib⟩
      rcases livesOn_cons.mp h with hr | ⟨hw, h⟩
      · exact liveAt_of_read hi hr
      · have hrest := (List.cons.inj ((drop_eq_cons hib).symm.trans hcode)).2
        have hnext : f.LiveAt r p.next := ih hb hrest h
        exact liveAt_of_mem_liveAfter hi (hnext.mem_liveAfter hi) hw

end Fragment

end Lowering
