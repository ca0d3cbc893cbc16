import Lowering.Proofs.Interference

/-!
# Liveness is read off paths

Control goes from an instruction to the next one of its block, or from the last one
to the first one of a successor. A register is live before an instruction exactly if
some path leads from there to a read of it, and no instruction on the way writes it.
The sweeps that compute the live sets come to an end whatever the flow of control.
-/

namespace Lowering

namespace Fragment

variable {f : Fragment} {p q : Position} {b : Block} {i : Instruction} {r : Register}

/-- The instruction at a place reads a register. -/
def ReadsAt (f : Fragment) (r : Register) (p : Position) : Prop :=
  ∃ i, f.instructionAt? p = some i ∧ r ∈ i.reads

/-- The instruction at a place writes a register. -/
def WritesAt (f : Fragment) (r : Register) (p : Position) : Prop :=
  ∃ i, f.instructionAt? p = some i ∧ r ∈ i.writes

/-- Control may go directly from one instruction to another. -/
inductive FlowsTo (f : Fragment) : Position → Position → Prop
  | next {p : Position} {i : Instruction} (hnext : f.instructionAt? p.next = some i) :
      FlowsTo f p p.next
  | edge {p : Position} {b : Block} {d : Nat} {i : Instruction} (hb : f.blocks[p.block]? = some b)
      (hlast : p.index + 1 = b.instructions.length) (hd : d ∈ b.successors)
      (hfirst : f.instructionAt? ⟨d, 0⟩ = some i) : FlowsTo f p ⟨d, 0⟩

/-! ## Steps of the flow and successors -/

/-- The point to which control goes is a successor. -/
theorem FlowsTo.number_mem_following (h : f.FlowsTo p q) (hb : f.blocks[p.block]? = some b) :
    f.number q ∈ f.following p.block b p.index := by
  cases h with
  | next hnext =>
      rw [instructionAt?_of_block (p := p.next) hb] at hnext
      have hlt : p.index + 1 < b.instructions.length := (List.getElem?_eq_some_iff.mp hnext).1
      simp [following, hlt, number, Position.next, Nat.add_assoc]
  | @edge b' d _ hb' hlast hd hfirst =>
      obtain rfl : b' = b := Option.some.inj (hb'.symm.trans hb)
      obtain ⟨c, hc, -⟩ := instructionAt?_eq_some.mp hfirst
      have hexists : d < f.blocks.length := (List.getElem?_eq_some_iff.mp hc).1
      rw [following, if_neg (Nat.not_lt.mpr (Nat.le_of_eq hlast.symm))]
      exact List.mem_filterMap.mpr ⟨d, hd, by simp [ entry?, hexists, number]⟩

theorem FlowsTo.exists_instruction (h : f.FlowsTo p q) : ∃ i, f.instructionAt? q = some i := by
  cases h with
  | next hnext => exact ⟨_, hnext⟩
  | edge _ _ _ hfirst => exact ⟨_, hfirst⟩

/-- Control may go to every successor of a point. -/
theorem exists_flowsTo_of_mem_following (hblocks : ∀ b ∈ f.blocks, b.instructions ≠ [])
    (hb : f.blocks[p.block]? = some b) (hi : b.instructions[p.index]? = some i) {n : Nat}
    (hn : n ∈ f.following p.block b p.index) : ∃ q, f.FlowsTo p q ∧ n = f.number q := by
  rcases successor_cases hn with ⟨hlt, rfl⟩ | ⟨hend, d, hd, hexists, rfl⟩
  · have hnext : f.instructionAt? p.next = some b.instructions[p.index + 1] := by
      rw [instructionAt?_of_block (p := p.next) hb]
      exact List.getElem?_eq_getElem hlt
    exact ⟨p.next, .next hnext, rfl⟩
  · obtain ⟨j, hj⟩ := exists_first_instruction hblocks hexists
    have hlast : p.index + 1 = b.instructions.length :=
      Nat.le_antisymm (List.getElem?_eq_some_iff.mp hi).1 hend
    exact ⟨⟨d, 0⟩, .edge hb hlast hd hj, rfl⟩

theorem FlowsTo.mem_liveAfter (h : f.FlowsTo p q) (hi : f.instructionAt? p = some i)
    (hr : r ∈ f.liveBefore q) : r ∈ f.liveAfter p := by
  obtain ⟨b, hb, hib⟩ := instructionAt?_eq_some.mp hi
  exact Liveness.mem_after_of_successor (getElem?_points hb hib) (h.number_mem_following hb) hr

/-! ## Paths to a read -/

/-- A path along which control may go from a place to a read of a register, such that
no instruction before the last writes the register. -/
structure PathToRead (f : Fragment) (r : Register) (p : Position) (rest : List Position) :
    Prop where
  chain : List.IsChain f.FlowsTo (p :: rest)
  reads : f.ReadsAt r ((p :: rest).getLast (List.cons_ne_nil p rest))
  keeps : ∀ x ∈ (p :: rest).dropLast, ¬ f.WritesAt r x

theorem pathToRead_nil : f.PathToRead r p [] ↔ f.ReadsAt r p :=
  ⟨fun h => h.reads, fun h => ⟨.singleton p, h, fun _ hx => absurd hx List.not_mem_nil⟩⟩

theorem pathToRead_cons {rest : List Position} : f.PathToRead r p (q :: rest) ↔
    f.FlowsTo p q ∧ ¬ f.WritesAt r p ∧ f.PathToRead r q rest := by
  constructor
  · rintro ⟨hchain, hreads, hkeeps⟩
    obtain ⟨hflow, hchain⟩ := List.isChain_cons_cons.mp hchain
    rw [List.dropLast_cons_cons, List.forall_mem_cons] at hkeeps
    exact ⟨hflow, hkeeps.1, hchain, hreads, hkeeps.2⟩
  · rintro ⟨hflow, hw, hchain, hreads, hkeeps⟩
    refine ⟨List.isChain_cons_cons.mpr ⟨hflow, hchain⟩, hreads, ?_⟩
    rw [List.dropLast_cons_cons]
    exact List.forall_mem_cons.mpr ⟨hw, hkeeps⟩

/-- A path to a read keeps a register live from its start. -/
theorem PathToRead.mem_liveBefore {rest : List Position} (h : f.PathToRead r p rest)
    (hi : f.instructionAt? p = some i) : r ∈ f.liveBefore p := by
  induction rest generalizing p i with
  | nil =>
      obtain ⟨j, hj, hr⟩ := pathToRead_nil.mp h
      exact (liveAt_iff_of_instruction hj).mp (liveAt_of_read hj hr)
  | cons q rest ih =>
      obtain ⟨hflow, hw, hpath⟩ := pathToRead_cons.mp h
      obtain ⟨j, hj⟩ := hflow.exists_instruction
      have hafter : r ∈ f.liveAfter p := hflow.mem_liveAfter hi (ih hpath hj)
      exact (liveAt_iff_of_instruction hi).mp
        (liveAt_of_mem_liveAfter hi hafter fun hmem => hw ⟨i, hi, hmem⟩)

/-- Where a register is needed, a path leads to a read of it. -/
theorem exists_pathToRead_of_needed (hblocks : ∀ b ∈ f.blocks, b.instructions ≠ []) {n : Nat}
    (h : Liveness.Needed f.points r n) (hi : f.instructionAt? p = some i) (hn : n = f.number p) :
    ∃ rest, f.PathToRead r p rest := by
  induction h generalizing p i with
  | read hq hr =>
      subst hn
      obtain ⟨b, hb, hib⟩ := instructionAt?_eq_some.mp hi
      obtain rfl := Option.some.inj (hq.symm.trans (getElem?_points hb hib))
      exact ⟨[], pathToRead_nil.mpr ⟨i, hi, InsertionSet.mem_ofList.mp hr⟩⟩
  | pass hq hw hs _ ih =>
      subst hn
      obtain ⟨b, hb, hib⟩ := instructionAt?_eq_some.mp hi
      obtain rfl := Option.some.inj (hq.symm.trans (getElem?_points hb hib))
      obtain ⟨q, hflow, hnumber⟩ := exists_flowsTo_of_mem_following hblocks hb hib hs
      obtain ⟨j, hj⟩ := hflow.exists_instruction
      obtain ⟨rest, hpath⟩ := ih hj hnumber
      refine ⟨q :: rest, pathToRead_cons.mpr ⟨hflow, ?_, hpath⟩⟩
      rintro ⟨i', hi', hmem⟩
      obtain rfl := Option.some.inj (hi'.symm.trans hi)
      exact hw (InsertionSet.mem_ofList.mpr hmem)

theorem mem_liveBefore_iff_path (hblocks : ∀ b ∈ f.blocks, b.instructions ≠ [])
    (hi : f.instructionAt? p = some i) :
    r ∈ f.liveBefore p ↔ ∃ rest, f.PathToRead r p rest := by
  constructor
  · exact fun hr => exists_pathToRead_of_needed hblocks (Liveness.needed_of_mem_before hr) hi rfl
  · rintro ⟨rest, hpath⟩
    exact hpath.mem_liveBefore hi

theorem mem_liveAfter_iff (hblocks : ∀ b ∈ f.blocks, b.instructions ≠ [])
    (hi : f.instructionAt? p = some i) :
    r ∈ f.liveAfter p ↔ r ∈ i.writes ∨ ∃ q, f.FlowsTo p q ∧ r ∈ f.liveBefore q := by
  obtain ⟨b, hb, hib⟩ := instructionAt?_eq_some.mp hi
  have hpoint := getElem?_points hb hib
  constructor
  · intro hr
    obtain ⟨q, hq, hafter⟩ := Liveness.neededAfter_of_mem_after hr
    obtain rfl := Option.some.inj (hq.symm.trans hpoint)
    rcases hafter with hw | ⟨s, hs, hneeded⟩
    · exact .inl (InsertionSet.mem_ofList.mp hw)
    · obtain ⟨q, hflow, rfl⟩ := exists_flowsTo_of_mem_following hblocks hb hib hs
      exact .inr ⟨q, hflow, Liveness.mem_before_of_needed hneeded⟩
  · rintro (hw | ⟨q, hflow, hr⟩)
    · exact mem_liveAfter_of_write hi hw
    · exact hflow.mem_liveAfter hi hr

end Fragment

/-- The live sets of code without empty blocks are found by finitely many sweeps, after
which a sweep adds nothing. A register is live before an instruction exactly if a path
leads from there to a read of it without a write on the way. It is live after the
instruction exactly if the instruction writes it, or if it is live before one to which
control may go from there. -/
theorem solve_finds_path_liveness (f : Fragment) (hblocks : ∀ b ∈ f.blocks, b.instructions ≠ []) :
    ∃ code, f.flatten = .ok code ∧
      (∃ n ≤ 2 * code.length * (Liveness.registers code).size,
        Liveness.solve code = (Liveness.sweep code)^[n] (Liveness.seed code) ∧
        Liveness.sweep code (Liveness.solve code) = Liveness.solve code) ∧
      ∀ p i, f.instructionAt? p = some i →
        (∃ q, code[f.number p]? = some q ∧ q.block = p.block ∧ q.index = p.index) ∧
        ∀ r, (r ∈ Liveness.before (Liveness.solve code) (f.number p) ↔
            ∃ rest, f.PathToRead r p rest) ∧
          (r ∈ Liveness.after (Liveness.solve code) (f.number p) ↔ r ∈ i.writes ∨
            ∃ q, f.FlowsTo p q ∧ r ∈ Liveness.before (Liveness.solve code) (f.number q)) := by
  have hflatten : f.flatten = .ok f.points := by
    simp [Fragment.flatten, Interaction.checkBlocks_of_nonempty hblocks]
  refine ⟨f.points, hflatten, Liveness.exists_sweeps f.points, fun p i hi => ?_⟩
  refine ⟨?_, fun r => ⟨?_, ?_⟩⟩
  · obtain ⟨b, hb, hib⟩ := Fragment.instructionAt?_eq_some.mp hi
    exact ⟨_, Fragment.getElem?_points hb hib, rfl, rfl⟩
  · exact Fragment.mem_liveBefore_iff_path hblocks hi
  · exact Fragment.mem_liveAfter_iff hblocks hi

/-- A value that is used in a loop of one block, which makes another one for the
code after it. -/
def usedInLoop : Fragment where
  name := "f"
  blocks := [
    ⟨⟨"entry"⟩, [.operate (.compute "make" [] [.virtual ⟨0, false⟩])], .ofList [1], ∅⟩,
    ⟨⟨"loop"⟩, [.operate (.compute "next" [.virtual ⟨0, false⟩] [.virtual ⟨1, false⟩])],
      .ofList [1, 2], .ofList [0, 1]⟩,
    ⟨⟨"exit"⟩, [.operate (.compute "use" [.virtual ⟨1, false⟩] [])], ∅, .ofList [1]⟩]

/-- The way round the loop keeps the value live, but not before it is made. -/
theorem usedInLoop_live_round_loop : ∃ code, usedInLoop.flatten = .ok code ∧
    Liveness.sweep code (Liveness.solve code) = Liveness.solve code ∧
    (∃ q, usedInLoop.FlowsTo ⟨1, 0⟩ q ∧
      .virtual ⟨0, false⟩ ∈ Liveness.before (Liveness.solve code) (usedInLoop.number q)) ∧
    (∃ rest, usedInLoop.PathToRead (.virtual ⟨0, false⟩) ⟨1, 0⟩ rest) ∧
    ¬ ∃ rest, usedInLoop.PathToRead (.virtual ⟨0, false⟩) ⟨0, 0⟩ rest := by
  obtain ⟨code, hcode, ⟨n, -, -, hfixed⟩, hlive⟩ :=
    solve_finds_path_liveness usedInLoop (by decide)
  obtain rfl : usedInLoop.points = code := by
    have hpoints : usedInLoop.flatten = .ok usedInLoop.points := by decide +kernel
    exact Except.ok.inj (hpoints.symm.trans hcode)
  have hentry := ((hlive ⟨0, 0⟩ _ rfl).2 (.virtual ⟨0, false⟩)).1
  obtain ⟨hbefore, hafter⟩ := (hlive ⟨1, 0⟩ _ rfl).2 (.virtual ⟨0, false⟩)
  refine ⟨_, hcode, hfixed, ?_, hbefore.mp (by decide +kernel), ?_⟩
  · exact (hafter.mp (by decide +kernel)).resolve_left (by decide)
  · exact fun hpath => absurd (hentry.mpr hpath) (by decide +kernel)

end Lowering
