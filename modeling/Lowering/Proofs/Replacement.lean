import Lowering.Proofs.Flow

/-!
# Other code in the place of instructions

Replacing each instruction by other code keeps blocks and edges. A run of the
replaced code passes through the places where the code for one instruction ends
and that for the next begins.
-/

namespace Lowering

universe u

namespace Fragment

variable {State : Type u} {perform : Instruction → State → State} {f : Fragment}
  {p : Position} {b : Block} {i : Instruction} {code : Instruction → List Instruction}
  {choices : List Nat} {t : State}

/-- The blocks with other code in the place of each instruction. -/
def replace (code : Instruction → List Instruction) (f : Fragment) : Fragment :=
  { f with blocks := f.blocks.map fun b => { b with instructions := b.instructions.flatMap code } }

/-- The place in the replaced code where the code for the instruction at a place
begins. -/
def boundary (code : Instruction → List Instruction) (f : Fragment) (p : Position) : Position where
  block := p.block
  index := match f.blocks[p.block]? with
    | some b => ((b.instructions.take p.index).flatMap code).length
    | none => 0

theorem boundary_of_block (hb : f.blocks[p.block]? = some b) :
    f.boundary code p = ⟨p.block, ((b.instructions.take p.index).flatMap code).length⟩ := by
  simp [boundary, hb]

theorem boundary_start (d : Nat) : f.boundary code ⟨d, 0⟩ = ⟨d, 0⟩ := by
  cases hb : f.blocks[d]? with
  | none => simp [boundary, hb]
  | some b => simp [boundary, hb]

theorem getElem?_blocks_replace {k : Nat} (hb : f.blocks[k]? = some b) :
    (f.replace code).blocks[k]? = some { b with instructions := b.instructions.flatMap code } := by
  simp [replace, hb]

theorem exists_block_of_replace {k : Nat} {b' : Block}
    (hb' : (f.replace code).blocks[k]? = some b') :
    ∃ b, f.blocks[k]? = some b ∧ { b with instructions := b.instructions.flatMap code } = b' := by
  simpa [replace] using hb'

theorem mem_instructions_replace {j : Instruction} :
    j ∈ (f.replace code).instructions ↔ ∃ i ∈ f.instructions, j ∈ code i := by
  simp only [replace, instructions, List.flatMap_map, List.mem_flatMap]
  grind

/-- The place in the replaced code of an instruction of the code for the one at a
place. -/
def inside (code : Instruction → List Instruction) (f : Fragment) (p : Position) (m : Nat) :
    Position :=
  ⟨p.block, (f.boundary code p).index + m⟩

theorem instructionAt?_inside {m : Nat} {j : Instruction} (hi : f.instructionAt? p = some i)
    (hj : (code i)[m]? = some j) :
    (f.replace code).instructionAt? (f.inside code p m) = some j := by
  obtain ⟨b, hb, hib⟩ := instructionAt?_eq_some.mp hi
  rw [instructionAt?_of_block (p := f.inside code p m) (getElem?_blocks_replace hb), inside,
    boundary_of_block hb]
  exact getElem?_flatMap hib hj

/-- Every instruction of the replaced code belongs to the code for some instruction. -/
theorem exists_origin {q : Position} {j : Instruction}
    (hj : (f.replace code).instructionAt? q = some j) :
    ∃ p i m, f.instructionAt? p = some i ∧ (code i)[m]? = some j ∧ q = f.inside code p m := by
  obtain ⟨b', hb', hj⟩ := instructionAt?_eq_some.mp hj
  obtain ⟨b, hb, rfl⟩ := exists_block_of_replace hb'
  obtain ⟨k, m, i, hi, hj, hindex⟩ := exists_of_getElem?_flatMap hj
  refine ⟨⟨q.block, k⟩, i, m, instructionAt?_eq_some.mpr ⟨b, hb, hi⟩, hj, ?_⟩
  rw [inside, boundary_of_block (p := ⟨q.block, k⟩) hb, ← hindex]

/-- The code of a block is that before an instruction, that for the instruction, and
that after it. -/
theorem flatMap_eq_append (hi : b.instructions[p.index]? = some i) :
    b.instructions.flatMap code = (b.instructions.take p.index).flatMap code ++ code i ++
      (b.instructions.drop p.next.index).flatMap code := by
  obtain ⟨hlt, rfl⟩ := List.getElem?_eq_some_iff.mp hi
  calc b.instructions.flatMap code
      = (b.instructions.take p.next.index ++ b.instructions.drop p.next.index).flatMap code := by
        rw [List.take_append_drop]
    _ = _ := by
        rw [Position.next, ← List.take_append_getElem hlt, List.flatMap_append,
          List.flatMap_append, List.flatMap_singleton]

/-- What follows an instruction of the code for one: the rest of that code, and the
code for what follows. -/
theorem drop_next_inside {m : Nat} {j : Instruction} (hb : f.blocks[p.block]? = some b)
    (hi : b.instructions[p.index]? = some i) (hj : (code i)[m]? = some j) :
    (b.instructions.flatMap code).drop (f.inside code p m).next.index =
      (code i).drop (m + 1) ++ (b.instructions.drop p.next.index).flatMap code := by
  have hm : m + 1 ≤ (code i).length := (List.getElem?_eq_some_iff.mp hj).1
  rw [flatMap_eq_append hi, inside, boundary_of_block hb, Position.next, Nat.add_assoc,
    List.append_assoc, List.drop_append, List.drop_append]
  simp [Nat.sub_eq_zero_of_le hm]

/-- Performs a piece of a block. -/
theorem advances_piece {k : Nat} {front work rest : List Instruction}
    (hb : f.blocks[k]? = some b) (hsplit : b.instructions = front ++ work ++ rest) :
    f.advances perform work.length ⟨⟨k, front.length⟩, choices, t⟩ =
      some ⟨⟨k, (front ++ work).length⟩, choices,
        work.foldl (fun s i => perform i s) t⟩ := by
  induction work generalizing front t with
  | nil => simp [advances]
  | cons i work ih =>
      have hi : f.instructionAt? ⟨k, front.length⟩ = some i := by
        rw [instructionAt?_of_block (p := ⟨k, front.length⟩) hb, hsplit]
        simp
      have hsplit' : b.instructions = front ++ [i] ++ work ++ rest := by simp [hsplit]
      have hnext := ih (t := perform i t) hsplit'
      rw [List.length_cons, advances_succ,
        advance_of_instruction (c := ⟨⟨k, front.length⟩, choices, t⟩) hi]
      simpa [Position.next] using hnext

/-- Performs the code for an instruction. -/
theorem advances_replace (hi : f.instructionAt? p = some i) :
    (f.replace code).advances perform (code i).length ⟨f.boundary code p, choices, t⟩ =
      some ⟨f.boundary code p.next, choices, (code i).foldl (fun s i => perform i s) t⟩ := by
  obtain ⟨b, hb, hib⟩ := instructionAt?_eq_some.mp hi
  have hnext : (b.instructions.take p.next.index).flatMap code =
      (b.instructions.take p.index).flatMap code ++ code i := by
    obtain ⟨hlt, rfl⟩ := List.getElem?_eq_some_iff.mp hib
    rw [Position.next, ← List.take_append_getElem hlt, List.flatMap_append,
      List.flatMap_singleton]
  rw [boundary_of_block hb, boundary_of_block (p := p.next) hb, hnext]
  exact advances_piece (getElem?_blocks_replace hb) (flatMap_eq_append hib)

/-- Follows an edge. -/
theorem advance_replace_of_end {d : Nat} (hb : f.blocks[p.block]? = some b)
    (hend : b.instructions.length ≤ p.index) (hd : d ∈ b.successors) :
    (f.replace code).advance perform ⟨f.boundary code p, d :: choices, t⟩ =
      some ⟨f.boundary code ⟨d, 0⟩, choices, t⟩ := by
  rw [boundary_of_block hb, boundary_start]
  exact advance_of_end (c := ⟨⟨p.block, _⟩, d :: choices, t⟩) (getElem?_blocks_replace hb)
    (by simp [List.take_of_length_le hend]) rfl hd

end Fragment

end Lowering
