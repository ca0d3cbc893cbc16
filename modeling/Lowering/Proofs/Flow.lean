import Lowering.Proofs.LiveSets
import Mathlib.Tactic.SplitIfs

/-!
# The flow of control through blocks

Places in code are pairs of a block and an index. Between two instructions of a
block control goes on to the next; at the end of a block it goes to one of the
successors, whichever is chosen. This module relates places to program points
and carries the live sets from points to places, the ends of blocks included.
-/

namespace Lowering

universe u

/-- A place in code: a block, and how many of its instructions are behind. -/
structure Position where
  block : Nat
  index : Nat
deriving DecidableEq

def Position.next (p : Position) : Position :=
  ⟨p.block, p.index + 1⟩

namespace Fragment

variable {f : Fragment} {p : Position} {b : Block} {i : Instruction} {r : Register}

def instructionAt? (f : Fragment) (p : Position) : Option Instruction :=
  f.blocks[p.block]?.bind fun b => b.instructions[p.index]?

/-- The number of the program point at a place. -/
def number (f : Fragment) (p : Position) : Nat :=
  f.offset p.block + p.index

theorem instructionAt?_eq_some :
    f.instructionAt? p = some i ↔
      ∃ b, f.blocks[p.block]? = some b ∧ b.instructions[p.index]? = some i := by
  simp [instructionAt?, Option.bind_eq_some_iff]

theorem instructionAt?_of_block (hb : f.blocks[p.block]? = some b) :
    f.instructionAt? p = b.instructions[p.index]? := by
  simp [instructionAt?, hb]

theorem mem_instructions_of_instructionAt? (hi : f.instructionAt? p = some i) :
    i ∈ f.instructions := by
  obtain ⟨b, hb, hi⟩ := instructionAt?_eq_some.mp hi
  exact List.mem_flatMap.mpr ⟨b, List.mem_of_getElem? hb, List.mem_of_getElem? hi⟩

theorem exists_position_of_mem (hi : i ∈ f.instructions) : ∃ p, f.instructionAt? p = some i := by
  obtain ⟨b, hb, hib⟩ := List.mem_flatMap.mp hi
  obtain ⟨k, hk⟩ := List.mem_iff_getElem?.mp hb
  obtain ⟨j, hj⟩ := List.mem_iff_getElem?.mp hib
  exact ⟨⟨k, j⟩, instructionAt?_eq_some.mpr ⟨b, hk, hj⟩⟩

theorem exists_first_instruction (hblocks : ∀ b ∈ f.blocks, b.instructions ≠ []) {d : Nat}
    (hd : d < f.blocks.length) : ∃ i, f.instructionAt? ⟨d, 0⟩ = some i := by
  have hb : f.blocks[d]? = some f.blocks[d] := List.getElem?_eq_getElem hd
  have hlt : 0 < f.blocks[d].instructions.length :=
    List.length_pos_of_ne_nil (hblocks _ (List.mem_of_getElem? hb))
  refine ⟨f.blocks[d].instructions[0], ?_⟩
  rw [instructionAt?_of_block (p := ⟨d, 0⟩) hb, List.getElem?_eq_getElem hlt]

/-! ## Points and places -/

theorem getElem?_flatMap {α β : Type*} {l : List α} {g : α → List β} {k j : Nat} {a : α}
    {c : β} (ha : l[k]? = some a) (hc : (g a)[j]? = some c) :
    (l.flatMap g)[((l.take k).flatMap g).length + j]? = some c := by
  induction l generalizing k with
  | nil => simp at ha
  | cons x l ih =>
      cases k with
      | zero =>
          obtain rfl : x = a := by simpa using ha
          have hj : j < (g x).length := (List.getElem?_eq_some_iff.mp hc).1
          simpa [List.getElem?_append_left hj] using hc
      | succ k =>
          have hrest := ih (k := k) (by simpa using ha)
          simpa [Nat.add_assoc, List.getElem?_append_right] using hrest

theorem exists_of_getElem?_flatMap {α β : Type*} {l : List α} {g : α → List β} {n : Nat} {c : β}
    (h : (l.flatMap g)[n]? = some c) :
    ∃ k j a, l[k]? = some a ∧ (g a)[j]? = some c ∧ n = ((l.take k).flatMap g).length + j := by
  induction l generalizing n with
  | nil => simp at h
  | cons x l ih =>
      rw [List.flatMap_cons] at h
      by_cases hn : n < (g x).length
      · rw [List.getElem?_append_left hn] at h
        exact ⟨0, n, x, rfl, h, by simp⟩
      · have hle := Nat.le_of_not_lt hn
        rw [List.getElem?_append_right hle] at h
        obtain ⟨k, j, a, ha, hc, hindex⟩ := ih h
        refine ⟨k + 1, j, a, ha, hc, ?_⟩
        rw [List.take_succ_cons, List.flatMap_cons, List.length_append]
        omega

theorem length_take_points (f : Fragment) (blocks : List Block) (start k : Nat) :
    (((blocks.zipIdx start).take k).flatMap fun b => f.blockPoints b.2 b.1).length =
      ((blocks.take k).flatMap Block.instructions).length := by
  induction blocks generalizing start k with
  | nil => simp
  | cons b blocks ih =>
      cases k with
      | zero => rfl
      | succ k =>
          simp only [List.zipIdx_cons, List.take_succ_cons, List.flatMap_cons,
            List.length_append, ih]
          simp [blockPoints]

/-- The point that an instruction of a block gives rise to. -/
def pointAt (f : Fragment) (p : Position) (b : Block) (i : Instruction) : Point where
  block := p.block
  index := p.index
  reads := .ofList i.reads
  writes := .ofList i.writes
  successors := f.following p.block b p.index
  copy? := i.copy?

theorem getElem?_points (hb : f.blocks[p.block]? = some b)
    (hi : b.instructions[p.index]? = some i) :
    f.points[f.number p]? = some (f.pointAt p b i) := by
  have hblock : f.blocks.zipIdx[p.block]? = some (b, p.block) := by
    simp [List.getElem?_zipIdx, hb]
  have hpoint : (f.blockPoints p.block b)[p.index]? = some (f.pointAt p b i) := by
    simp [blockPoints, List.getElem?_zipIdx, hi, pointAt]
  have h := getElem?_flatMap (g := fun b => f.blockPoints b.2 b.1) hblock hpoint
  rwa [length_take_points] at h

/-- Every point is that of a place. -/
theorem exists_position_of_point {q : Point} {n : Nat} (hq : f.points[n]? = some q) :
    ∃ p b i, f.blocks[p.block]? = some b ∧ b.instructions[p.index]? = some i ∧
      n = f.number p ∧ q = f.pointAt p b i := by
  obtain ⟨k, j, ⟨b, k'⟩, hzip, hq, rfl⟩ := exists_of_getElem?_flatMap hq
  obtain ⟨hb, rfl⟩ : f.blocks[k]? = some b ∧ k = k' := by
    simpa [List.getElem?_zipIdx] using hzip
  have hpoint : ∃ i, b.instructions[j]? = some i ∧ f.pointAt ⟨k, j⟩ b i = q := by
    simpa [blockPoints, List.getElem?_zipIdx, pointAt] using hq
  obtain ⟨i, hi, rfl⟩ := hpoint
  refine ⟨⟨k, j⟩, b, i, hb, hi, ?_, rfl⟩
  rw [length_take_points]
  rfl

/-- Different places have different numbers. -/
theorem number_injective {p' : Position} {i' : Instruction} (hi : f.instructionAt? p = some i)
    (hi' : f.instructionAt? p' = some i') (h : f.number p = f.number p') : p = p' := by
  obtain ⟨b, hb, hib⟩ := instructionAt?_eq_some.mp hi
  obtain ⟨b', hb', hib'⟩ := instructionAt?_eq_some.mp hi'
  have hpoint := getElem?_points hb hib
  rw [h, getElem?_points hb' hib'] at hpoint
  have hpoint := Option.some.inj hpoint
  have hblock : p'.block = p.block := congrArg Point.block hpoint
  have hindex : p'.index = p.index := congrArg Point.index hpoint
  exact (congrArg₂ Position.mk hblock hindex).symm

/-- After an instruction comes the next one of its block, or at the end of the block
the first one of a successor. -/
theorem successor_cases {s : Nat} (hs : s ∈ f.following p.block b p.index) :
    (p.index + 1 < b.instructions.length ∧ s = f.number p.next) ∨
      (b.instructions.length ≤ p.index + 1 ∧
        ∃ d ∈ b.successors, d < f.blocks.length ∧ s = f.number ⟨d, 0⟩) := by
  unfold following at hs
  split_ifs at hs with hlt
  · exact .inl ⟨hlt, List.mem_singleton.mp hs⟩
  · obtain ⟨d, hd, hs⟩ := List.mem_filterMap.mp hs
    unfold entry? at hs
    split_ifs at hs with hexists
    exact .inr ⟨Nat.not_lt.mp hlt, d, hd, hexists, (Option.some.inj hs).symm⟩

theorem mem_points {q : Point} (hq : q ∈ f.points) :
    ∃ i ∈ f.instructions, q.reads = .ofList i.reads ∧ q.writes = .ofList i.writes ∧
      q.copy? = i.copy? := by
  obtain ⟨⟨b, k⟩, hb, hq⟩ := List.mem_flatMap.mp hq
  obtain ⟨⟨i, j⟩, hi, rfl⟩ := List.mem_map.mp hq
  refine ⟨i, List.mem_flatMap.mpr ⟨b, ?_, ?_⟩, rfl, rfl, rfl⟩
  · exact List.mem_of_getElem? (List.mem_zipIdx_iff_getElem?.mp hb)
  · exact List.mem_of_getElem? (List.mem_zipIdx_iff_getElem?.mp hi)

/-- The registers of the points are those that the instructions use. -/
theorem mem_registers_iff :
    r ∈ Liveness.registers f.points ↔ ∃ i ∈ f.instructions, r ∈ i.reads ∨ r ∈ i.writes := by
  rw [Liveness.registers, InsertionSet.mem_ofList, List.mem_flatMap]
  constructor
  · rintro ⟨q, hq, hused⟩
    obtain ⟨i, hi, hreads, hwrites, -⟩ := mem_points hq
    rw [List.mem_append, ← InsertionSet.mem_iff, ← InsertionSet.mem_iff, hreads, hwrites,
      InsertionSet.mem_ofList, InsertionSet.mem_ofList] at hused
    exact ⟨i, hi, hused⟩
  · rintro ⟨i, hi, hused⟩
    obtain ⟨p, hp⟩ := exists_position_of_mem hi
    obtain ⟨b, hb, hib⟩ := instructionAt?_eq_some.mp hp
    refine ⟨_, List.mem_of_getElem? (getElem?_points hb hib), ?_⟩
    rw [List.mem_append, ← InsertionSet.mem_iff, ← InsertionSet.mem_iff]
    simpa [pointAt] using hused

/-! ## Live registers at a place -/

/-- The registers live before the point of a place. -/
abbrev liveBefore (f : Fragment) (p : Position) : InsertionSet Register :=
  Liveness.before (Liveness.solve f.points) (f.number p)

/-- The registers live after the point of a place. -/
abbrev liveAfter (f : Fragment) (p : Position) : InsertionSet Register :=
  Liveness.after (Liveness.solve f.points) (f.number p)

/-- A register is live at a place if it is live before the instruction there, or
at the end of a block if it is live at the start of a successor. -/
inductive LiveAt (f : Fragment) (r : Register) : Position → Prop
  | here {p : Position} {i : Instruction} (hi : f.instructionAt? p = some i)
      (hr : r ∈ f.liveBefore p) : LiveAt f r p
  | ahead {p : Position} {b : Block} {d : Nat} (hb : f.blocks[p.block]? = some b)
      (hend : b.instructions.length ≤ p.index) (hd : d ∈ b.successors)
      (hexists : d < f.blocks.length) (hr : r ∈ f.liveBefore ⟨d, 0⟩) : LiveAt f r p

theorem liveAt_iff_of_instruction (hi : f.instructionAt? p = some i) :
    f.LiveAt r p ↔ r ∈ f.liveBefore p := by
  constructor
  · intro h
    cases h with
    | here _ hr => exact hr
    | ahead hb hend _ _ _ =>
        rw [instructionAt?_of_block hb, List.getElem?_eq_none hend] at hi
        exact absurd hi (by simp)
  · exact LiveAt.here hi

theorem liveAt_of_read (hi : f.instructionAt? p = some i) (hr : r ∈ i.reads) :
    f.LiveAt r p := by
  obtain ⟨b, hb, hib⟩ := instructionAt?_eq_some.mp hi
  refine .here hi (Liveness.mem_before_of_read (getElem?_points hb hib) ?_)
  exact InsertionSet.mem_ofList.mpr hr

theorem mem_liveAfter_of_write (hi : f.instructionAt? p = some i) (hr : r ∈ i.writes) :
    r ∈ f.liveAfter p := by
  obtain ⟨b, hb, hib⟩ := instructionAt?_eq_some.mp hi
  refine Liveness.mem_after_of_write (getElem?_points hb hib) ?_
  exact InsertionSet.mem_ofList.mpr hr

theorem liveAt_of_mem_liveAfter (hi : f.instructionAt? p = some i) (hr : r ∈ f.liveAfter p)
    (hw : ¬ r ∈ i.writes) : f.LiveAt r p := by
  obtain ⟨b, hb, hib⟩ := instructionAt?_eq_some.mp hi
  refine .here hi (Liveness.mem_before_of_after (getElem?_points hb hib) hr fun h => hw ?_)
  exact InsertionSet.mem_ofList.mp h

/-- What is live at the next place is live after the instruction. -/
theorem LiveAt.mem_liveAfter (h : f.LiveAt r p.next) (hi : f.instructionAt? p = some i) :
    r ∈ f.liveAfter p := by
  obtain ⟨b, hb, hib⟩ := instructionAt?_eq_some.mp hi
  have hpoint := getElem?_points hb hib
  cases h with
  | here hnext hr =>
      have hlt : p.index + 1 < b.instructions.length := by
        rw [instructionAt?_of_block (p := p.next) hb] at hnext
        exact (List.getElem?_eq_some_iff.mp hnext).1
      refine Liveness.mem_after_of_successor hpoint (s := f.number p.next) ?_ hr
      simp [pointAt, following, hlt, number, Position.next, Nat.add_assoc]
  | @ahead b' d hb' hend hd hexists hr =>
      obtain rfl : b' = b := Option.some.inj (hb'.symm.trans hb)
      have hlt : ¬ p.index + 1 < b'.instructions.length := Nat.not_lt.mpr hend
      refine Liveness.mem_after_of_successor hpoint (s := f.number ⟨d, 0⟩) ?_ hr
      simp only [pointAt, following, if_neg hlt, List.mem_filterMap]
      exact ⟨d, hd, by simp [ entry?, hexists, number]⟩

/-- What is live after an instruction was written by it or is live at the next
place. -/
theorem liveAt_next_of_mem_liveAfter (hi : f.instructionAt? p = some i)
    (hr : r ∈ f.liveAfter p) : r ∈ i.writes ∨ f.LiveAt r p.next := by
  obtain ⟨b, hb, hib⟩ := instructionAt?_eq_some.mp hi
  obtain ⟨q, hq, hafter⟩ := Liveness.neededAfter_of_mem_after hr
  obtain rfl := Option.some.inj (hq.symm.trans (getElem?_points hb hib))
  rcases hafter with hw | ⟨s, hs, hneeded⟩
  · exact .inl (InsertionSet.mem_ofList.mp hw)
  · have hbefore := Liveness.mem_before_of_needed hneeded
    apply Or.inr
    rcases successor_cases hs with ⟨hlt, rfl⟩ | ⟨hend, d, hd, hexists, rfl⟩
    · have hnext : f.instructionAt? p.next = some b.instructions[p.index + 1] := by
        rw [instructionAt?_of_block (p := p.next) hb]
        exact List.getElem?_eq_getElem hlt
      exact .here hnext hbefore
    · exact .ahead (p := p.next) hb hend hd hexists hbefore

/-- What is live at the start of a successor is live at the end of the block. -/
theorem LiveAt.of_successor {d : Nat} (h : f.LiveAt r ⟨d, 0⟩)
    (hnonempty : ∀ b ∈ f.blocks, b.instructions ≠ [])
    (hb : f.blocks[p.block]? = some b) (hend : b.instructions.length ≤ p.index)
    (hd : d ∈ b.successors) : f.LiveAt r p := by
  cases h with
  | here hi hr =>
      obtain ⟨c, hc, -⟩ := instructionAt?_eq_some.mp hi
      exact .ahead hb hend hd (List.getElem?_eq_some_iff.mp hc).1 hr
  | ahead hc hempty _ _ _ =>
      have hnil := List.eq_nil_of_length_eq_zero (Nat.le_zero.mp hempty)
      exact absurd hnil (hnonempty _ (List.mem_of_getElem? hc))

/-- What is live after instructions that write nothing is live before them. -/
theorem LiveAt.of_silent {k : Nat} {front silent rest : List Instruction}
    (hb : f.blocks[k]? = some b) (hsplit : b.instructions = front ++ silent ++ rest)
    (hsilent : ∀ i ∈ silent, i.writes = []) (h : f.LiveAt r ⟨k, (front ++ silent).length⟩) :
    f.LiveAt r ⟨k, front.length⟩ := by
  induction silent generalizing front with
  | nil => simpa using h
  | cons i silent ih =>
      rw [List.forall_mem_cons] at hsilent
      have hi : f.instructionAt? ⟨k, front.length⟩ = some i := by
        rw [instructionAt?_of_block (p := ⟨k, front.length⟩) hb, hsplit]
        simp
      have hnext : f.LiveAt r ⟨k, (front ++ [i]).length⟩ :=
        ih (by simpa using hsplit) hsilent.2 (by simpa using h)
      have hnext : f.LiveAt r (Position.next ⟨k, front.length⟩) := by
        simpa [Position.next] using hnext
      exact liveAt_of_mem_liveAfter hi (hnext.mem_liveAfter hi) (by simp [hsilent.1])

theorem mem_registers_of_mem_liveAfter (hr : r ∈ f.liveAfter p) :
    r ∈ Liveness.registers f.points :=
  (Liveness.neededAfter_of_mem_after hr).mem_registers

theorem LiveAt.mem_registers (h : f.LiveAt r p) : r ∈ Liveness.registers f.points := by
  cases h with
  | here _ hr => exact (Liveness.needed_of_mem_before hr).mem_registers
  | ahead _ _ _ _ hr => exact (Liveness.needed_of_mem_before hr).mem_registers

/-! ## Runs -/

/-- A run in progress: where it is, the successors that it will choose, and the
state that the instructions have led to. -/
structure Walk (State : Type u) where
  position : Position
  choices : List Nat
  state : State

variable {State : Type u} {perform : Instruction → State → State} {c c' : Walk State}

/-- Performs the next instruction, or at the end of a block goes to the next
chosen successor. A run ends where neither is possible. -/
def advance (perform : Instruction → State → State) (f : Fragment) (c : Walk State) :
    Option (Walk State) :=
  match f.blocks[c.position.block]? with
  | none => none
  | some b =>
    match b.instructions[c.position.index]? with
    | some i => some ⟨c.position.next, c.choices, perform i c.state⟩
    | none =>
      match c.choices with
      | [] => none
      | d :: choices => if d ∈ b.successors then some ⟨⟨d, 0⟩, choices, c.state⟩ else none

def advances (perform : Instruction → State → State) (f : Fragment) :
    Nat → Walk State → Option (Walk State)
  | 0, c => some c
  | n + 1, c => (f.advance perform c).bind (f.advances perform n)

theorem advance_of_instruction (hi : f.instructionAt? c.position = some i) :
    f.advance perform c = some ⟨c.position.next, c.choices, perform i c.state⟩ := by
  obtain ⟨b, hb, hi⟩ := instructionAt?_eq_some.mp hi
  simp [advance, hb, hi]

theorem advance_of_end {d : Nat} {choices : List Nat}
    (hb : f.blocks[c.position.block]? = some b)
    (hend : b.instructions.length ≤ c.position.index)
    (hchoices : c.choices = d :: choices) (hd : d ∈ b.successors) :
    f.advance perform c = some ⟨⟨d, 0⟩, choices, c.state⟩ := by
  simp [advance, hb, List.getElem?_eq_none hend, hchoices, hd]

/-- A step performs an instruction or follows an edge. -/
theorem advance_cases (h : f.advance perform c = some c') :
    (∃ i, f.instructionAt? c.position = some i ∧
      c' = ⟨c.position.next, c.choices, perform i c.state⟩) ∨
    ∃ b d choices, f.blocks[c.position.block]? = some b ∧
      b.instructions.length ≤ c.position.index ∧ c.choices = d :: choices ∧
      d ∈ b.successors ∧ c' = ⟨⟨d, 0⟩, choices, c.state⟩ := by
  unfold advance at h
  split at h
  · simp at h
  · rename_i b hb
    split at h
    · rename_i i hi
      exact .inl ⟨i, instructionAt?_eq_some.mpr ⟨b, hb, hi⟩, (Option.some.inj h).symm⟩
    · rename_i hend
      split at h
      · simp at h
      · rename_i d choices hchoices
        split at h
        · rename_i hd
          exact .inr ⟨b, d, choices, hb, List.getElem?_eq_none_iff.mp hend, hchoices, hd,
            (Option.some.inj h).symm⟩
        · simp at h

theorem advances_succ (n : Nat) (c : Walk State) :
    f.advances perform (n + 1) c = (f.advance perform c).bind (f.advances perform n) :=
  rfl

theorem advances_add (m n : Nat) (c : Walk State) :
    f.advances perform (m + n) c = (f.advances perform m c).bind (f.advances perform n) := by
  induction m generalizing c with
  | zero => simp [advances]
  | succ m ih =>
      rw [Nat.succ_add, advances_succ, advances_succ]
      cases f.advance perform c with
      | none => rfl
      | some c' => exact ih c'

/-- Two runs of the same code go in lockstep, and what holds of their states at the
start of each instruction is what every instruction and every edge preserve. -/
theorem advances_lockstep {Other : Type*} (mimic : Instruction → Other → Other)
    (related : Position → State → Other → Prop) {n : Nat} {t : Other}
    (hinstruction : ∀ p i s t, f.instructionAt? p = some i → related p s t →
      related p.next (perform i s) (mimic i t))
    (hedge : ∀ p b d s t, f.blocks[p.block]? = some b → b.instructions.length ≤ p.index →
      d ∈ b.successors → related p s t → related ⟨d, 0⟩ s t)
    (hrun : f.advances perform n c = some c') (h : related c.position c.state t) :
    ∃ t', f.advances mimic n ⟨c.position, c.choices, t⟩ =
        some ⟨c'.position, c'.choices, t'⟩ ∧ related c'.position c'.state t' := by
  induction n generalizing c t with
  | zero =>
      obtain rfl := Option.some.inj hrun
      exact ⟨t, rfl, h⟩
  | succ n ih =>
      rw [advances_succ] at hrun
      obtain ⟨c₁, hstep, hrun⟩ := Option.bind_eq_some_iff.mp hrun
      rw [advances_succ]
      rcases advance_cases hstep with
        ⟨i, hi, rfl⟩ | ⟨b, d, choices, hb, hend, hchoices, hd, rfl⟩
      · rw [advance_of_instruction (c := ⟨c.position, c.choices, t⟩) hi]
        exact ih hrun (hinstruction _ i _ _ hi h)
      · rw [advance_of_end (c := ⟨c.position, c.choices, t⟩) hb hend hchoices hd]
        exact ih hrun (hedge _ b d _ _ hb hend hd h)

end Fragment

end Lowering
