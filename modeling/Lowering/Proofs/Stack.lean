import Lowering.FlowGraph
import Lowering.Proofs.Machine

/-!
# Machines with a stack

A machine whose rest includes a stack: loads and stores move values between
registers and the stack, and what other instructions do is again left to an
interpretation, which does not see the stack.
-/

namespace Lowering

universe u v w

variable {L : Type u} {Value : Type v} {Env : Type w}

/-- The contents of the stack by offset, and what there is beside. -/
structure Stack (Value : Type v) (Env : Type w) where
  memory : Int → Value
  rest : Env

/-- The stack after a value has been saved in a slot. -/
def Stack.store (e : Stack Value Env) (slot : FrameSlot) (value : Value) : Stack Value Env :=
  { e with memory := Function.update e.memory slot.offset value }

/-- Loads and stores move values from and to the stack, other instructions are
interpreted as given. -/
def withStack (interpret : Interpretation Value Env) : Interpretation Value (Stack Value Env) :=
  fun i values e =>
    match i.transfer? with
    | some (.load _ slot) => (fun _ => e.memory slot.offset, e)
    | some (.store slot _) =>
      (fun _ => e.memory slot.offset, e.store slot (values.headD (e.memory slot.offset)))
    | none =>
      let result := interpret i values e.rest
      (result.1, { e with rest := result.2 })

/-- What a move between a register and the stack does. -/
def transferTo [DecidableEq L] (name : Register → L) (t : Transfer)
    (s : MachineState L Value (Stack Value Env)) : MachineState L Value (Stack Value Env) :=
  match t with
  | .load r slot =>
    { s with registers := Function.update s.registers (name r) (s.env.memory slot.offset) }
  | .store slot r => { s with env := s.env.store slot (s.registers (name r)) }

/-- The code that a selection has for moves to and from the stack does what the
moves do and nothing else. -/
def Selection.TransfersExactly [DecidableEq L] {Tree : Type*} (selection : Selection Tree)
    (interpret : Interpretation Value Env) (name : Register → L) : Prop :=
  ∀ t s, executeAll (withStack interpret) name (selection.coverTransfer t) s =
    transferTo name t s

theorem execute_transfer [DecidableEq L] {interpret : Interpretation Value Env}
    {name : Register → L} (t : Transfer) (s : MachineState L Value (Stack Value Env)) :
    execute (withStack interpret) name (.operate (.transfer t)) s = transferTo name t s := by
  cases t <;> rfl

theorem Selection.sequential_transfersExactly [DecidableEq L]
    {interpret : Interpretation Value Env} {name : Register → L} :
    Selection.sequential.TransfersExactly interpret name :=
  execute_transfer

namespace Stack

variable {own : Int → Prop} {e e' : Stack Value Env} {interpret : Interpretation Value Env}
  {i : Instruction}

/-- Two stacks have the same contents at some offsets, and the same beside. -/
structure Agree (own : Int → Prop) (e e' : Stack Value Env) : Prop where
  memory : ∀ o, own o → e.memory o = e'.memory o
  rest : e.rest = e'.rest

/-- An instruction uses the stack at the given offsets only. -/
def Uses (own : Int → Prop) (i : Instruction) : Prop :=
  ∀ t, i.transfer? = some t → own t.slot.offset

theorem Uses.shape (h : Uses own i) : Uses own i.shape := by
  intro t ht
  cases i with
  | operate o =>
      cases o with
      | transfer t' =>
          obtain rfl : t'.map (fun _ => default) = t := Option.some.inj ht
          have hslot := h t' rfl
          cases t' <;> exact hslot
      | _ => simp [Instruction.shape, Instruction.map, Operation.map, Instruction.transfer?] at ht
  | _ => simp [Instruction.shape, Instruction.map, Instruction.transfer?] at ht

/-- On stacks that agree where it matters an instruction writes the same values,
and the stacks agree afterwards. -/
theorem Agree.withStack (h : Agree own e e') (hi : Uses own i) (values : List Value) :
    (Lowering.withStack interpret i values e).1 = (Lowering.withStack interpret i values e').1 ∧
      Agree own (Lowering.withStack interpret i values e).2
        (Lowering.withStack interpret i values e').2 := by
  unfold Lowering.withStack
  cases ht : i.transfer? with
  | none =>
      simp only [h.rest]
      exact ⟨trivial, ⟨h.memory, rfl⟩⟩
  | some t =>
      have hslot := h.memory t.slot.offset (hi t ht)
      cases t with
      | load r slot => exact ⟨funext fun _ => hslot, h⟩
      | store slot r =>
          refine ⟨funext fun _ => hslot, ⟨fun o ho => ?_, h.rest⟩⟩
          simp only [Transfer.slot] at hslot
          by_cases hoffset : o = slot.offset
          · simp [store, hoffset, hslot]
          · simpa [store, Function.update_of_ne hoffset] using h.memory o ho

theorem memory_withStack_of_not_own (hi : Uses own i) {o : Int} (ho : ¬ own o)
    (values : List Value) :
    (Lowering.withStack interpret i values e).2.memory o = e.memory o := by
  unfold Lowering.withStack
  cases ht : i.transfer? with
  | none => rfl
  | some t =>
      have hne : o ≠ t.slot.offset := fun h => ho (h ▸ hi t ht)
      cases t with
      | load r slot => rfl
      | store slot r => exact Function.update_of_ne hne _ _

end Stack

section Execution

variable [DecidableEq L] {interpret : Interpretation Value Env} {own : Int → Prop}
  {i : Instruction} {name : Register → L}

/-- Machines that give an instruction the same values to read have stacks that
agree afterwards if they do before. -/
theorem execute_agree {K : Type*} [DecidableEq K] {naming : Register → K}
    {s : MachineState K Value (Stack Value Env)} {t : MachineState L Value (Stack Value Env)}
    (hi : Stack.Uses own i) (hvalues : valuesRead naming i s = valuesRead name i t)
    (h : Stack.Agree own s.env t.env) :
    Stack.Agree own (execute (withStack interpret) naming i s).env
      (execute (withStack interpret) name i t).env := by
  cases hc : i.copy? with
  | some c => simpa [execute_of_copy hc] using h
  | none =>
      rw [execute_of_not_copy hc, execute_of_not_copy hc, hvalues]
      exact (h.withStack hi.shape _).2

theorem execute_memory_of_not_own (hi : Stack.Uses own i) {o : Int} (ho : ¬ own o)
    (t : MachineState L Value (Stack Value Env)) :
    (execute (withStack interpret) name i t).env.memory o = t.env.memory o := by
  cases hc : i.copy? with
  | some c => simp [execute_of_copy hc]
  | none =>
      rw [execute_of_not_copy hc]
      exact Stack.memory_withStack_of_not_own hi.shape ho _

end Execution

end Lowering
