import Lowering.Fragment
import Mathlib.Logic.Function.Basic

/-!
# Machines that run instructions

The meaning of instructions, for machines whose registers are named by any type.
A machine runs code under a naming of its registers: under `id` the machine has
one register for each register of the code, under a placement it has hardware
registers.

A copy moves a value. What any other instruction does is left to an
interpretation, which sees the values that the instruction reads, but not which
registers they come from.
-/

namespace Lowering

universe u v w

variable {L : Type u} {Value : Type v} {Env : Type w}

/-- The contents of the registers of a machine, and the rest of the machine. -/
structure MachineState (L : Type u) (Value : Type v) (Env : Type w) where
  registers : L → Value
  env : Env

/-- What instructions other than copies do. From the values read and the rest of
the machine come the values written, in the order of the registers written, and
the rest of the machine afterwards. -/
abbrev Interpretation (Value : Type v) (Env : Type w) :=
  Instruction → List Value → Env → (Nat → Value) × Env

namespace Instruction

/-- The instruction with its registers forgotten. -/
def shape (i : Instruction) : Instruction :=
  i.map fun _ => default

/-- If the instruction is a copy, then it reads the source and writes the target
and does nothing else. -/
def CopyIsPure (i : Instruction) : Prop :=
  ∀ c, i.copy? = some c → (∀ r, r ∈ i.reads ↔ r = c.source) ∧ ∀ r, r ∈ i.writes ↔ r = c.into

theorem copyIsPure_operate (o : Operation) : (Instruction.operate o).CopyIsPure := by
  intro c hc
  cases o with
  | copy d =>
      obtain rfl : d = c := Option.some.inj hc
      simp [reads, writes, Operation.reads, Operation.writes]
  | _ => simp [copy?, Operation.copy?] at hc

theorem CopyIsPure.map {i : Instruction} (h : i.CopyIsPure) (f : Register → Register) :
    (i.map f).CopyIsPure := by
  intro c hc
  rw [copy?_map] at hc
  obtain ⟨d, hd, rfl⟩ := Option.map_eq_some_iff.mp hc
  obtain ⟨hreads, hwrites⟩ := h d hd
  simp [Copy.map, hreads, hwrites, eq_comm]

theorem map_map (f g : Register → Register) (i : Instruction) :
    (i.map f).map g = i.map (g ∘ f) := by
  cases i with
  | operate o =>
      cases o with
      | transfer t => cases t <;> rfl
      | _ => simp [map, Operation.map, Copy.map]
  | fusedCopy c r w => simp [map, Copy.map]
  | _ => rfl

@[simp]
theorem shape_map (f : Register → Register) (i : Instruction) : (i.map f).shape = i.shape :=
  map_map f _ i

end Instruction

def Fragment.CopiesArePure (f : Fragment) : Prop :=
  ∀ i ∈ f.instructions, i.CopyIsPure

section Writing

variable [DecidableEq L]

/-- Gives each register of a list its value; a later write wins. -/
def writeAll : List L → (Nat → Value) → (L → Value) → L → Value
  | [], _, file => file
  | l :: targets, values, file =>
    writeAll targets (fun k => values (k + 1)) (Function.update file l (values 0))

theorem writeAll_of_not_mem
    {targets : List L} {values : Nat → Value} {file : L → Value} {l : L}
    (hl : ¬ l ∈ targets) : writeAll targets values file l = file l := by
  induction targets generalizing values file with
  | nil => rfl
  | cons m targets ih =>
      obtain ⟨hne, hl⟩ := not_or.mp (List.mem_cons.not.mp hl)
      rw [writeAll, ih hl, Function.update_of_ne hne]

/-- Writing under a naming puts the same value under the name of a register that
no other target shares. -/
theorem writeAll_map
    {K : Type*} [DecidableEq K] {name : K → L} {targets : List K} {values : Nat → Value}
    {file : K → Value} {named : L → Value} {k : K}
    (hk : k ∈ targets ∨ file k = named (name k))
    (hname : ∀ m ∈ targets, name m = name k → m = k) :
    writeAll targets values file k =
      writeAll (targets.map name) values named (name k) := by
  induction targets generalizing values file named with
  | nil => exact hk.resolve_left List.not_mem_nil
  | cons m targets ih =>
      refine ih ?_ fun x hx => hname x (List.mem_cons_of_mem _ hx)
      by_cases hm : m = k
      · subst hm
        simp
      · have hne : name k ≠ name m := fun h => hm (hname m List.mem_cons_self h.symm)
        rw [Function.update_of_ne (Ne.symm hm), Function.update_of_ne hne]
        exact hk.imp_left fun h => (List.mem_cons.mp h).resolve_left (Ne.symm hm)

end Writing

/-- The values that an instruction reads in a machine. -/
def valuesRead (name : Register → L) (i : Instruction) (s : MachineState L Value Env) :
    List Value :=
  i.reads.map fun r => s.registers (name r)

theorem valuesRead_map
    {name : Register → L} {i : Instruction} (f : Register → Register)
    (s : MachineState L Value Env) :
    valuesRead name (i.map f) s = valuesRead (name ∘ f) i s := by
  simp [valuesRead, Function.comp_def]

theorem valuesRead_eq
    {name : Register → L} {i : Instruction}
    {s : MachineState Register Value Env} {t : MachineState L Value Env}
    (hreads : ∀ r ∈ i.reads, s.registers r = t.registers (name r)) :
    valuesRead id i s = valuesRead name i t :=
  List.map_congr_left hreads

variable [DecidableEq L]

def execute
    (interpret : Interpretation Value Env) (name : Register → L) (i : Instruction)
    (s : MachineState L Value Env) : MachineState L Value Env :=
  match i.copy? with
  | some c =>
    { s with registers := Function.update s.registers (name c.into) (s.registers (name c.source)) }
  | none =>
    let result := interpret i.shape (valuesRead name i s) s.env
    { registers := writeAll (i.writes.map name) result.1 s.registers
      env := result.2 }

def executeAll
    (interpret : Interpretation Value Env) (name : Register → L) (code : List Instruction)
    (s : MachineState L Value Env) : MachineState L Value Env :=
  code.foldl (fun s i => execute interpret name i s) s

section Execution

variable {interpret : Interpretation Value Env} {name : Register → L} {i : Instruction}

@[simp]
theorem executeAll_nil (s : MachineState L Value Env) :
    executeAll interpret name [] s = s :=
  rfl

@[simp]
theorem executeAll_cons (code : List Instruction) (s : MachineState L Value Env) :
    executeAll interpret name (i :: code) s =
      executeAll interpret name code (execute interpret name i s) :=
  rfl

theorem executeAll_append (first second : List Instruction) (s : MachineState L Value Env) :
    executeAll interpret name (first ++ second) s =
      executeAll interpret name second (executeAll interpret name first s) :=
  List.foldl_append

/-- Renaming the registers of an instruction and naming them afterwards is one
naming. -/
theorem execute_map (f : Register → Register) (s : MachineState L Value Env) :
    execute interpret name (i.map f) s = execute interpret (name ∘ f) i s := by
  unfold execute
  rw [Instruction.copy?_map]
  cases i.copy? with
  | some c => rfl
  | none => simp [valuesRead_map]

theorem execute_of_copy
    {c : Copy} (hc : i.copy? = some c) (s : MachineState L Value Env) :
    execute interpret name i s =
      { s with
        registers := Function.update s.registers (name c.into) (s.registers (name c.source)) } := by
  simp [execute, hc]

theorem execute_of_not_copy (hc : i.copy? = none) (s : MachineState L Value Env) :
    execute interpret name i s =
      { registers := writeAll (i.writes.map name)
          (interpret i.shape (valuesRead name i s) s.env).1 s.registers
        env := (interpret i.shape (valuesRead name i s) s.env).2 } := by
  simp [execute, hc]

/-- Only the names of the registers that an instruction uses matter. -/
theorem execute_congr {naming : Register → L} (hpure : i.CopyIsPure)
    (hnames : ∀ r, r ∈ i.reads ∨ r ∈ i.writes → name r = naming r) :
    execute interpret name i = execute interpret naming i := by
  funext s
  cases hc : i.copy? with
  | some c =>
      have hsource := hnames c.source (.inl (((hpure c hc).1 _).mpr rfl))
      have hinto := hnames c.into (.inr (((hpure c hc).2 _).mpr rfl))
      rw [execute_of_copy hc, execute_of_copy hc, hsource, hinto]
  | none =>
      have hreads : valuesRead name i s = valuesRead naming i s :=
        List.map_congr_left fun r hr => by rw [hnames r (.inl hr)]
      have hwrites : i.writes.map name = i.writes.map naming :=
        List.map_congr_left fun r hr => hnames r (.inr hr)
      rw [execute_of_not_copy hc, execute_of_not_copy hc, hreads, hwrites]

/-- What an instruction does not write stays as it is. -/
theorem execute_registers_of_not_written
    (hpure : i.CopyIsPure) {l : L} (hl : ∀ r ∈ i.writes, name r ≠ l)
    (s : MachineState L Value Env) :
    (execute interpret name i s).registers l = s.registers l := by
  cases hc : i.copy? with
  | some c =>
      have hinto : c.into ∈ i.writes := ((hpure c hc).2 c.into).mpr rfl
      rw [execute_of_copy hc]
      exact Function.update_of_ne (Ne.symm (hl c.into hinto)) _ _
  | none =>
      rw [execute_of_not_copy hc]
      refine writeAll_of_not_mem fun hmem => ?_
      obtain ⟨r, hr, rfl⟩ := List.mem_map.mp hmem
      exact hl r hr rfl

/-- If two machines give an instruction the same values to read, and the
interpretation then gives the same values to write, then a register agrees with
its name afterwards if it did before or is written, unless the name is also that
of another register written. -/
theorem execute_registers_eq
    {s : MachineState Register Value Env} {t : MachineState L Value Env}
    (hpure : i.CopyIsPure)
    (hreads : ∀ r ∈ i.reads, s.registers r = t.registers (name r))
    (houtput : (interpret i.shape (valuesRead id i s) s.env).1 =
      (interpret i.shape (valuesRead name i t) t.env).1)
    {r : Register} (hr : r ∈ i.writes ∨ s.registers r = t.registers (name r))
    (hname : ∀ w ∈ i.writes, name w = name r → w = r) :
    (execute interpret id i s).registers r =
      (execute interpret name i t).registers (name r) := by
  cases hc : i.copy? with
  | some c =>
      obtain ⟨hsource, hinto⟩ := hpure c hc
      rw [execute_of_copy hc, execute_of_copy hc]
      by_cases hrinto : r = c.into
      · subst hrinto
        simpa using hreads c.source ((hsource c.source).mpr rfl)
      · have hne : name r ≠ name c.into := fun h =>
          hrinto (hname c.into ((hinto c.into).mpr rfl) h.symm).symm
        have hkeep : s.registers r = t.registers (name r) :=
          hr.resolve_left fun h => hrinto ((hinto r).mp h)
        simpa [Function.update_of_ne hrinto, Function.update_of_ne hne] using hkeep
  | none =>
      rw [execute_of_not_copy hc, execute_of_not_copy hc, houtput]
      simpa using writeAll_map hr hname

/-- Suppose that two registers share a name while one is written and the other
still needed only if they are target and source of a copy. Then an instruction
that finds the values it needs under the names leaves the values needed afterwards
under their names. -/
theorem execute_keeps_values
    {s : MachineState Register Value Env} {t : MachineState L Value Env}
    {needed after : Register → Prop} (hpure : i.CopyIsPure)
    (hneeded : ∀ r, needed r → s.registers r = t.registers (name r))
    (hreads : ∀ r ∈ i.reads, needed r)
    (hafter : ∀ r, after r → r ∈ i.writes ∨ needed r)
    (hapart : ∀ w ∈ i.writes, ∀ r, after r → r ≠ w → name w = name r → i.copy? = some ⟨w, r⟩)
    (houtput : (interpret i.shape (valuesRead id i s) s.env).1 =
      (interpret i.shape (valuesRead name i t) t.env).1)
    {r : Register} (hr : after r) :
    (execute interpret id i s).registers r =
      (execute interpret name i t).registers (name r) := by
  have hkeep : r ∈ i.writes ∨ s.registers r = t.registers (name r) :=
    (hafter r hr).imp_right (hneeded r)
  by_cases hshared : ∃ w ∈ i.writes, name w = name r ∧ w ≠ r
  · obtain ⟨w, hw, hname, hne⟩ := hshared
    have hcopy : i.copy? = some ⟨w, r⟩ := hapart w hw r hr hne.symm hname
    have hnot : ¬ r ∈ i.writes := fun hw => hne (((hpure _ hcopy).2 r).mp hw).symm
    rw [execute_of_copy hcopy, execute_of_copy hcopy]
    simpa [hname, Function.update_of_ne hne.symm] using hkeep.resolve_left hnot
  · have hname : ∀ w ∈ i.writes, name w = name r → w = r := by
      intro w hw hname
      by_contra hne
      exact hshared ⟨w, hw, hname, hne⟩
    exact execute_registers_eq hpure (fun r hr => hneeded r (hreads r hr)) houtput hkeep hname

/-- What an instruction does to the rest of the machine depends on the values that
it reads and on nothing else in the registers. -/
theorem execute_env_eq
    {K : Type*} [DecidableEq K] {naming : Register → K} {s : MachineState K Value Env}
    {t : MachineState L Value Env} (hvalues : valuesRead naming i s = valuesRead name i t)
    (henv : s.env = t.env) :
    (execute interpret naming i s).env = (execute interpret name i t).env := by
  cases hc : i.copy? with
  | some c => simpa [execute_of_copy hc] using henv
  | none => simp [execute_of_not_copy hc, hvalues, henv]

end Execution

end Lowering
