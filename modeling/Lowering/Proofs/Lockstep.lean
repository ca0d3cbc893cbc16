import Lowering.Proofs.Interference
import Lowering.Proofs.ValidAllocation

/-!
# Code in its places runs in lockstep with the code itself

An accepted allocation without spills lets two live registers share a place only
if one is a copy of the other. Running code on hardware registers under such an
allocation, the place of each live register holds the value of the register, at
every instruction of every run.
-/

namespace Lowering

universe v w

variable {Value : Type v} {Env : Type w} {interpret : Interpretation Value Env}

namespace Allocation

variable {a : Allocation} {x : Interaction} {allowed : List HardwareRegister} {f : Fragment}
  {p : Position} {i : Instruction} {s : MachineState Register Value Env}
  {t : MachineState HardwareRegister Value Env}

/-- The places of the registers in question hold their values. -/
def Holds (a : Allocation) (live : Register → Prop) (s : MachineState Register Value Env)
    (t : MachineState HardwareRegister Value Env) : Prop :=
  ∀ r, live r → ∃ h, a.place? r = some h ∧ s.registers r = t.registers h

theorem Holds.registers_eq {live : Register → Prop} (h : a.Holds live s t) {r : Register}
    (hr : live r) : s.registers r = t.registers (a.place r) := by
  obtain ⟨k, hk, heq⟩ := h r hr
  rw [place_eq hk, heq]

theorem Holds.valuesRead_eq (h : a.Holds (f.LiveAt · p) s t)
    (hi : f.instructionAt? p = some i) : valuesRead id i s = valuesRead a.place i t :=
  Lowering.valuesRead_eq fun _ hr => h.registers_eq (Fragment.liveAt_of_read hi hr)

/-- One instruction keeps the values of the live registers in their places. -/
theorem Holds.after_instruction {preserved alwaysLive : List HardwareRegister}
    (hvalid : a.Valid (Interaction.ofFragment f preserved alwaysLive) allowed)
    (hfree : a.isSpillFree = true) (hpure : f.CopiesArePure)
    (hi : f.instructionAt? p = some i) (h : a.Holds (f.LiveAt · p) s t)
    (henv : s.env = t.env) :
    a.Holds (· ∈ f.liveAfter p) (execute interpret id i s) (execute interpret a.place i t) := by
  have hplaced : ∀ r ∈ f.liveAfter p, ∃ k, a.place? r = some k := fun r hr =>
    hvalid.exists_place
      (Interaction.mem_registers_of_mem_points (Fragment.mem_registers_of_mem_liveAfter hr))
      (not_mem_spills_of_isSpillFree hfree r)
  have hafter : ∀ r ∈ f.liveAfter p, r ∈ i.writes ∨ f.LiveAt r p := by
    intro r hr
    by_cases hw : r ∈ i.writes
    · exact .inl hw
    · exact .inr (Fragment.liveAt_of_mem_liveAfter hi hr hw)
  have hapart : ∀ w ∈ i.writes, ∀ r ∈ f.liveAfter p, r ≠ w → a.place w = a.place r →
      i.copy? = some ⟨w, r⟩ := by
    intro w hw r hr hne hshared
    obtain ⟨k, hk⟩ := hplaced r hr
    obtain ⟨k', hk'⟩ := hplaced w (Fragment.mem_liveAfter_of_write hi hw)
    rw [place_eq hk, place_eq hk'] at hshared
    rcases Interaction.interferes_or_copies_at hpure hi hw hr hne with hinterferes | hcopy
    · exact absurd (hshared ▸ hk') (hvalid.apart r w k hinterferes hk)
    · exact hcopy
  intro r hr
  obtain ⟨k, hk⟩ := hplaced r hr
  refine ⟨k, hk, ?_⟩
  rw [← place_eq hk]
  refine execute_keeps_values (hpure i (Fragment.mem_instructions_of_instructionAt? hi))
    (fun r hr => h.registers_eq hr) (fun r hr => Fragment.liveAt_of_read hi hr) hafter hapart
    ?_ hr
  rw [h.valuesRead_eq hi, henv]

/-- Where two runs stand in lockstep: the live registers are in their places, and
the rest of the machine is the same. -/
def Aligned (a : Allocation) (f : Fragment) (p : Position) (s : MachineState Register Value Env)
    (t : MachineState HardwareRegister Value Env) : Prop :=
  a.Holds (f.LiveAt · p) s t ∧ s.env = t.env

theorem Aligned.next {preserved alwaysLive : List HardwareRegister}
    (hvalid : a.Valid (Interaction.ofFragment f preserved alwaysLive) allowed)
    (hfree : a.isSpillFree = true) (hpure : f.CopiesArePure)
    (hi : f.instructionAt? p = some i) (h : a.Aligned f p s t) :
    a.Aligned f p.next (execute interpret id i s) (execute interpret a.place i t) := by
  obtain ⟨h, henv⟩ := h
  constructor
  · intro r hr
    exact h.after_instruction hvalid hfree hpure hi henv r (hr.mem_liveAfter hi)
  · exact execute_env_eq (h.valuesRead_eq hi) henv

theorem Aligned.successor {b : Block} {d : Nat}
    (hblocks : ∀ b ∈ f.blocks, b.instructions ≠ []) (hb : f.blocks[p.block]? = some b)
    (hend : b.instructions.length ≤ p.index) (hd : d ∈ b.successors)
    (h : a.Aligned f p s t) : a.Aligned f ⟨d, 0⟩ s t :=
  ⟨fun r hr => h.1 r (hr.of_successor hblocks hb hend hd), h.2⟩

/-- A run on hardware registers takes the same steps as a run on the registers of
the code, and keeps the values of the live registers in their places. -/
theorem Holds.after_steps {preserved alwaysLive : List HardwareRegister}
    (hvalid : a.Valid (Interaction.ofFragment f preserved alwaysLive) allowed)
    (hfree : a.isSpillFree = true) (hpure : f.CopiesArePure)
    (hblocks : ∀ b ∈ f.blocks, b.instructions ≠ [])
    {n : Nat} {c c' : Fragment.Walk (MachineState Register Value Env)}
    (hrun : f.advances (execute interpret id) n c = some c')
    (h : a.Holds (f.LiveAt · c.position) c.state t) (henv : c.state.env = t.env) :
    ∃ t', f.advances (execute interpret a.place) n ⟨c.position, c.choices, t⟩ =
        some ⟨c'.position, c'.choices, t'⟩ ∧
      a.Holds (f.LiveAt · c'.position) c'.state t' ∧ c'.state.env = t'.env := by
  apply Fragment.advances_lockstep _ (a.Aligned f) _ _ hrun ⟨h, henv⟩
  · exact fun p i s t hi h => h.next hvalid hfree hpure hi
  · exact fun p b d s t hb hend hd h => h.successor hblocks hb hend hd

end Allocation

/-- Code without empty blocks, in which every copy is pure, can be analyzed; and
under every allocation without spills that is accepted for the result, a run on
hardware registers goes in lockstep with the run on the registers of the code. If
the places of the registers that are live where the run starts hold their values,
then so do those of the live registers at every instruction reached, and the
instruction reads the same values in both runs. -/
theorem accepted_allocation_keeps_live_values
    (f : Fragment) (hblocks : ∀ b ∈ f.blocks, b.instructions ≠ []) (hpure : f.CopiesArePure)
    (preserved alwaysLive : List HardwareRegister) (interpret : Interpretation Value Env) :
    ∃ x, Interaction.analyze f preserved alwaysLive = .ok x ∧
      ∀ (a : Allocation) (allowed : List HardwareRegister),
        a.isSpillFree = true → a.validate x allowed = .ok () →
      ∀ (c : Fragment.Walk (MachineState Register Value Env))
        (t : MachineState HardwareRegister Value Env) (first : Instruction),
        f.instructionAt? c.position = some first →
        a.Holds (· ∈ f.liveBefore c.position) c.state t → c.state.env = t.env →
      ∀ (n : Nat) (c' : Fragment.Walk (MachineState Register Value Env)),
        f.advances (execute interpret id) n c = some c' →
        ∃ t', f.advances (execute interpret a.place) n ⟨c.position, c.choices, t⟩ =
            some ⟨c'.position, c'.choices, t'⟩ ∧
          ∀ i, f.instructionAt? c'.position = some i →
            a.Holds (· ∈ f.liveBefore c'.position) c'.state t' ∧
            valuesRead id i c'.state = valuesRead a.place i t' := by
  refine ⟨_, Interaction.analyze_of_nonempty hblocks, ?_⟩
  intro a allowed hfree hvalidate c t first hfirst hstart henv n c' hrun
  have hvalid := Allocation.validate_eq_ok_iff.mp hvalidate
  have hlive : a.Holds (f.LiveAt · c.position) c.state t := fun r hr =>
    hstart r ((Fragment.liveAt_iff_of_instruction hfirst).mp hr)
  obtain ⟨t', hrun', hholds, -⟩ := hlive.after_steps hvalid hfree hpure hblocks hrun henv
  refine ⟨t', hrun', fun i hi => ⟨fun r hr => ?_, hholds.valuesRead_eq hi⟩⟩
  exact hholds r ((Fragment.liveAt_iff_of_instruction hi).mpr hr)

/-- A value and a copy of it, both used in the end. -/
def valueAndCopy : Fragment where
  name := "f"
  blocks := [.unlinked ⟨"entry"⟩
    [.operate (.compute "make" [] [.virtual ⟨0, false⟩]),
      .operate (.copy ⟨.virtual ⟨1, false⟩, .virtual ⟨0, false⟩⟩),
      .operate (.compute "use" [.virtual ⟨0, false⟩, .virtual ⟨1, false⟩] [])]]

/-- One place for the value and the copy. -/
def onePlace : Allocation where
  assigned := .ofList [(.virtual ⟨0, false⟩, .rax), (.virtual ⟨1, false⟩, .rax)]
  spills := ∅

theorem one_place_keeps_value_and_copy :
    ∃ c' t', valueAndCopy.advances (execute (fun _ _ (e : Unit) => (fun _ => 7, e)) id) 2
        ⟨⟨0, 0⟩, [], ⟨fun _ => 0, ()⟩⟩ = some c' ∧
      valueAndCopy.advances (execute (fun _ _ (e : Unit) => (fun _ => 7, e)) onePlace.place) 2
        ⟨⟨0, 0⟩, [], ⟨fun _ => 0, ()⟩⟩ = some ⟨c'.position, c'.choices, t'⟩ ∧
      ∃ i, valueAndCopy.instructionAt? c'.position = some i ∧
        onePlace.Holds (· ∈ valueAndCopy.liveBefore c'.position) c'.state t' ∧
        valuesRead id i c'.state = valuesRead onePlace.place i t' := by
  have hblocks : ∀ b ∈ valueAndCopy.blocks, b.instructions ≠ [] := by decide
  have hpure : valueAndCopy.CopiesArePure := by
    rintro i (_ | ⟨_, _ | ⟨_, _ | ⟨_, ⟨⟩⟩⟩⟩) <;> exact Instruction.copyIsPure_operate _
  obtain ⟨x, hx, hrun⟩ := accepted_allocation_keeps_live_values valueAndCopy hblocks hpure [] []
    (fun _ _ (e : Unit) => (fun _ => 7, e))
  have hvalid : onePlace.validate x [.rax] = .ok () := by
    have haccepted : ((Interaction.analyze valueAndCopy [] []).bind fun x =>
        onePlace.validate x [.rax]) = .ok () := by decide +kernel
    rwa [hx] at haccepted
  have hnone : (valueAndCopy.liveBefore ⟨0, 0⟩).toList = [] := by decide +kernel
  obtain ⟨t', hrun', hholds⟩ := hrun onePlace [.rax] (by decide) hvalid
    ⟨⟨0, 0⟩, [], ⟨fun _ => 0, ()⟩⟩ ⟨fun _ => 0, ()⟩ _ rfl
    (fun r hr => by simp [InsertionSet.mem_iff, hnone] at hr) rfl 2 _ rfl
  exact ⟨_, t', rfl, hrun', _, rfl, hholds _ rfl⟩

end Lowering
