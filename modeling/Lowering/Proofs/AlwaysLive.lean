import Lowering.Proofs.Lockstep

/-!
# Registers that are always live

A hardware register that is always live has to keep the contents that the code
gives it, also where no later instruction reads it. An accepted allocation ensures
that exactly if no instruction puts the value of another register there, copies
from the register to itself excepted.

The check of an allocation does not enforce this. A register that is copied into
the hardware register may be placed there, whatever else is written to it. Without
such copies every accepted allocation leaves the hardware register alone.
-/

namespace Lowering

universe v w

variable {Value : Type v} {Env : Type w} {interpret : Interpretation Value Env}

section Writing

variable {L : Type*} [DecidableEq L]

theorem writeAll_const {targets : List L} {value : Value} {file : L → Value} {l : L}
    (hl : l ∈ targets) : writeAll targets (fun _ => value) file l = value := by
  induction targets generalizing file with
  | nil => exact absurd hl List.not_mem_nil
  | cons m targets ih =>
      rw [writeAll]
      by_cases htail : l ∈ targets
      · exact ih htail
      · obtain rfl : l = m := (List.mem_cons.mp hl).resolve_right htail
        rw [writeAll_of_not_mem htail, Function.update_self]

end Writing

namespace Allocation

variable {a : Allocation} {allowed preserved alwaysLive : List HardwareRegister} {f : Fragment}
  {p : Position} {i : Instruction} {l : HardwareRegister}
  {s : MachineState Register Value Env} {t : MachineState HardwareRegister Value Env}

/-- An instruction puts nothing into a hardware register but the value of the fixed
register, or the value that is there already. -/
def LeavesAlone (a : Allocation) (l : HardwareRegister) (i : Instruction) : Prop :=
  ∀ w ∈ i.writes, a.place? w = some l →
    w = .fixed l ∨ ∃ q, i.copy? = some ⟨w, q⟩ ∧ a.place? q = some l

/-- In every run on hardware registers that goes in lockstep with a run on the
registers of the code, a hardware register has at every instruction the contents
that the code gives it. The runs start anywhere in the code, with the values of the
live registers and of the registers that are always live in their places. -/
def KeepsContents (Value : Type v) (Env : Type w) (a : Allocation) (f : Fragment)
    (alwaysLive : List HardwareRegister) (l : HardwareRegister) : Prop :=
  ∀ (interpret : Interpretation Value Env)
    (c : Fragment.Walk (MachineState Register Value Env))
    (t : MachineState HardwareRegister Value Env) (first : Instruction),
    f.instructionAt? c.position = some first →
    a.Holds (· ∈ f.liveBefore c.position) c.state t →
    (∀ k ∈ alwaysLive, c.state.registers (.fixed k) = t.registers k) →
    c.state.env = t.env →
    ∀ (n : Nat) (c' : Fragment.Walk (MachineState Register Value Env)),
      f.advances (execute interpret id) n c = some c' →
      ∃ t', f.advances (execute interpret a.place) n ⟨c.position, c.choices, t⟩ =
          some ⟨c'.position, c'.choices, t'⟩ ∧
        c'.state.registers (.fixed l) = t'.registers l

/-! ## Instructions that leave the register alone -/

theorem LeavesAlone.execute_eq (halone : a.LeavesAlone l i) (hpure : i.CopyIsPure)
    (hplaced : ∀ r ∈ i.writes, ∃ h, a.place? r = some h) (hl : a.place? (.fixed l) = some l)
    (hreads : ∀ r ∈ i.reads, s.registers r = t.registers (a.place r)) (henv : s.env = t.env)
    (hkept : s.registers (.fixed l) = t.registers l) :
    (execute interpret id i s).registers (.fixed l) =
      (execute interpret a.place i t).registers l := by
  by_cases hother : ∃ w ∈ i.writes, a.place? w = some l ∧ w ≠ .fixed l
  · obtain ⟨w, hw, hwl, hne⟩ := hother
    obtain ⟨q, hcopy, hq⟩ := (halone w hw hwl).resolve_left hne
    rw [execute_of_copy hcopy, execute_of_copy hcopy]
    simp only [id_eq, place_eq hwl, place_eq hq, Function.update_eq_self]
    rw [Function.update_of_ne hne.symm, hkept]
  · have hname : ∀ w ∈ i.writes, a.place w = a.place (.fixed l) → w = .fixed l := by
      intro w hw hshared
      obtain ⟨h, hh⟩ := hplaced w hw
      rw [place_eq hh, place_eq hl] at hshared
      by_contra hne
      exact hother ⟨w, hw, hshared ▸ hh, hne⟩
    have houtput : (interpret i.shape (valuesRead id i s) s.env).1 =
        (interpret i.shape (valuesRead a.place i t) t.env).1 := by
      rw [valuesRead_eq hreads, henv]
    have heq := execute_registers_eq hpure hreads houtput
      (.inr (by rw [place_eq hl, hkept])) hname
    rwa [place_eq hl] at heq

/-! ## Instructions that do not -/

/-- An instruction other than a copy can make the contents differ. -/
theorem exists_overwrite_of_not_copy [Nontrivial Value] [Nonempty Env] {w : Register}
    (hpure : i.CopyIsPure) (hcopy : i.copy? = none) (hw : w ∈ i.writes)
    (hwl : a.place? w = some l) (hfixed : ¬ .fixed l ∈ i.writes) :
    ∃ (interpret : Interpretation Value Env) (s : MachineState Register Value Env)
      (t : MachineState HardwareRegister Value Env),
      (∀ r h, a.place? r = some h → s.registers r = t.registers h) ∧ s.env = t.env ∧
      (execute interpret id i s).registers (.fixed l) ≠
        (execute interpret a.place i t).registers l := by
  obtain ⟨x, y, hxy⟩ := exists_pair_ne Value
  obtain ⟨e⟩ := ‹Nonempty Env›
  refine ⟨fun _ _ e => (fun _ => y, e), ⟨fun _ => x, e⟩, ⟨fun _ => x, e⟩, fun _ _ _ => rfl, rfl, ?_⟩
  have hplace : l ∈ i.writes.map a.place := List.mem_map.mpr ⟨w, hw, place_eq hwl⟩
  have hkept : ∀ r ∈ i.writes, id r ≠ .fixed l := by
    rintro r hr rfl
    exact hfixed hr
  rw [execute_registers_of_not_written hpure hkept, execute_of_not_copy hcopy]
  simpa only [writeAll_const hplace] using hxy

/-- So can a copy from another place. -/
theorem exists_overwrite_of_copy [Nontrivial Value] [Nonempty Env] {w q : Register}
    {h : HardwareRegister} (hcopy : i.copy? = some ⟨w, q⟩) (hwl : a.place? w = some l)
    (hq : a.place? q = some h) (hne : h ≠ l) (hfixed : w ≠ .fixed l)
    (hl : a.place? (.fixed l) = some l) :
    ∃ (interpret : Interpretation Value Env) (s : MachineState Register Value Env)
      (t : MachineState HardwareRegister Value Env),
      (∀ r h, a.place? r = some h → s.registers r = t.registers h) ∧ s.env = t.env ∧
      (execute interpret id i s).registers (.fixed l) ≠
        (execute interpret a.place i t).registers l := by
  obtain ⟨x, y, hxy⟩ := exists_pair_ne Value
  obtain ⟨e⟩ := ‹Nonempty Env›
  let file : HardwareRegister → Value := Function.update (fun _ => x) h y
  refine ⟨fun _ _ e => (fun _ => y, e), ⟨fun r => file (a.place r), e⟩, ⟨file, e⟩, ?_, rfl, ?_⟩
  · intro r k hk
    simp only [place_eq hk]
  · rw [execute_of_copy hcopy, execute_of_copy hcopy]
    simp only [id_eq, place_eq hwl, place_eq hq, Function.update_self]
    rw [Function.update_of_ne hfixed.symm, place_eq hl]
    simpa [file, Function.update_of_ne hne.symm] using hxy

/-- A register that is always live is its own place. -/
theorem Valid.place?_fixed
    (hvalid : a.Valid (Interaction.ofFragment f preserved alwaysLive) allowed)
    (hl : l ∈ alwaysLive) : a.place? (.fixed l) = some l := by
  have hmem : .fixed l ∈ (Interaction.ofFragment f preserved alwaysLive).registers :=
    Interaction.mem_registers_iff.mpr (.inr (.inr ⟨l, hl, rfl⟩))
  obtain ⟨k, hk⟩ := hvalid.exists_place hmem (hvalid.fixed_not_spilled _ hmem rfl)
  rw [hk, hvalid.fixed_kept l k hk]

theorem Valid.exists_place_of_used
    (hvalid : a.Valid (Interaction.ofFragment f preserved alwaysLive) allowed)
    (hfree : a.isSpillFree = true) (hi : i ∈ f.instructions) {r : Register}
    (hr : r ∈ i.reads ∨ r ∈ i.writes) : ∃ h, a.place? r = some h :=
  hvalid.exists_place
    (Interaction.mem_registers_of_mem_points (Fragment.mem_registers_iff.mpr ⟨i, hi, hr⟩))
    (not_mem_spills_of_isSpillFree hfree r)

variable (Value Env) in
/-- An instruction that does not leave the register alone can make its contents
differ, from states in which everything is in its place. -/
theorem exists_overwrite [Nontrivial Value] [Nonempty Env]
    (hvalid : a.Valid (Interaction.ofFragment f preserved alwaysLive) allowed)
    (hfree : a.isSpillFree = true) (hpure : f.CopiesArePure) (hl : l ∈ alwaysLive)
    (hi : f.instructionAt? p = some i) (hnot : ¬ a.LeavesAlone l i) :
    ∃ (interpret : Interpretation Value Env) (s : MachineState Register Value Env)
      (t : MachineState HardwareRegister Value Env),
      (∀ r h, a.place? r = some h → s.registers r = t.registers h) ∧ s.env = t.env ∧
      (execute interpret id i s).registers (.fixed l) ≠
        (execute interpret a.place i t).registers l := by
  have hmem := Fragment.mem_instructions_of_instructionAt? hi
  have hfixed := hvalid.place?_fixed hl
  rw [LeavesAlone] at hnot
  push Not at hnot
  obtain ⟨w, hw, hwl, hne, hcopies⟩ := hnot
  cases hcopy : i.copy? with
  | some c =>
      obtain ⟨hreads, hwrites⟩ := hpure i hmem c hcopy
      obtain rfl := (hwrites w).mp hw
      obtain ⟨h, hh⟩ := hvalid.exists_place_of_used hfree hmem (.inl ((hreads c.source).mpr rfl))
      have hother : h ≠ l := by
        rintro rfl
        exact hcopies c.source hcopy hh
      exact exists_overwrite_of_copy hcopy hwl hh hother hne hfixed
  | none =>
      apply exists_overwrite_of_not_copy (hpure i hmem) hcopy hw hwl
      intro hboth
      rcases Interaction.interferes_or_copies_at hpure hi hw
        (Fragment.mem_liveAfter_of_write hi hboth) hne.symm with hinterferes | hcopy'
      · exact hvalid.apart _ _ l hinterferes hfixed hwl
      · rw [hcopy] at hcopy'
        exact absurd hcopy' (by simp)

/-! ## Whole runs -/

theorem LeavesAlone.keepsContents
    (hvalid : a.Valid (Interaction.ofFragment f preserved alwaysLive) allowed)
    (hfree : a.isSpillFree = true) (hpure : f.CopiesArePure)
    (hblocks : ∀ b ∈ f.blocks, b.instructions ≠ []) (hl : l ∈ alwaysLive)
    (halone : ∀ i ∈ f.instructions, a.LeavesAlone l i) :
    a.KeepsContents Value Env f alwaysLive l := by
  intro interpret c t first hfirst hstart hlive henv n c' hrun
  have hholds : a.Holds (f.LiveAt · c.position) c.state t := fun r hr =>
    hstart r ((Fragment.liveAt_iff_of_instruction hfirst).mp hr)
  have hrun' := Fragment.advances_lockstep (execute interpret a.place)
    (fun p s t => a.Aligned f p s t ∧ s.registers (.fixed l) = t.registers l) ?_ ?_ hrun
    ⟨⟨hholds, henv⟩, hlive l hl⟩
  · obtain ⟨t', hrun', -, hkept⟩ := hrun'
    exact ⟨t', hrun', hkept⟩
  · rintro p i s t hi ⟨haligned, hkept⟩
    have hmem := Fragment.mem_instructions_of_instructionAt? hi
    refine ⟨haligned.next hvalid hfree hpure hi, ?_⟩
    apply (halone i hmem).execute_eq (hpure i hmem) _ (hvalid.place?_fixed hl) _ haligned.2 hkept
    · exact fun r hr => hvalid.exists_place_of_used hfree hmem (.inr hr)
    · exact fun r hr => haligned.1.registers_eq (Fragment.liveAt_of_read hi hr)
  · rintro p b d s t hb hend hd ⟨haligned, hkept⟩
    exact ⟨haligned.successor hblocks hb hend hd, hkept⟩

theorem KeepsContents.leavesAlone [Nontrivial Value] [Nonempty Env]
    (hvalid : a.Valid (Interaction.ofFragment f preserved alwaysLive) allowed)
    (hfree : a.isSpillFree = true) (hpure : f.CopiesArePure) (hl : l ∈ alwaysLive)
    (hkeeps : a.KeepsContents Value Env f alwaysLive l) (hi : f.instructionAt? p = some i) :
    a.LeavesAlone l i := by
  by_contra hnot
  obtain ⟨interpret, s, t, hplaces, henv, hdiffer⟩ :=
    exists_overwrite Value Env hvalid hfree hpure hl hi hnot
  have hstart : a.Holds (· ∈ f.liveBefore p) s t := by
    intro r hr
    have hmem : r ∈ (Interaction.ofFragment f preserved alwaysLive).registers :=
      Interaction.mem_registers_of_mem_points (Fragment.LiveAt.here hi hr).mem_registers
    obtain ⟨h, hh⟩ := hvalid.exists_place hmem (not_mem_spills_of_isSpillFree hfree r)
    exact ⟨h, hh, hplaces r h hh⟩
  have hstep : ∀ {L : Type} [DecidableEq L] (name : Register → L) (s : MachineState L Value Env),
      f.advances (execute interpret name) 1 ⟨p, [], s⟩ =
        some ⟨p.next, [], execute interpret name i s⟩ := by
    intro L _ name s
    rw [Fragment.advances_succ, Fragment.advance_of_instruction (c := ⟨p, [], s⟩) hi]
    rfl
  obtain ⟨t', hrun, hkept⟩ := hkeeps interpret ⟨p, [], s⟩ t i hi hstart
    (fun k hk => hplaces _ k (hvalid.place?_fixed hk)) henv 1 _ (hstep id s)
  rw [hstep a.place t] at hrun
  cases Option.some.inj hrun
  exact hdiffer hkept

/-- Where nothing else is copied into the register, it is left alone: a register
that shares its place is a copy of it. -/
theorem Valid.leavesAlone
    (hvalid : a.Valid (Interaction.ofFragment f preserved alwaysLive) allowed)
    (hl : l ∈ alwaysLive)
    (huncopied : ∀ i ∈ f.instructions, ∀ q, i.copy? = some ⟨.fixed l, q⟩ → q = .fixed l)
    (hi : f.instructionAt? p = some i) : a.LeavesAlone l i := by
  intro w hw hwl
  have hfixed := hvalid.place?_fixed hl
  by_contra hnot
  push Not at hnot
  obtain ⟨hne, hcopies⟩ := hnot
  have hmem : w ∈ (Interaction.ofFragment f preserved alwaysLive).registers :=
    Interaction.mem_registers_of_mem_points (Fragment.mem_registers_iff.mpr
      ⟨i, Fragment.mem_instructions_of_instructionAt? hi, .inr hw⟩)
  have hinto : ¬ Interaction.IsCopy f w (.fixed l) := by
    rintro ⟨-, p', i', hlasting⟩
    apply hne
    exact huncopied i' (Fragment.mem_instructions_of_instructionAt? hlasting.here) w
      hlasting.copies
  have hfrom : ¬ Interaction.IsCopy f (.fixed l) w := fun hcopy =>
    hcopies (.fixed l) (hcopy.copy?_of_write hi hw) hfixed
  apply hvalid.apart w (.fixed l) l _ hwl hfixed
  exact Interaction.mem_interference_iff.mpr (.inl (.alwaysLive hmem hl hne hinto hfrom))

end Allocation

/-- Under an accepted allocation without spills, a hardware register that is always
live keeps its contents in all runs exactly if every instruction leaves it alone.
That is so in particular if nothing is copied into it. -/
theorem alwaysLive_keeps_contents_iff
    (Value : Type v) (Env : Type w) [Nontrivial Value] [Nonempty Env]
    (f : Fragment) (hpure : f.CopiesArePure) (preserved alwaysLive : List HardwareRegister)
    (x : Interaction) (hx : Interaction.analyze f preserved alwaysLive = .ok x)
    (a : Allocation) (allowed : List HardwareRegister) (hfree : a.isSpillFree = true)
    (hvalidate : a.validate x allowed = .ok ()) (l : HardwareRegister) (hl : l ∈ alwaysLive) :
    (a.KeepsContents Value Env f alwaysLive l ↔ ∀ i ∈ f.instructions, a.LeavesAlone l i) ∧
    ((∀ i ∈ f.instructions, ∀ q, i.copy? = some ⟨.fixed l, q⟩ → q = .fixed l) →
      a.KeepsContents Value Env f alwaysLive l) := by
  obtain ⟨hblocks, rfl⟩ := Interaction.analyze_eq_ok hx
  have hvalid := Allocation.validate_eq_ok_iff.mp hvalidate
  have hkeeps : (∀ i ∈ f.instructions, a.LeavesAlone l i) →
      a.KeepsContents Value Env f alwaysLive l :=
    Allocation.LeavesAlone.keepsContents hvalid hfree hpure hblocks hl
  refine ⟨⟨fun h i hi => ?_, hkeeps⟩, fun huncopied => hkeeps fun i hi => ?_⟩
  · obtain ⟨p, hp⟩ := Fragment.exists_position_of_mem hi
    exact h.leavesAlone hvalid hfree hpure hl hp
  · obtain ⟨p, hp⟩ := Fragment.exists_position_of_mem hi
    exact hvalid.leavesAlone hl huncopied hp

/-- A value that is made twice, and between the two copied into a register that no
instruction reads. -/
def copiedAway : Fragment where
  name := "f"
  blocks := [.unlinked ⟨"b"⟩
    [.operate (.compute "make" [] [.virtual ⟨0, false⟩]),
      .operate (.copy ⟨.fixed .rbp, .virtual ⟨0, false⟩⟩),
      .operate (.compute "make" [] [.virtual ⟨0, false⟩]),
      .operate (.compute "use" [.virtual ⟨0, false⟩] [])]]

/-- The place of the value is the register into which it is copied. -/
def onTopOfCopy : Allocation where
  assigned := .ofList [(.virtual ⟨0, false⟩, .rbp), (.fixed .rbp, .rbp)]
  spills := ∅

/-- The place is accepted although the register is always live and loses its
contents. -/
theorem alwaysLive_loses_contents : ∃ x, Interaction.analyze copiedAway [] [.rbp] = .ok x ∧
    onTopOfCopy.isSpillFree = true ∧ onTopOfCopy.validate x [.rbp] = .ok () ∧
    ¬ onTopOfCopy.KeepsContents Bool Unit copiedAway [.rbp] .rbp := by
  have hpure : copiedAway.CopiesArePure := by
    rintro i (_ | ⟨_, _ | ⟨_, _ | ⟨_, _ | ⟨_, ⟨⟩⟩⟩⟩⟩) <;> exact Instruction.copyIsPure_operate _
  have hblocks : ∀ b ∈ copiedAway.blocks, b.instructions ≠ [] := by decide
  obtain ⟨x, hx⟩ : ∃ x, Interaction.analyze copiedAway [] [.rbp] = .ok x :=
    ⟨_, Interaction.analyze_of_nonempty hblocks⟩
  have hvalid : onTopOfCopy.validate x [.rbp] = .ok () := by
    have haccepted : ((Interaction.analyze copiedAway [] [.rbp]).bind fun x =>
        onTopOfCopy.validate x [.rbp]) = .ok () := by decide +kernel
    rwa [hx] at haccepted
  refine ⟨x, hx, by decide, hvalid, fun hkeeps => ?_⟩
  have halone := (alwaysLive_keeps_contents_iff Bool Unit copiedAway hpure [] [.rbp] x hx
    onTopOfCopy [.rbp] (by decide) hvalid .rbp (by decide)).1.mp hkeeps
  have hfirst := halone _ List.mem_cons_self (.virtual ⟨0, false⟩) (by decide) (by decide)
  rcases hfirst with heq | ⟨q, hcopy, -⟩
  · exact absurd heq (by decide)
  · exact absurd hcopy (by simp [Instruction.copy?, Operation.copy?])

end Lowering
