import Lowering.Proofs.Interference
import Lowering.Proofs.Replacement
import Lowering.Proofs.SlotSharing
import Lowering.Proofs.SpillCode
import Lowering.Spill

/-!
# Code with spills runs like the code itself

A run of code with spills passes through the places where the code for one
instruction ends and that for the next begins, and there the homes of the live
registers hold their values.
-/

namespace Lowering

universe u v w

namespace Spill

variable {Tree : Type u} {selection : Selection Tree}
  {slots : InsertionMap VirtualRegister FrameSlot} {backups : List HardwareRegister}
  {f f' : Fragment}

/-! ## The code of a fragment -/

/-- The code in the place of an instruction, where there is one. -/
def codeFor (selection : Selection Tree) (slots : InsertionMap VirtualRegister FrameSlot)
    (backups : List HardwareRegister) (i : Instruction) : List Instruction :=
  match expandInstruction selection slots backups i with
  | .ok code => code
  | .error _ => []

theorem mapM_eq_ok {α β : Type u} {ε : Type} {g : α → Except ε β} {value : α → β} {l : List α}
    {l' : List β} (hvalue : ∀ a b, g a = .ok b → b = value a) (h : l.mapM g = .ok l') :
    (∀ a ∈ l, g a = .ok (value a)) ∧ l' = l.map value := by
  induction l generalizing l' with
  | nil => exact ⟨fun _ ha => absurd ha List.not_mem_nil, (Except.ok.inj h).symm⟩
  | cons a l ih =>
      rw [List.mapM_cons] at h
      obtain ⟨b, hb, h⟩ := bind_eq_ok_iff.mp h
      obtain ⟨bs, hbs, h⟩ := bind_eq_ok_iff.mp h
      obtain ⟨hall, rfl⟩ := ih hbs
      obtain rfl := hvalue a b hb
      exact ⟨List.forall_mem_cons.mpr ⟨hb, hall⟩, (Except.ok.inj h).symm⟩

theorem codeFor_eq {i : Instruction} {code : List Instruction}
    (h : expandInstruction selection slots backups i = .ok code) :
    code = codeFor selection slots backups i := by
  simp [codeFor, h]

theorem expandBlock_eq_ok {b b' : Block} (h : expandBlock selection slots backups b = .ok b') :
    (∀ i ∈ b.instructions,
      expandInstruction selection slots backups i = .ok (codeFor selection slots backups i)) ∧
    b' = { b with instructions := b.instructions.flatMap (codeFor selection slots backups) } := by
  rw [expandBlock_eq_bind] at h
  obtain ⟨pieces, hpieces, h⟩ := bind_eq_ok_iff.mp h
  obtain ⟨hall, rfl⟩ := mapM_eq_ok (fun _ _ => codeFor_eq) hpieces
  exact ⟨hall, (Except.ok.inj h).symm⟩

theorem expandFragment_eq_ok (h : expandFragment selection slots backups f = .ok f') :
    (∀ i ∈ f.instructions,
      expandInstruction selection slots backups i = .ok (codeFor selection slots backups i)) ∧
    f' = f.replace (codeFor selection slots backups) := by
  obtain ⟨blocks, hblocks, h⟩ := bind_eq_ok_iff.mp h
  obtain ⟨hall, rfl⟩ := mapM_eq_ok (fun _ _ h => (expandBlock_eq_ok h).2) hblocks
  refine ⟨fun i hi => ?_, (Except.ok.inj h).symm⟩
  obtain ⟨b, hb, hi⟩ := List.mem_flatMap.mp hi
  exact (expandBlock_eq_ok (hall b hb)).1 i hi

theorem slot?_empty (r : Register) : slot? ∅ r = none := by
  simp [slot?]

/-- Code without spilled registers stays as it is. -/
theorem expandFragment_of_no_slots (hslots : ∀ r, slot? slots r = none) :
    expandFragment selection slots backups f = .ok f := by
  have huntouched : ∀ i, touchesSpill slots i = false := fun _ =>
    touchesSpill_eq_false_iff.mpr fun r _ => hslots r
  have hblock : expandBlock selection slots backups = fun b => pure b := by
    funext b
    simp [expandBlock, huntouched]
  rw [expandFragment, hblock, List.mapM_pure, pure_bind, List.map_id']
  rfl

/-! ## Moving registers to the stack -/

variable {frame : Frame} {x : Interaction} {a : Allocation} {out : SpilledCode}

theorem mem_spilledRegisters {v : VirtualRegister} :
    v ∈ spilledRegisters a ↔ .virtual v ∈ a.spills := by
  rw [spilledRegisters, InsertionSet.mem_ofList, List.mem_filterMap, InsertionSet.mem_iff]
  constructor
  · rintro ⟨r, hr, hv⟩
    cases r with
    | fixed h => simp [Register.virtual?] at hv
    | virtual w => exact (Option.some.inj hv) ▸ hr
  · exact fun hv => ⟨_, hv, rfl⟩

/-- An allocation is accepted for spill code exactly if no virtual register is
placed in a backup register, and no fixed one is spilled. -/
theorem checkAllocation_eq_ok_iff : checkAllocation a backups = .ok () ↔
    (∀ v h, a.place? (.virtual v) = some h → ¬ h ∈ backups) ∧
      ∀ h, ¬ .fixed h ∈ a.spills := by
  rw [checkAllocation, check_then_eq_ok_iff, rejectFirst_eq_ok_iff, rejectFirst_eq_ok_iff]
  refine and_congr ⟨fun h v k hk hmem => ?_, fun h e he => ?_⟩
    ⟨fun h k hk => ?_, fun h r hr => ?_⟩
  · have hfault := h (.virtual v, k) (InsertionMap.get?_eq_some_iff.mp hk)
    simp [backupFault?, Register.isFixed, Register.fixed?, hmem] at hfault
  · obtain ⟨r, k⟩ := e
    cases r with
    | fixed _ => simp [backupFault?, Register.isFixed, Register.fixed?]
    | virtual v => simp [backupFault?, h v k (InsertionMap.get?_eq_some_iff.mpr he)]
  · simpa [fixedFault?, Register.fixed?] using h _ hk
  · cases r with
    | fixed k => exact absurd hr (h k)
    | virtual v => rfl

/-- If the spilled registers have slots and no fixed one is spilled, then all spills
have slots. -/
theorem mem_spills_iff_slot? (hfixed : ∀ b, ¬ .fixed b ∈ a.spills)
    (hmem : ∀ v, v ∈ slots ↔ v ∈ spilledRegisters a) (r : Register) :
    r ∈ a.spills ↔ ∃ s, slot? slots r = some s := by
  cases r with
  | virtual v =>
      rw [← mem_spilledRegisters, ← hmem, InsertionMap.mem_iff_exists_get?]
      rfl
  | fixed b =>
      refine iff_of_false (hfixed b) ?_
      simp [slot?, Register.virtual?]

/-- If the spilled registers have been moved to the stack, then there were none, or
they have slots and the code is the spill code for these. -/
theorem moveToStack_cases {solver : Solver VirtualRegister Nat}
    (h : (moveToStack selection solver frame f x a backups).2 = .ok out) :
    checkAllocation a backups = .ok () ∧
      (((spilledRegisters a).isEmpty = true ∧ out = ⟨f, ∅⟩) ∨
        ∃ frame', assignSlots solver frame x (spilledRegisters a) = .ok (frame', out.slots) ∧
          expandFragment selection out.slots backups f = .ok out.code) := by
  unfold moveToStack at h
  split at h
  · simp at h
  next hcheck =>
  refine ⟨hcheck, ?_⟩
  dsimp only at h
  split_ifs at h with hempty
  · exact .inl ⟨hempty, (Except.ok.inj h).symm⟩
  · split at h
    · simp at h
    next frame' slots hassign =>
    split at h
    · simp at h
    next code hcode =>
    obtain rfl := Except.ok.inj h
    exact .inr ⟨frame', hassign, hcode⟩

/-- If the spilled registers have been moved to the stack, then these are the
registers that have slots, and the code is the spill code for these slots. -/
theorem moveToStack_expands {solver : Solver VirtualRegister Nat}
    (h : (moveToStack selection solver frame f x a backups).2 = .ok out) :
    (∀ r, r ∈ a.spills ↔ ∃ s, slot? out.slots r = some s) ∧
      expandFragment selection out.slots backups f = .ok out.code := by
  obtain ⟨hcheck, hmoved⟩ := moveToStack_cases h
  have hfor : (∀ v, v ∈ out.slots ↔ v ∈ spilledRegisters a) ∧
      expandFragment selection out.slots backups f = .ok out.code := by
    rcases hmoved with ⟨hempty, rfl⟩ | ⟨frame', hassign, hcode⟩
    · have hnone : SlotsFor x (spilledRegisters a) frame.offset ∅ := slotsFor_empty hempty
      exact ⟨hnone.mem_iff, expandFragment_of_no_slots slot?_empty⟩
    · exact ⟨mem_of_assignSlots hassign, hcode⟩
  exact ⟨mem_spills_iff_slot? (checkAllocation_eq_ok_iff.mp hcheck).2 hfor.1, hfor.2⟩

/-- With slots chosen by first fit, they also suit the interference of the
registers. -/
theorem moveToStack_eq_ok
    (h : (moveToStack selection Coloring.firstFit frame f x a backups).2 = .ok out) :
    (∀ r, r ∈ a.spills ↔ ∃ s, slot? out.slots r = some s) ∧
      SlotsFor x (spilledRegisters a) frame.offset out.slots ∧
      expandFragment selection out.slots backups f = .ok out.code := by
  obtain ⟨hspills, hexpand⟩ := moveToStack_expands h
  refine ⟨hspills, ?_, hexpand⟩
  obtain ⟨-, ⟨hempty, rfl⟩ | ⟨frame', hassign, -⟩⟩ := moveToStack_cases h
  · exact slotsFor_empty hempty
  · exact slotsFor_of_assignSlots hassign

theorem holdsReference_of_moveToStack {solver : Solver VirtualRegister Nat}
    (h : (moveToStack selection solver frame f x a backups).2 = .ok out) {v : VirtualRegister}
    {s : FrameSlot} (hs : out.slots.get? v = some s) : s.holdsReference = v.holdsReference := by
  obtain ⟨-, ⟨-, rfl⟩ | ⟨frame', hassign, -⟩⟩ := moveToStack_cases h
  · simp at hs
  · exact holdsReference_of_assignSlots hassign hs

/-! ## Runs -/

section Runs

variable {L : Type v} [DecidableEq L] {Value : Type w} {Env : Type*}
  {interpret : Interpretation Value Env} {name : Register → L}

omit [DecidableEq L] in
/-- The slots of spilled registers make safe homes, if names keep interfering
registers without slots apart, and keep the backup registers apart from all. -/
theorem homes_of_slotsFor {preserved alwaysLive : List HardwareRegister}
    {spilled : InsertionSet VirtualRegister} (hpure : f.CopiesArePure)
    (hinterference :
      x.interference = (Interaction.ofFragment f preserved alwaysLive).interference)
    (huses : ∀ i ∈ f.instructions, Stack.Uses frame.Owns i)
    (hslots : SlotsFor x spilled frame.offset slots) (hnodup : backups.Nodup)
    (hbackups : ∀ b ∈ backups, ∀ d ∈ backups, name (.fixed b) = name (.fixed d) → b = d)
    (hapart : ∀ r ∈ Liveness.registers f.points, slot? slots r = none →
      ∀ b ∈ backups, name r ≠ name (.fixed b))
    (hnames : ∀ r ∈ Liveness.registers f.points, ∀ w ∈ Liveness.registers f.points,
      slot? slots r = none → slot? slots w = none → w ∈ x.interference.neighbors r → r ≠ w →
      name w ≠ name r) :
    Homes f slots backups frame.Owns name := by
  have hvirtual : ∀ r s, slot? slots r = some s → ∃ v, r = .virtual v ∧ slots.get? v = some s := by
    intro r s hs
    cases r with
    | fixed h => simp [slot?, Register.virtual?] at hs
    | virtual v => exact ⟨v, rfl, hs⟩
  refine ⟨hpure, huses, ?_, ?_, hnodup, hbackups, hapart, ?_⟩
  · intro r s hs howns
    obtain ⟨v, -, hv⟩ := hvirtual r s hs
    have hbelow := hslots.fresh v s hv
    have habove := howns.offset_le
    omega
  · intro r q s t hs ht heq
    obtain ⟨v, -, hv⟩ := hvirtual r s hs
    obtain ⟨w, -, hw⟩ := hvirtual q t ht
    exact hslots.eq_of_offset v w s t hv hw heq
  · intro p i w r hi hw hr hne hhome
    have hcases : w ∈ x.interference.neighbors r ∨ i.copy? = some ⟨w, r⟩ := by
      rw [hinterference]
      exact Interaction.interferes_or_copies_at hpure hi hw hr hne
    refine hcases.resolve_left fun hinterferes => ?_
    cases hrs : slot? slots r with
    | none =>
        cases hws : slot? slots w with
        | none =>
            have hwr := Fragment.mem_registers_of_mem_liveAfter
              (Fragment.mem_liveAfter_of_write hi hw)
            refine hnames r (Fragment.mem_registers_of_mem_liveAfter hr) w hwr hrs hws
              hinterferes hne ?_
            simpa [home, hrs, hws] using hhome
        | some t => simp [home, hrs, hws] at hhome
    | some s =>
        cases hws : slot? slots w with
        | none => simp [home, hrs, hws] at hhome
        | some t =>
            obtain ⟨v, rfl, hv⟩ := hvirtual r s hrs
            obtain ⟨u, rfl, hu⟩ := hvirtual w t hws
            refine hslots.apart v u s t hinterferes hv hu ?_
            simpa [home, hrs, hws] using hhome.symm

/-- A run of the code with spills passes the places that correspond to those of a
run of the code itself, and there the homes of the live registers hold their
values. One step of the code is as many as its replacement has instructions. -/
theorem Simulates.after_steps {own : Int → Prop} (h : Homes f slots backups own name)
    (hexact : selection.TransfersExactly interpret name)
    (hblocks : ∀ b ∈ f.blocks, b.instructions ≠ [])
    (hcode : ∀ i ∈ f.instructions,
      expandInstruction selection slots backups i = .ok (codeFor selection slots backups i))
    {n : Nat} {c c' : Fragment.Walk (MachineState Register Value (Stack Value Env))}
    {t : MachineState L Value (Stack Value Env)}
    (hrun : f.advances (execute (withStack interpret) id) n c = some c')
    (hsim : Simulates slots own name (f.LiveAt · c.position) c.state t) :
    ∃ m t', (f.replace (codeFor selection slots backups)).advances
        (execute (withStack interpret) name) m
        ⟨f.boundary (codeFor selection slots backups) c.position, c.choices, t⟩ =
        some ⟨f.boundary (codeFor selection slots backups) c'.position, c'.choices, t'⟩ ∧
      Simulates slots own name (f.LiveAt · c'.position) c'.state t' := by
  induction n generalizing c t with
  | zero =>
      obtain rfl := Option.some.inj hrun
      exact ⟨0, t, rfl, hsim⟩
  | succ n ih =>
      rw [Fragment.advances_succ] at hrun
      obtain ⟨c₁, hstep, hrun⟩ := Option.bind_eq_some_iff.mp hrun
      rcases Fragment.advance_cases hstep with
        ⟨i, hi, rfl⟩ | ⟨b, d, choices, hb, hend, hchoices, hd, rfl⟩
      · have hmem := Fragment.mem_instructions_of_instructionAt? hi
        obtain ⟨m, t', hrest, hsim'⟩ := ih hrun (hsim.after_code h hexact hi (hcode i hmem))
        refine ⟨(codeFor selection slots backups i).length + m, t', ?_, hsim'⟩
        rw [Fragment.advances_add, Fragment.advances_replace hi]
        exact hrest
      · obtain ⟨m, t', hrest, hsim'⟩ := ih (t := t) hrun
          (hsim.mono fun r hr => hr.of_successor hblocks hb hend hd)
        refine ⟨m + 1, t', ?_, hsim'⟩
        rw [Fragment.advances_succ, hchoices, Fragment.advance_replace_of_end hb hend hd]
        exact hrest

/-- Live registers have their values where they belong: those that are spilled in
their slots, the others in their registers. -/
structure Keeps (spills : InsertionSet Register)
    (slots : InsertionMap VirtualRegister FrameSlot) (live : Register → Prop)
    (s t : MachineState Register Value (Stack Value Env)) : Prop where
  kept : ∀ r, live r → ¬ r ∈ spills → s.registers r = t.registers r
  spilled : ∀ r, live r → r ∈ spills →
    ∃ slot, slot? slots r = some slot ∧ s.registers r = t.env.memory slot.offset

theorem simulates_iff_keeps {spills : InsertionSet Register} {own : Int → Prop}
    {live : Register → Prop} {s t : MachineState Register Value (Stack Value Env)}
    (hspills : ∀ r, r ∈ spills ↔ ∃ slot, slot? slots r = some slot) :
    Simulates slots own id live s t ↔
      Keeps spills slots live s t ∧ Stack.Agree own s.env t.env := by
  constructor
  · intro h
    refine ⟨⟨fun r hr hkept => ?_, fun r hr hspilled => ?_⟩, h.stack⟩
    · have hnone : slot? slots r = none :=
        Option.eq_none_iff_forall_ne_some.mpr fun slot hslot =>
          hkept ((hspills r).mpr ⟨slot, hslot⟩)
      rw [h.values r hr, contents_home_of_no_slot id hnone, id]
    · obtain ⟨slot, hslot⟩ := (hspills r).mp hspilled
      exact ⟨slot, hslot, by rw [h.values r hr, contents_home_of_slot id hslot]⟩
  · rintro ⟨h, hstack⟩
    refine ⟨fun r hr => ?_, hstack⟩
    cases hslot : slot? slots r with
    | none =>
        rw [contents_home_of_no_slot id hslot]
        exact h.kept r hr fun hspilled => by simpa [hslot] using (hspills r).mp hspilled
    | some slot =>
        obtain ⟨slot', hslot', hvalue⟩ := h.spilled r hr ((hspills r).mpr ⟨slot, hslot⟩)
        rw [contents_home_of_slot id hslot', hvalue]

end Runs

end Spill

/-- Code without empty blocks, in which every copy is pure, can be analyzed. If its
spilled registers are then moved to the stack, for whatever allocation, by way of
backup registers that the code does not use and with a frame whose slots are the
only ones that the code uses, then the result is the code with other code in the
place of each instruction, and a run of it passes the places that correspond to
those of the run of the code itself with the same choices. If the live registers
have their values where they belong at the start, then so they have at every such
place. The code for an instruction is the instruction on other registers, which
reads the same values once the loads before it are done; or it is empty, and then
the instruction is a copy to a slot that already holds the value. -/
theorem moveToStack_keeps_live_values {Tree : Type u} {Value : Type v} {Env : Type w}
    (f : Fragment) (hblocks : ∀ b ∈ f.blocks, b.instructions ≠ []) (hpure : f.CopiesArePure)
    (preserved alwaysLive backups : List HardwareRegister) (hnodup : backups.Nodup)
    (hunused : ∀ b ∈ backups, ∀ i ∈ f.instructions,
      ¬ .fixed b ∈ i.reads ∧ ¬ .fixed b ∈ i.writes)
    (frame : Frame)
    (hslots : ∀ i ∈ f.instructions, ∀ t, i.transfer? = some t → t.slot ∈ frame.slots)
    (selection : Selection Tree) (interpret : Interpretation Value Env)
    (hexact : selection.TransfersExactly interpret (id : Register → Register)) :
    ∃ y, Interaction.analyze f preserved alwaysLive = .ok y ∧
      ∀ (x : Interaction) (a : Allocation) (out : SpilledCode),
        x = y ∨ x = y.withoutCopying →
        (Spill.moveToStack selection Coloring.firstFit frame f x a backups).2 = .ok out →
      ∃ code, out.code = f.replace code ∧
      ∀ (c : Fragment.Walk (MachineState Register Value (Stack Value Env)))
        (t : MachineState Register Value (Stack Value Env)),
        Spill.Keeps a.spills out.slots (f.LiveAt · c.position) c.state t →
        Stack.Agree frame.Owns c.state.env t.env →
      ∀ (n : Nat) (c' : Fragment.Walk (MachineState Register Value (Stack Value Env))),
        f.advances (execute (withStack interpret) id) n c = some c' →
        ∃ m t', out.code.advances (execute (withStack interpret) id) m
            ⟨f.boundary code c.position, c.choices, t⟩ =
            some ⟨f.boundary code c'.position, c'.choices, t'⟩ ∧
          Spill.Keeps a.spills out.slots (f.LiveAt · c'.position) c'.state t' ∧
          Stack.Agree frame.Owns c'.state.env t'.env ∧
          ∀ i, f.instructionAt? c'.position = some i →
            (∃ backup, code i = Spill.loads selection out.slots backup i ++ [i.map backup] ++
                Spill.stores selection out.slots backup i ∧
              valuesRead id i c'.state = valuesRead id (i.map backup) (executeAll
                (withStack interpret) id (Spill.loads selection out.slots backup i) t')) ∨
            (code i = [] ∧ ∃ copy slot, i.copy? = some copy ∧
              Spill.slot? out.slots copy.into = some slot ∧
              t'.env.memory slot.offset = c'.state.registers copy.source) := by
  refine ⟨_, Interaction.analyze_of_nonempty hblocks, fun x a out hx hok => ?_⟩
  obtain ⟨hspills, hfor, hexpand⟩ := Spill.moveToStack_eq_ok hok
  obtain ⟨hcode, hreplace⟩ := Spill.expandFragment_eq_ok hexpand
  have hinterference :
      x.interference = (Interaction.ofFragment f preserved alwaysLive).interference := by
    rcases hx with rfl | rfl <;> rfl
  have hapart : ∀ r ∈ Liveness.registers f.points, Spill.slot? out.slots r = none →
      ∀ b ∈ backups, r ≠ .fixed b := by
    intro r hr _ b hb heq
    obtain ⟨i, hi, hused⟩ := Fragment.mem_registers_iff.mp hr
    have hnot := hunused b hb i hi
    rw [heq] at hused
    exact hused.elim hnot.1 hnot.2
  have hhomes : Spill.Homes f out.slots backups frame.Owns id :=
    Spill.homes_of_slotsFor hpure hinterference
      (fun i hi t ht => ⟨_, hslots i hi t ht, rfl⟩) hfor hnodup
      (fun _ _ _ _ heq => Register.fixed.inj heq) hapart
      (fun r _ w _ _ _ _ hne heq => hne heq.symm)
  refine ⟨Spill.codeFor selection out.slots backups, hreplace, ?_⟩
  intro c t hstart hstack n c' hrun
  have hsim := (Spill.simulates_iff_keeps hspills).mpr ⟨hstart, hstack⟩
  obtain ⟨m, t', hrun', hsim'⟩ := hsim.after_steps hhomes hexact hblocks hcode hrun
  obtain ⟨hkeeps, hstack'⟩ := (Spill.simulates_iff_keeps hspills).mp hsim'
  refine ⟨m, t', hreplace ▸ hrun', hkeeps, hstack', fun i hi => ?_⟩
  have hmem := Fragment.mem_instructions_of_instructionAt? hi
  rcases Spill.expandInstruction_cases (hpure i hmem) hnodup (hcode i hmem) with
    ⟨hredundant, hempty⟩ | ⟨-, backup, hsub, hcode⟩
  · obtain ⟨copy, slot, hcopy, hinto, hsource⟩ := Spill.isRedundant_eq_true.mp hredundant
    have hread : copy.source ∈ i.reads := ((hpure i hmem copy hcopy).1 _).mpr rfl
    have hvalue := hsim'.values copy.source (Fragment.liveAt_of_read hi hread)
    rw [Spill.contents_home_of_slot id hsource] at hvalue
    exact .inr ⟨hempty, copy, slot, hcopy, hinto, hvalue.symm⟩
  · refine .inl ⟨backup, hcode, ?_⟩
    rw [valuesRead_map]
    exact valuesRead_eq fun r hr => hsim'.after_loads hhomes hexact hsub hi (.inr hr)

/-- Two values and a copy of the first. The second one fills a slot before it is used. -/
def twoValuesAndCopy : Fragment where
  name := "f"
  blocks := [.unlinked ⟨"entry"⟩
    [.operate (.compute "make" [] [.virtual ⟨0, false⟩]),
      .operate (.compute "make" [] [.virtual ⟨1, false⟩]),
      .operate (.copy ⟨.virtual ⟨2, false⟩, .virtual ⟨0, false⟩⟩),
      .operate (.transfer (.store ⟨-8, false⟩ (.virtual ⟨1, false⟩))),
      .operate (.compute "use" [.virtual ⟨2, false⟩, .virtual ⟨1, false⟩] [])]]

/-- Nothing has a place. -/
def allSpilled : Allocation where
  assigned := ∅
  spills := .ofList [.virtual ⟨0, false⟩, .virtual ⟨1, false⟩, .virtual ⟨2, false⟩]

/-- Numbers everything that is computed. -/
def numbering : Interpretation Nat Nat :=
  fun _ _ n => (fun _ => n, n + 1)

/-- The first value and its copy share a slot, and the code has no copy any more. -/
theorem moveToStack_keeps_values_in_shared_slot :
    ∃ out code c' m t', ((Interaction.analyze twoValuesAndCopy [] []).bind fun x =>
        (Spill.moveToStack .sequential Coloring.firstFit (Frame.empty.extend false)
          twoValuesAndCopy x allSpilled [.rax, .rcx]).2) = .ok out ∧
      out.slots.entries = [(⟨0, false⟩, ⟨-16, false⟩), (⟨1, false⟩, ⟨-24, false⟩),
        (⟨2, false⟩, ⟨-16, false⟩)] ∧
      out.code.instructions.filterMap Instruction.copy? = [] ∧
      out.code = twoValuesAndCopy.replace code ∧
      twoValuesAndCopy.advances (execute (withStack numbering) id) 4
        ⟨⟨0, 0⟩, [], ⟨fun _ => 9, ⟨fun _ => 9, 0⟩⟩⟩ = some c' ∧
      out.code.advances (execute (withStack numbering) id) m
        ⟨twoValuesAndCopy.boundary code ⟨0, 0⟩, [], ⟨fun _ => 9, ⟨fun _ => 9, 0⟩⟩⟩ =
        some ⟨twoValuesAndCopy.boundary code c'.position, c'.choices, t'⟩ ∧
      Spill.Keeps allSpilled.spills out.slots (twoValuesAndCopy.LiveAt · c'.position)
        c'.state t' := by
  have hpure : twoValuesAndCopy.CopiesArePure := by
    rintro i (_ | ⟨_, _ | ⟨_, _ | ⟨_, _ | ⟨_, _ | ⟨_, ⟨⟩⟩⟩⟩⟩⟩) <;>
      exact Instruction.copyIsPure_operate _
  obtain ⟨x, hx, hmoves⟩ := moveToStack_keeps_live_values twoValuesAndCopy (by decide) hpure [] []
    [.rax, .rcx] (by decide) (by decide) (Frame.empty.extend false) (by decide) .sequential
    numbering Selection.sequential_transfersExactly
  obtain ⟨out, hout⟩ : ∃ out, ((Interaction.analyze twoValuesAndCopy [] []).bind fun x =>
      (Spill.moveToStack .sequential Coloring.firstFit (Frame.empty.extend false)
        twoValuesAndCopy x allSpilled [.rax, .rcx]).2) = .ok out :=
    exists_eq_ok (by decide +kernel)
  have hcomputed : (((Interaction.analyze twoValuesAndCopy [] []).bind fun x =>
      (Spill.moveToStack .sequential Coloring.firstFit (Frame.empty.extend false)
        twoValuesAndCopy x allSpilled [.rax, .rcx]).2).toOption.map fun out =>
      (out.slots.entries, out.code.instructions.filterMap Instruction.copy?)) =
      some ([(⟨0, false⟩, ⟨-16, false⟩), (⟨1, false⟩, ⟨-24, false⟩), (⟨2, false⟩, ⟨-16, false⟩)],
        []) := by decide +kernel
  have hnone : (twoValuesAndCopy.liveBefore ⟨0, 0⟩).toList = [] := by decide +kernel
  have hdead : ∀ r, ¬ twoValuesAndCopy.LiveAt r ⟨0, 0⟩ := by
    intro r hr
    have hmem := (Fragment.liveAt_iff_of_instruction rfl).mp hr
    simp [InsertionSet.mem_iff, hnone] at hmem
  rw [hout] at hcomputed
  obtain ⟨hslots, hcopies⟩ := Prod.mk.inj (Option.some.inj hcomputed)
  have hmoved := hout
  rw [hx] at hmoved
  obtain ⟨code, hcode, hrun⟩ := hmoves x _ out (.inl rfl) hmoved
  obtain ⟨m, t', hrun', hkeeps, -⟩ := hrun ⟨⟨0, 0⟩, [], ⟨fun _ => 9, ⟨fun _ => 9, 0⟩⟩⟩
    ⟨fun _ => 9, ⟨fun _ => 9, 0⟩⟩
    ⟨fun r hr => absurd hr (hdead r), fun r hr => absurd hr (hdead r)⟩
    ⟨fun _ _ => rfl, rfl⟩ 4 _ rfl
  exact ⟨out, code, _, m, t', hout, hslots, hcopies, hcode, rfl, hrun', hkeeps⟩

end Lowering
