import Lowering.Proofs.PathLiveness

/-!
# Exactly which registers interact

The relations that the analysis of code finds, read both ways. They know the registers
of the code and those that every function has, and mention no others. A register is
listed as a copy of another one exactly if a copy made by the only instruction that
writes it lasts; and two registers interfere exactly if one of three reasons keeps them
apart.

A copy whose source is not among the registers that its instruction reads could bring in
a register that the analysis does not know. So the sources of copies have to be read.
-/

namespace Lowering

namespace Relation

variable {V : Type} [DecidableEq V] {g : Relation V} {l : List (V × V)}

theorem keys_addEdges_of_known (h : ∀ p ∈ l, p.1 ∈ g.keys ∧ p.2 ∈ g.keys) :
    (g.addEdges l).keys = g.keys := by
  induction l generalizing g with
  | nil => rfl
  | cons p l ih =>
      rw [List.forall_mem_cons] at h
      obtain ⟨⟨hfirst, hsecond⟩, hrest⟩ := h
      have hkeys : (g.addEdge p.1 p.2).keys = g.keys := by
        rw [keys_addEdge, InsertionSet.insert_of_mem hfirst, InsertionSet.insert_of_mem hsecond]
      have hstep : g.addEdges (p :: l) = (g.addEdge p.1 p.2).addEdges l := rfl
      rw [hstep, ih (hkeys.symm ▸ hrest), hkeys]

theorem keys_addArcs_of_known (h : ∀ p ∈ l, p.1 ∈ g.keys) :
    (l.foldl (fun g p => g.addArc p.1 p.2) g).keys = g.keys := by
  induction l generalizing g with
  | nil => rfl
  | cons p l ih =>
      rw [List.forall_mem_cons] at h
      have hkeys : (g.addArc p.1 p.2).keys = g.keys := by
        rw [keys_addArc, InsertionSet.insert_of_mem h.1]
      rw [List.foldl_cons, ih (hkeys.symm ▸ h.2), hkeys]

end Relation

/-- Every copy of the code reads its source. -/
def Fragment.ReadsSources (f : Fragment) : Prop :=
  ∀ i ∈ f.instructions, ∀ c, i.copy? = some c → c.source ∈ i.reads

theorem Fragment.CopiesArePure.readsSources {f : Fragment} (h : f.CopiesArePure) :
    f.ReadsSources :=
  fun i hi c hc => ((h i hi c hc).1 c.source).mpr rfl

/-- Some instruction writes one of two registers while the other one is live. -/
def Fragment.WrittenWhileLive (f : Fragment) (a b : Register) : Prop :=
  ∃ p, (f.WritesAt a p ∧ b ∈ f.liveAfter p) ∨ (f.WritesAt b p ∧ a ∈ f.liveAfter p)

namespace Interaction

variable {f : Fragment} {preserved alwaysLive : List HardwareRegister} {a b r : Register}

/-- Neither of two registers is listed as a copy of the other. -/
def Uncopied (x : Interaction) (a b : Register) : Prop :=
  ¬ a ∈ x.copying.neighbors b ∧ ¬ b ∈ x.copying.neighbors a

/-- One of two registers holds a reference, and the other one is preserved. -/
def ReferenceApart (preserved : List HardwareRegister) (a b : Register) : Prop :=
  (a.holdsReference = true ∧ ∃ h ∈ preserved, b = .fixed h) ∨
    (b.holdsReference = true ∧ ∃ h ∈ preserved, a = .fixed h)

/-- One of two registers is always live. -/
def AlwaysLiveApart (alwaysLive : List HardwareRegister) (a b : Register) : Prop :=
  ∃ h ∈ alwaysLive, a = .fixed h ∨ b = .fixed h

/-- The reasons for which two registers need different places. Copies are excepted from
the first and the last, but not from the one about references. -/
def KeptApart (x : Interaction) (f : Fragment) (preserved alwaysLive : List HardwareRegister)
    (a b : Register) : Prop :=
  (x.Uncopied a b ∧ f.WrittenWhileLive a b) ∨ ReferenceApart preserved a b ∨
    (x.Uncopied a b ∧ AlwaysLiveApart alwaysLive a b)

/-! ## Copies -/

theorem mem_copying_iff_isCopy :
    b ∈ (ofFragment f preserved alwaysLive).copying.neighbors a ↔ IsCopy f a b :=
  mem_copying.trans mem_copyPairs_iff_isCopy

theorem uncopied_iff : (ofFragment f preserved alwaysLive).Uncopied a b ↔
    ¬ IsCopy f b a ∧ ¬ IsCopy f a b := by
  rw [Uncopied, mem_copying_iff_isCopy, mem_copying_iff_isCopy]

/-- What makes a register a copy of another one, in terms of the places that write
them. -/
theorem isCopy_iff_only_write : IsCopy f b a ↔
    a ≠ b ∧ ∃ p i, f.instructionAt? p = some i ∧ i.copy? = some ⟨a, b⟩ ∧
      (∀ q, f.WritesAt a q ↔ q = p) ∧ ∀ q, q ≠ p → f.WritesAt b q → ¬ a ∈ f.liveAfter q := by
  rw [IsCopy]
  apply and_congr_right
  intro _
  constructor
  · rintro ⟨p, i, h⟩
    refine ⟨p, i, h.here, h.copies, fun q => ⟨?_, ?_⟩, ?_⟩
    · rintro ⟨j, hj, hw⟩
      exact h.only q j hj hw
    · rintro rfl
      exact ⟨i, h.here, h.writes⟩
    · rintro q hne ⟨j, hj, hw⟩
      exact (h.kept q j hj hw).resolve_left hne
  · rintro ⟨p, i, hi, hcopy, honly, hkept⟩
    obtain ⟨j, hj, hw⟩ := (honly p).mpr rfl
    obtain rfl := Option.some.inj (hj.symm.trans hi)
    refine ⟨p, j, hi, hcopy, hw, fun q k hk hwk => (honly q).mp ⟨k, hk, hwk⟩, ?_⟩
    intro q k hk hwk
    by_cases hq : q = p
    · exact .inl hq
    · exact .inr (hkept q hq ⟨k, hk, hwk⟩)

/-! ## Registers -/

theorem mem_registers_iff_used : r ∈ (ofFragment f preserved alwaysLive).registers ↔
    (∃ p, f.ReadsAt r p ∨ f.WritesAt r p) ∨ (∃ h ∈ preserved, r = .fixed h) ∨
      ∃ h ∈ alwaysLive, r = .fixed h := by
  rw [mem_registers_iff, Fragment.mem_registers_iff]
  apply or_congr_left
  constructor
  · rintro ⟨i, hi, hused⟩
    obtain ⟨p, hp⟩ := Fragment.exists_position_of_mem hi
    exact ⟨p, hused.imp (fun hr => ⟨i, hp, hr⟩) fun hw => ⟨i, hp, hw⟩⟩
  · rintro ⟨p, ⟨i, hp, hr⟩ | ⟨i, hp, hw⟩⟩
    · exact ⟨i, Fragment.mem_instructions_of_instructionAt? hp, .inl hr⟩
    · exact ⟨i, Fragment.mem_instructions_of_instructionAt? hp, .inr hw⟩

theorem mem_registers_of_writesAt {p : Position} (h : f.WritesAt r p) :
    r ∈ (ofFragment f preserved alwaysLive).registers :=
  mem_registers_iff_used.mpr (.inl ⟨p, .inr h⟩)

theorem mem_registers_of_liveAfter {p : Position} (h : r ∈ f.liveAfter p) :
    r ∈ (ofFragment f preserved alwaysLive).registers :=
  mem_registers_of_mem_points (Fragment.mem_registers_of_mem_liveAfter h)

theorem IsCopy.mem_registers (hsources : f.ReadsSources) (h : IsCopy f a b) :
    a ∈ (ofFragment f preserved alwaysLive).registers ∧
      b ∈ (ofFragment f preserved alwaysLive).registers := by
  obtain ⟨-, p, i, hlasting⟩ := h
  have hi := Fragment.mem_instructions_of_instructionAt? hlasting.here
  constructor
  · have hread : f.ReadsAt a p := ⟨i, hlasting.here, hsources i hi _ hlasting.copies⟩
    exact mem_registers_iff_used.mpr (.inl ⟨p, .inl hread⟩)
  · exact mem_registers_of_writesAt ⟨i, hlasting.here, hlasting.writes⟩

theorem Conflict.mem_registers (h : Conflict f preserved alwaysLive a b) :
    a ∈ (ofFragment f preserved alwaysLive).registers ∧
      b ∈ (ofFragment f preserved alwaysLive).registers := by
  cases h with
  | write hi ha hb _ _ _ =>
      exact ⟨mem_registers_of_liveAfter ha, mem_registers_of_writesAt ⟨_, hi, hb⟩⟩
  | reference ha _ hh => exact ⟨ha, mem_registers_iff_used.mpr (.inr (.inl ⟨_, hh, rfl⟩))⟩
  | alwaysLive ha hh _ _ _ => exact ⟨ha, mem_registers_iff_used.mpr (.inr (.inr ⟨_, hh, rfl⟩))⟩

theorem keys_copying (hsources : f.ReadsSources) :
    (ofFragment f preserved alwaysLive).copying.keys =
      (ofFragment f preserved alwaysLive).registers := by
  have hknown : ∀ p ∈ copyPairs f.points (Liveness.solve f.points),
      p.1 ∈ (Relation.discrete (ofFragment f preserved alwaysLive).registers).keys := by
    rintro ⟨a, b⟩ hp
    rw [Relation.keys_discrete]
    exact ((mem_copyPairs_iff_isCopy.mp hp).mem_registers hsources).1
  exact (Relation.keys_addArcs_of_known hknown).trans (Relation.keys_discrete _)

theorem keys_interference :
    (ofFragment f preserved alwaysLive).interference.keys =
      (ofFragment f preserved alwaysLive).registers := by
  refine (Relation.keys_addEdges_of_known ?_).trans (Relation.keys_discrete _)
  rintro ⟨a, b⟩ hp
  rw [Relation.keys_discrete]
  exact (conflict_iff_mem.mpr hp).mem_registers

/-! ## Interference -/

theorem KeptApart.symm {x : Interaction} (h : x.KeptApart f preserved alwaysLive a b) :
    x.KeptApart f preserved alwaysLive b a := by
  rcases h with ⟨huncopied, p, hwritten⟩ | hreference | ⟨huncopied, h, hh, hlive⟩
  · exact .inl ⟨huncopied.symm, p, hwritten.symm⟩
  · exact .inr (.inl hreference.symm)
  · exact .inr (.inr ⟨huncopied.symm, h, hh, hlive.symm⟩)

theorem Conflict.keptApart (h : Conflict f preserved alwaysLive a b) :
    (ofFragment f preserved alwaysLive).KeptApart f preserved alwaysLive a b := by
  rw [KeptApart, uncopied_iff]
  cases h with
  | write hi ha hb _ hinto hfrom =>
      exact .inl ⟨⟨hfrom, hinto⟩, _, .inr ⟨⟨_, hi, hb⟩, ha⟩⟩
  | reference _ href hh => exact .inr (.inl (.inl ⟨href, _, hh, rfl⟩))
  | alwaysLive _ hh _ hinto hfrom => exact .inr (.inr ⟨⟨hfrom, hinto⟩, _, hh, .inr rfl⟩)

/-- Registers that are kept apart are in conflict, one way or the other. -/
theorem KeptApart.conflict (ha : a ∈ (ofFragment f preserved alwaysLive).registers)
    (hb : b ∈ (ofFragment f preserved alwaysLive).registers) (hne : a ≠ b)
    (h : (ofFragment f preserved alwaysLive).KeptApart f preserved alwaysLive a b) :
    Conflict f preserved alwaysLive a b ∨ Conflict f preserved alwaysLive b a := by
  rw [KeptApart, uncopied_iff] at h
  rcases h with ⟨⟨hfrom, hinto⟩, p, hwritten⟩ | hreference | ⟨⟨hfrom, hinto⟩, h, hh, hlive⟩
  · rcases hwritten with ⟨⟨i, hi, hw⟩, hafter⟩ | ⟨⟨i, hi, hw⟩, hafter⟩
    · exact .inr (.write hi hafter hw hne.symm hfrom hinto)
    · exact .inl (.write hi hafter hw hne hinto hfrom)
  · rcases hreference with ⟨href, h, hh, rfl⟩ | ⟨href, h, hh, rfl⟩
    · exact .inl (.reference ha href hh)
    · exact .inr (.reference hb href hh)
  · rcases hlive with rfl | rfl
    · exact .inr (.alwaysLive hb hh hne.symm hfrom hinto)
    · exact .inl (.alwaysLive ha hh hne hinto hfrom)

theorem mem_interference_iff_keptApart :
    a ∈ (ofFragment f preserved alwaysLive).interference.neighbors b ↔
      a ∈ (ofFragment f preserved alwaysLive).registers ∧
        b ∈ (ofFragment f preserved alwaysLive).registers ∧ a ≠ b ∧
        (ofFragment f preserved alwaysLive).KeptApart f preserved alwaysLive a b := by
  rw [mem_interference_iff]
  constructor
  · rintro (h | h)
    · exact ⟨h.mem_registers.2, h.mem_registers.1, h.ne.symm, h.keptApart.symm⟩
    · exact ⟨h.mem_registers.1, h.mem_registers.2, h.ne, h.keptApart⟩
  · rintro ⟨ha, hb, hne, h⟩
    exact (h.conflict ha hb hne).symm

theorem mem_registers_of_mentions (hsources : f.ReadsSources)
    (hr : (ofFragment f preserved alwaysLive).interference.Mentions r ∨
      (ofFragment f preserved alwaysLive).copying.Mentions r) :
    r ∈ (ofFragment f preserved alwaysLive).registers := by
  rcases hr with (hkey | ⟨q, hq⟩) | (hkey | ⟨q, hq⟩)
  · rwa [keys_interference] at hkey
  · exact (mem_interference_iff_keptApart.mp hq).1
  · rwa [keys_copying hsources] at hkey
  · exact ((mem_copying_iff_isCopy.mp hq).mem_registers hsources).2

end Interaction

/-- Code without empty blocks, in which every copy reads its source, can be analyzed, and
the analysis finds exactly the following.

* The registers are those that the code reads or writes, the preserved ones and those that
  are always live. Both relations know exactly these and mention no others.
* A register is a copy of another one if an instruction that copies the one into the other
  is the only one that writes the copy, and the copy is dead after every other instruction
  that writes its source.
* Two registers interfere if neither is a copy of the other and one is written while the
  other is live; or if one holds a reference and the other is preserved; or if one is
  always live and neither is a copy of the other.

So interference is symmetric, and no register interferes with itself. -/
theorem analyze_finds_exact_relations (f : Fragment)
    (hblocks : ∀ b ∈ f.blocks, b.instructions ≠ []) (hsources : f.ReadsSources)
    (preserved alwaysLive : List HardwareRegister) :
    ∃ x, Interaction.analyze f preserved alwaysLive = .ok x ∧
      (∀ r, r ∈ x.registers ↔ (∃ p, f.ReadsAt r p ∨ f.WritesAt r p) ∨
        (∃ h ∈ preserved, r = .fixed h) ∨ ∃ h ∈ alwaysLive, r = .fixed h) ∧
      x.interference.keys = x.registers ∧ x.copying.keys = x.registers ∧
      (∀ r, x.interference.Mentions r ∨ x.copying.Mentions r → r ∈ x.registers) ∧
      (∀ a b, a ∈ x.copying.neighbors b ↔ a ≠ b ∧ ∃ p i, f.instructionAt? p = some i ∧
        i.copy? = some ⟨a, b⟩ ∧ (∀ q, f.WritesAt a q ↔ q = p) ∧
        ∀ q, q ≠ p → f.WritesAt b q → ¬ a ∈ f.liveAfter q) ∧
      (∀ a b, a ∈ x.interference.neighbors b ↔ a ∈ x.registers ∧ b ∈ x.registers ∧ a ≠ b ∧
        x.KeptApart f preserved alwaysLive a b) ∧
      (∀ a b, a ∈ x.interference.neighbors b → b ∈ x.interference.neighbors a) ∧
      ∀ a, ¬ a ∈ x.interference.neighbors a := by
  refine ⟨_, Interaction.analyze_of_nonempty hblocks, fun r => Interaction.mem_registers_iff_used,
    Interaction.keys_interference, Interaction.keys_copying hsources,
    fun r => Interaction.mem_registers_of_mentions hsources, fun a b => ?_,
    fun a b => Interaction.mem_interference_iff_keptApart, fun a b h => ?_,
    fun a => Interaction.not_mem_interference_self⟩
  · exact Interaction.mem_copying_iff_isCopy.trans Interaction.isCopy_iff_only_write
  · rw [Interaction.mem_interference_iff] at h ⊢
    exact h.symm

/-- A reference that is copied, and both are used after a value has been made. -/
def copiedReference : Fragment where
  name := "f"
  blocks := [.unlinked ⟨"b"⟩
    [.operate (.compute "make" [] [.virtual ⟨0, true⟩]),
      .operate (.copy ⟨.virtual ⟨1, true⟩, .virtual ⟨0, true⟩⟩),
      .operate (.compute "make" [] [.virtual ⟨2, false⟩]),
      .operate (.compute "use" [.virtual ⟨0, true⟩, .virtual ⟨1, true⟩, .virtual ⟨2, false⟩] [])]]

/-- The reference and its copy may share a place, although both are live, but neither may
share one with the value or with a preserved register. -/
theorem copiedReference_interacts : ∃ x,
    Interaction.analyze copiedReference [.rbx] [.rsp] = .ok x ∧ x.copying.keys = x.registers ∧
    (∃ p i, copiedReference.instructionAt? p = some i ∧
      i.copy? = some ⟨.virtual ⟨1, true⟩, .virtual ⟨0, true⟩⟩ ∧
      ∀ q, copiedReference.WritesAt (.virtual ⟨1, true⟩) q ↔ q = p) ∧
    ¬ x.KeptApart copiedReference [.rbx] [.rsp] (.virtual ⟨1, true⟩) (.virtual ⟨0, true⟩) ∧
    x.KeptApart copiedReference [.rbx] [.rsp] (.virtual ⟨1, true⟩) (.virtual ⟨2, false⟩) ∧
    x.KeptApart copiedReference [.rbx] [.rsp] (.virtual ⟨1, true⟩) (.fixed .rbx) := by
  have hpure : copiedReference.CopiesArePure := by
    rintro i (_ | ⟨_, _ | ⟨_, _ | ⟨_, _ | ⟨_, ⟨⟩⟩⟩⟩⟩) <;> exact Instruction.copyIsPure_operate _
  obtain ⟨x, hx, -, -, hkeys, -, hcopying, hinterference, -⟩ :=
    analyze_finds_exact_relations copiedReference (by decide) hpure.readsSources [.rbx] [.rsp]
  obtain rfl := (Interaction.analyze_eq_ok hx).2
  have hcopy := (hcopying (.virtual ⟨1, true⟩) (.virtual ⟨0, true⟩)).mp (by decide +kernel)
  obtain ⟨-, p, i, hi, hcopies, honly, -⟩ := hcopy
  refine ⟨_, hx, hkeys, ⟨p, i, hi, hcopies, honly⟩, fun happart => ?_, ?_, ?_⟩
  · have hnot : ¬ .virtual ⟨1, true⟩ ∈ (Interaction.ofFragment copiedReference [.rbx]
        [.rsp]).interference.neighbors (.virtual ⟨0, true⟩) := by decide +kernel
    exact hnot ((hinterference _ _).mpr ⟨by decide +kernel, by decide +kernel, by decide, happart⟩)
  · exact ((hinterference _ _).mp (by decide +kernel)).2.2.2
  · exact ((hinterference _ _).mp (by decide +kernel)).2.2.2

end Lowering
