import Lowering.Interaction
import Lowering.Proofs.Flow
import Lowering.Proofs.Machine
import Lowering.Proofs.Relations

/-!
# When registers interfere

The analysis of code without empty blocks, read at its places: which copies last,
and which registers therefore interfere. A register that is written interferes with
every other register that is live afterwards, except where the write is a copy:
then the target need not be kept apart from the source. No other exception is made
for live registers, although the analysis exempts registers that are copies of each
other wherever they occur.
-/

namespace Lowering.Interaction

section Points

variable {code : List Point} {live : List Live} {preserved alwaysLive : List HardwareRegister}
  {a b r : Register} {n : Nat}

theorem mem_copying :
    b ∈ (ofLive code live preserved alwaysLive).copying.neighbors a ↔
      (a, b) ∈ copyPairs code live := by
  simp [ofLive, Relation.mem_neighbors_addArcs]

theorem relatedEitherWay_eq_false :
    (ofLive code live preserved alwaysLive).copying.relatedEitherWay a b = false ↔
      ¬ (a, b) ∈ copyPairs code live ∧ ¬ (b, a) ∈ copyPairs code live := by
  simp [Relation.relatedEitherWay, Relation.related, mem_copying]

theorem mem_definitions : n ∈ definitions code r ↔ ∃ q, code[n]? = some q ∧ r ∈ q.writes := by
  simp only [definitions, List.mem_map, List.mem_filter, decide_eq_true_eq]
  constructor
  · rintro ⟨⟨q, m⟩, ⟨hq, hr⟩, rfl⟩
    exact ⟨q, List.mem_zipIdx_iff_getElem?.mp hq, hr⟩
  · rintro ⟨q, hq, hr⟩
    exact ⟨(q, n), ⟨List.mem_zipIdx_iff_getElem?.mpr hq, hr⟩, rfl⟩

theorem nodup_definitions : (definitions code r).Nodup := by
  have hall : (code.zipIdx.map Prod.snd).Nodup := by
    rw [List.zipIdx_map_snd]
    exact List.nodup_range'
  exact hall.sublist (List.filter_sublist.map _)

theorem definitions_eq_singleton_iff :
    definitions code r = [n] ↔ ∀ m, m ∈ definitions code r ↔ m = n := by
  constructor
  · intro h m
    rw [h, List.mem_singleton]
  · intro h
    apply List.perm_singleton.mp
    apply (List.perm_ext_iff_of_nodup nodup_definitions (List.nodup_singleton n)).mpr
    intro m
    rw [h, List.mem_singleton]

/-- A copy lasts if it is the only write to its target, and its target is dead after
every other write to its source. -/
theorem mem_copyPairs : (a, b) ∈ copyPairs code live ↔
    b ≠ a ∧ ∃ m q, code[m]? = some q ∧ q.copy? = some ⟨b, a⟩ ∧ definitions code b = [m] ∧
      ∀ d ∈ definitions code a, d = m ∨ ¬ b ∈ Liveness.after live d := by
  have hlasting : ∀ m c, isLasting code live m c = true ↔
      c.into ≠ c.source ∧ definitions code c.into = [m] ∧
        ∀ d ∈ definitions code c.source, d = m ∨ ¬ c.into ∈ Liveness.after live d := by
    simp [isLasting, and_assoc]
  rw [copyPairs, List.mem_filterMap]
  constructor
  · rintro ⟨⟨q, m⟩, hq, hpair⟩
    have hq := List.mem_zipIdx_iff_getElem?.mp hq
    cases hc : q.copy? with
    | none => simp [hc] at hpair
    | some c =>
        simp only [hc, Option.ite_none_right_eq_some, Option.some.injEq, Prod.mk.injEq] at hpair
        obtain ⟨hlast, rfl, rfl⟩ := hpair
        obtain ⟨hne, honly, hkept⟩ := (hlasting m c).mp hlast
        exact ⟨hne, m, q, hq, hc, honly, hkept⟩
  · rintro ⟨hne, m, q, hq, hc, honly, hkept⟩
    refine ⟨(q, m), List.mem_zipIdx_iff_getElem?.mpr hq, ?_⟩
    simp only [hc, if_pos ((hlasting m ⟨b, a⟩).mpr ⟨hne, honly, hkept⟩)]

theorem mem_writePairs {copying : Relation Register} (hlength : live.length = code.length) :
    (a, b) ∈ writePairs code live copying ↔
      ∃ n q, code[n]? = some q ∧ a ∈ Liveness.after live n ∧ b ∈ q.writes ∧ a ≠ b ∧
        copying.relatedEitherWay a b = false := by
  simp only [writePairs, List.mem_flatMap, List.mem_map, List.mem_filter, Prod.mk.injEq,
    Bool.and_eq_true, decide_eq_true_eq, Bool.not_eq_true']
  constructor
  · rintro ⟨⟨q, l⟩, hzip, a', ha, b', ⟨hb, hne, hrelated⟩, rfl, rfl⟩
    obtain ⟨n, hn⟩ := List.mem_iff_getElem?.mp hzip
    obtain ⟨hq, hl⟩ := List.getElem?_zip_eq_some.mp hn
    refine ⟨n, q, hq, ?_, hb, hne, hrelated⟩
    simp only [Liveness.after, hl]
    exact ha
  · rintro ⟨n, q, hq, ha, hb, hne, hrelated⟩
    have hn : n < live.length := hlength ▸ (List.getElem?_eq_some_iff.mp hq).1
    have hl : live[n]? = some live[n] := List.getElem?_eq_getElem hn
    simp only [Liveness.after, hl] at ha
    have hzip : (q, live[n]) ∈ code.zip live :=
      List.mem_iff_getElem?.mpr ⟨n, List.getElem?_zip_eq_some.mpr ⟨hq, hl⟩⟩
    exact ⟨(q, live[n]), hzip, a, ha, b, ⟨hb, hne, hrelated⟩, rfl, rfl⟩

theorem mem_referencePairs {registers : InsertionSet Register} :
    (a, b) ∈ referencePairs registers preserved ↔
      a ∈ registers ∧ a.holdsReference = true ∧ ∃ h ∈ preserved, b = .fixed h := by
  simp only [referencePairs, List.mem_flatMap, List.mem_filter, List.mem_map, Prod.mk.injEq]
  constructor
  · rintro ⟨_, ⟨ha, href⟩, h, hh, rfl, rfl⟩
    exact ⟨ha, href, h, hh, rfl⟩
  · rintro ⟨ha, href, h, hh, rfl⟩
    exact ⟨a, ⟨ha, href⟩, h, hh, rfl, rfl⟩

theorem mem_alwaysLivePairs {registers : InsertionSet Register} {copying : Relation Register} :
    (a, b) ∈ alwaysLivePairs registers alwaysLive copying ↔
      a ∈ registers ∧ a ≠ b ∧ copying.relatedEitherWay a b = false ∧
        ∃ l ∈ alwaysLive, b = .fixed l := by
  simp only [alwaysLivePairs, List.mem_flatMap, List.mem_filter, List.mem_map, Prod.mk.injEq,
    Bool.and_eq_true, decide_eq_true_eq, Bool.not_eq_true']
  constructor
  · rintro ⟨l, hl, _, ⟨ha, hne, hrelated⟩, rfl, rfl⟩
    exact ⟨ha, hne, hrelated, l, hl, rfl⟩
  · rintro ⟨ha, hne, hrelated, l, hl, rfl⟩
    exact ⟨l, hl, a, ⟨ha, hne, hrelated⟩, rfl, rfl⟩

end Points

/-! ## The interaction of a fragment -/

variable {f : Fragment} {preserved alwaysLive : List HardwareRegister} {p : Position}
  {i : Instruction} {a b r w : Register}

theorem checkBlocks_of_nonempty (h : ∀ b ∈ f.blocks, b.instructions ≠ []) :
    f.checkBlocks = .ok () := by
  refine rejectFirst_eq_ok_iff.mpr fun b hb => ?_
  simp [Block.isEmpty, h b hb]

theorem nonempty_of_checkBlocks (h : f.checkBlocks = .ok ()) :
    ∀ b ∈ f.blocks, b.instructions ≠ [] := by
  intro b hb hempty
  have hfault := rejectFirst_eq_ok_iff.mp h b hb
  simp [Block.isEmpty, hempty] at hfault

/-- The interaction that the analysis finds in code without empty blocks. -/
abbrev ofFragment (f : Fragment) (preserved alwaysLive : List HardwareRegister) : Interaction :=
  ofLive f.points (Liveness.solve f.points) preserved alwaysLive

theorem analyze_of_nonempty (h : ∀ b ∈ f.blocks, b.instructions ≠ []) :
    analyze f preserved alwaysLive = .ok (ofFragment f preserved alwaysLive) := by
  simp [analyze, Fragment.flatten, checkBlocks_of_nonempty h]

theorem analyze_eq_ok {x : Interaction} (h : analyze f preserved alwaysLive = .ok x) :
    (∀ b ∈ f.blocks, b.instructions ≠ []) ∧ x = ofFragment f preserved alwaysLive := by
  unfold analyze Fragment.flatten at h
  cases hcheck : f.checkBlocks with
  | error e => simp [hcheck] at h
  | ok _ =>
      simp only [hcheck, Except.ok.injEq] at h
      exact ⟨nonempty_of_checkBlocks hcheck, h.symm⟩

theorem mem_registers_iff : r ∈ (ofFragment f preserved alwaysLive).registers ↔
    r ∈ Liveness.registers f.points ∨ (∃ h ∈ preserved, r = .fixed h) ∨
      ∃ h ∈ alwaysLive, r = .fixed h := by
  simp [ofFragment, ofLive, or_assoc, eq_comm]

theorem mem_registers_of_mem_points (hr : r ∈ Liveness.registers f.points) :
    r ∈ (ofFragment f preserved alwaysLive).registers :=
  mem_registers_iff.mpr (.inl hr)

/-- A copy of `a` into `b` that lasts: it is the only instruction that writes `b`,
and `b` is dead after every other one that writes `a`. -/
structure Lasting (f : Fragment) (a b : Register) (p : Position) (i : Instruction) : Prop where
  here : f.instructionAt? p = some i
  copies : i.copy? = some ⟨b, a⟩
  writes : b ∈ i.writes
  only : ∀ p' i', f.instructionAt? p' = some i' → b ∈ i'.writes → p' = p
  kept : ∀ p' i', f.instructionAt? p' = some i' → a ∈ i'.writes → p' = p ∨ ¬ b ∈ f.liveAfter p'

/-- A register holds a copy of another one as long as it is live. -/
def IsCopy (f : Fragment) (a b : Register) : Prop :=
  b ≠ a ∧ ∃ p i, Lasting f a b p i

theorem number_mem_definitions (hi : f.instructionAt? p = some i) :
    f.number p ∈ definitions f.points r ↔ r ∈ i.writes := by
  obtain ⟨b, hb, hib⟩ := Fragment.instructionAt?_eq_some.mp hi
  simp [mem_definitions, Fragment.getElem?_points hb hib, Fragment.pointAt]

theorem exists_position_of_definition {n : Nat} (hn : n ∈ definitions f.points r) :
    ∃ p i, f.instructionAt? p = some i ∧ n = f.number p ∧ r ∈ i.writes := by
  obtain ⟨q, hq, hr⟩ := mem_definitions.mp hn
  obtain ⟨p, b, i, hb, hi, rfl, rfl⟩ := Fragment.exists_position_of_point hq
  exact ⟨p, i, Fragment.instructionAt?_eq_some.mpr ⟨b, hb, hi⟩, rfl, InsertionSet.mem_ofList.mp hr⟩

theorem mem_copyPairs_iff_isCopy :
    (a, b) ∈ copyPairs f.points (Liveness.solve f.points) ↔ IsCopy f a b := by
  rw [mem_copyPairs, IsCopy]
  apply and_congr_right
  intro _
  constructor
  · rintro ⟨m, q, hq, hc, honly, hkept⟩
    obtain ⟨p, b', i, hb, hib, rfl, rfl⟩ := Fragment.exists_position_of_point hq
    have hi := Fragment.instructionAt?_eq_some.mpr ⟨b', hb, hib⟩
    rw [definitions_eq_singleton_iff] at honly
    refine ⟨p, i, hi, hc, ?_, fun p' i' hi' hw => ?_, fun p' i' hi' hw => ?_⟩
    · exact (number_mem_definitions hi).mp ((honly _).mpr rfl)
    · have hnumber := (honly _).mp ((number_mem_definitions hi').mpr hw)
      exact Fragment.number_injective hi' hi hnumber
    · apply (hkept _ ((number_mem_definitions hi').mpr hw)).imp_left
      exact Fragment.number_injective hi' hi
  · rintro ⟨p, i, h⟩
    obtain ⟨b', hb, hib⟩ := Fragment.instructionAt?_eq_some.mp h.here
    refine ⟨_, _, Fragment.getElem?_points hb hib, h.copies, ?_, fun d hd => ?_⟩
    · rw [definitions_eq_singleton_iff]
      intro n
      constructor
      · intro hn
        obtain ⟨p', i', hi', rfl, hw⟩ := exists_position_of_definition hn
        rw [h.only p' i' hi' hw]
      · rintro rfl
        exact (number_mem_definitions h.here).mpr h.writes
    · obtain ⟨p', i', hi', rfl, hw⟩ := exists_position_of_definition hd
      apply (h.kept p' i' hi' hw).imp_left
      rintro rfl
      rfl

/-- Why a register is kept apart from another one. -/
inductive Conflict (f : Fragment) (preserved alwaysLive : List HardwareRegister) :
    Register → Register → Prop
  | write {a b : Register} {p : Position} {i : Instruction} (hi : f.instructionAt? p = some i)
      (ha : a ∈ f.liveAfter p) (hb : b ∈ i.writes) (hne : a ≠ b) (hinto : ¬ IsCopy f a b)
      (hfrom : ¬ IsCopy f b a) : Conflict f preserved alwaysLive a b
  | reference {a : Register} {h : HardwareRegister}
      (ha : a ∈ (ofFragment f preserved alwaysLive).registers) (href : a.holdsReference = true)
      (hh : h ∈ preserved) : Conflict f preserved alwaysLive a (.fixed h)
  | alwaysLive {a : Register} {h : HardwareRegister}
      (ha : a ∈ (ofFragment f preserved alwaysLive).registers) (hh : h ∈ alwaysLive)
      (hne : a ≠ .fixed h) (hinto : ¬ IsCopy f a (.fixed h)) (hfrom : ¬ IsCopy f (.fixed h) a) :
      Conflict f preserved alwaysLive a (.fixed h)

theorem conflict_iff_mem : Conflict f preserved alwaysLive a b ↔
    (a, b) ∈ writePairs f.points (Liveness.solve f.points)
        (ofFragment f preserved alwaysLive).copying ++
      referencePairs (ofFragment f preserved alwaysLive).registers preserved ++
      alwaysLivePairs (ofFragment f preserved alwaysLive).registers alwaysLive
        (ofFragment f preserved alwaysLive).copying := by
  rw [List.mem_append, List.mem_append, mem_writePairs (Liveness.length_solve _),
    mem_referencePairs, mem_alwaysLivePairs]
  simp only [relatedEitherWay_eq_false, mem_copyPairs_iff_isCopy]
  constructor
  · intro h
    cases h with
    | write hi ha hb hne hinto hfrom =>
        obtain ⟨c, hc, hic⟩ := Fragment.instructionAt?_eq_some.mp hi
        refine .inl (.inl ⟨_, _, Fragment.getElem?_points hc hic, ha, ?_, hne, hinto, hfrom⟩)
        exact InsertionSet.mem_ofList.mpr hb
    | reference ha href hh => exact .inl (.inr ⟨ha, href, _, hh, rfl⟩)
    | alwaysLive ha hh hne hinto hfrom => exact .inr ⟨ha, hne, ⟨hinto, hfrom⟩, _, hh, rfl⟩
  · rintro ((⟨n, q, hq, ha, hb, hne, hinto, hfrom⟩ | ⟨ha, href, h, hh, rfl⟩) |
      ⟨ha, hne, ⟨hinto, hfrom⟩, h, hh, rfl⟩)
    · obtain ⟨p, c, i, hc, hic, rfl, rfl⟩ := Fragment.exists_position_of_point hq
      exact .write (Fragment.instructionAt?_eq_some.mpr ⟨c, hc, hic⟩) ha
        (InsertionSet.mem_ofList.mp hb) hne hinto hfrom
    · exact .reference ha href hh
    · exact .alwaysLive ha hh hne hinto hfrom

/-- Registers interfere if one is kept apart from the other. -/
theorem mem_interference_iff :
    b ∈ (ofFragment f preserved alwaysLive).interference.neighbors a ↔
      Conflict f preserved alwaysLive a b ∨ Conflict f preserved alwaysLive b a := by
  have hempty : ¬ b ∈ (Relation.discrete
      (ofFragment f preserved alwaysLive).registers).neighbors a := by
    rw [Relation.neighbors_discrete]
    exact InsertionSet.not_mem_empty b
  rw [conflict_iff_mem, conflict_iff_mem]
  refine Relation.mem_neighbors_addEdges.trans ⟨fun h => h.resolve_left hempty, .inr⟩

theorem Conflict.ne (h : Conflict f preserved alwaysLive a b) : a ≠ b := by
  cases h with
  | write _ _ _ hne _ _ => exact hne
  | reference _ href _ =>
      rintro rfl
      exact absurd href Bool.false_ne_true
  | alwaysLive _ _ hne _ _ => exact hne

/-- No register interferes with itself. -/
theorem not_mem_interference_self :
    ¬ a ∈ (ofFragment f preserved alwaysLive).interference.neighbors a := by
  rw [mem_interference_iff, or_self]
  exact fun h => h.ne rfl

theorem IsCopy.copy?_of_write (h : IsCopy f a b) (hi : f.instructionAt? p = some i)
    (hb : b ∈ i.writes) : i.copy? = some ⟨b, a⟩ := by
  obtain ⟨-, p', i', hlasting⟩ := h
  obtain rfl := hlasting.only p i hi hb
  obtain rfl := Option.some.inj (hlasting.here.symm.trans hi)
  exact hlasting.copies

/-- If a register is live after an instruction that writes another, then the two
interfere or the instruction copies the former into the latter. -/
theorem interferes_or_copies_at
    (hpure : f.CopiesArePure) (hi : f.instructionAt? p = some i) (hw : w ∈ i.writes)
    (hr : r ∈ f.liveAfter p) (hne : r ≠ w) :
    w ∈ (ofFragment f preserved alwaysLive).interference.neighbors r ∨
      i.copy? = some ⟨w, r⟩ := by
  by_cases hinto : IsCopy f r w
  · exact .inr (hinto.copy?_of_write hi hw)
  · by_cases hfrom : IsCopy f w r
    · obtain ⟨-, p', i', hlasting⟩ := hfrom
      obtain rfl := (hlasting.kept p i hi hw).resolve_right fun hdead => hdead hr
      obtain rfl := Option.some.inj (hlasting.here.symm.trans hi)
      have hwr := ((hpure i' (Fragment.mem_instructions_of_instructionAt? hi) _
        hlasting.copies).2 w).mp hw
      exact absurd hwr.symm hne
    · exact .inl (mem_interference_iff.mpr (.inl (.write hi hr hw hne hinto hfrom)))

end Lowering.Interaction
