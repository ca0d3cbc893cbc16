import Lowering.Proofs.Flow
import Lowering.Proofs.Maps
import Lowering.Proofs.Stack
import Lowering.Spill.Expansion
import Mathlib.Data.List.Nodup

/-!
# What spill code does

The code for an instruction loads the spilled registers that the instruction
reads, runs it on backup registers, and stores the spilled registers that it
writes. If the homes of the live registers hold their values before, then they do
afterwards.
-/

namespace Lowering

universe u v w

theorem Instruction.map_id (i : Instruction) : i.map id = i := by
  cases i with
  | operate o =>
      cases o with
      | transfer t => cases t <;> rfl
      | _ => simp [map, Operation.map, Copy.map]
  | fusedCopy c r w => simp [map, Copy.map]
  | _ => rfl

namespace Spill

variable {Tree : Type u} {selection : Selection Tree}
  {slots : InsertionMap VirtualRegister FrameSlot} {backups : List HardwareRegister}
  {backup : Register → Register} {i : Instruction} {code : List Instruction} {r : Register}

/-! ## The shape of the code -/

theorem mem_spilledAmong {registers : List Register} :
    r ∈ spilledAmong slots registers ↔ r ∈ registers ∧ ∃ s, slot? slots r = some s := by
  rw [spilledAmong, InsertionSet.mem_filter, InsertionSet.mem_ofList, Option.isSome_iff_exists]

theorem touchesSpill_eq_false_iff :
    touchesSpill slots i = false ↔ ∀ r, r ∈ i.reads ∨ r ∈ i.writes → slot? slots r = none := by
  simp [touchesSpill, or_imp, forall_and]

theorem expandInstruction_of_untouched (h : touchesSpill slots i = false) :
    expandInstruction selection slots backups i = .ok [i] := by
  have hempty : ∀ l, (∀ r ∈ l, r ∈ i.reads ∨ r ∈ i.writes) →
      (spilledAmong slots l).isEmpty = true := by
    intro l hl
    rw [InsertionSet.isEmpty, List.isEmpty_iff, List.eq_nil_iff_forall_not_mem]
    intro r hr
    obtain ⟨hmem, s, hs⟩ := mem_spilledAmong.mp hr
    simp [touchesSpill_eq_false_iff.mp h r (hl r hmem)] at hs
  simp [expandInstruction, hempty i.reads fun _ => .inl, hempty i.writes fun _ => .inr]

theorem mapM_expandInstruction_of_untouched {l : List Instruction}
    (h : ∀ i ∈ l, ¬ touchesSpill slots i = true) :
    l.mapM (expandInstruction selection slots backups) = .ok (l.map fun i => [i]) := by
  induction l with
  | nil => rfl
  | cons i l ih =>
      obtain ⟨hi, hl⟩ := List.forall_mem_cons.mp h
      rw [List.mapM_cons, expandInstruction_of_untouched (Bool.not_eq_true _ ▸ hi), ih hl]
      rfl

/-- A block that is carried over is the block that its instructions expand to. -/
theorem expandBlock_eq_bind (b : Block) : expandBlock selection slots backups b =
    b.instructions.mapM (expandInstruction selection slots backups) >>= fun pieces =>
      pure { b with instructions := pieces.flatten } := by
  rw [expandBlock]
  cases htouched : b.instructions.any (touchesSpill slots) with
  | true => rfl
  | false =>
      have hflatten : (b.instructions.map fun i => [i]).flatten = b.instructions := by
        rw [← List.flatMap_def, List.flatMap_singleton']
      rw [mapM_expandInstruction_of_untouched (List.any_eq_false.mp htouched)]
      exact congrArg (fun l => Except.ok { b with instructions := l }) hflatten.symm

/-- Among the given registers, those with a slot are replaced by backup registers,
each by another one. -/
structure Substitutes (slots : InsertionMap VirtualRegister FrameSlot)
    (backups : List HardwareRegister) (used : List Register) (backup : Register → Register) :
    Prop where
  kept : ∀ r, slot? slots r = none → backup r = r
  moved : ∀ r ∈ used, ∀ s, slot? slots r = some s → ∃ b ∈ backups, backup r = .fixed b
  injective : ∀ r ∈ used, ∀ q ∈ used, ∀ s t, slot? slots r = some s → slot? slots q = some t →
    backup r = backup q → r = q

theorem substitutes_zip {used : List Register} {chosen : InsertionSet Register}
    {free : List HardwareRegister}
    (hchosen : ∀ r, r ∈ chosen ↔ r ∈ used ∧ ∃ s, slot? slots r = some s)
    (hfree : ∀ b ∈ free, b ∈ backups) (hnodup : free.Nodup)
    (hlength : chosen.size ≤ free.length) :
    Substitutes slots backups used
      (substitute (.ofList (chosen.toList.zip (free.map .fixed)))) := by
  have hkeys : (chosen.toList.zip (free.map Register.fixed)).map Prod.fst = chosen.toList :=
    List.map_fst_zip (by simpa [InsertionSet.size] using hlength)
  have hpair : ∀ r ∈ used, ∀ s, slot? slots r = some s →
      ∃ (k : Nat) (b : HardwareRegister), chosen.toList[k]? = some r ∧ free[k]? = some b ∧
        substitute (.ofList (chosen.toList.zip (free.map .fixed))) r = .fixed b := by
    intro r hr s hs
    have hmem : r ∈ (chosen.toList.zip (free.map Register.fixed)).map Prod.fst := by
      rw [hkeys]
      exact (hchosen r).mpr ⟨hr, s, hs⟩
    obtain ⟨⟨_, q⟩, hq, rfl⟩ := List.mem_map.mp hmem
    obtain ⟨k, hk⟩ := List.mem_iff_getElem?.mp hq
    obtain ⟨hk₁, hk₂⟩ := List.getElem?_zip_eq_some.mp hk
    rw [List.getElem?_map, Option.map_eq_some_iff] at hk₂
    obtain ⟨b, hb, rfl⟩ := hk₂
    have hget := InsertionMap.get?_ofList_of_mem (hkeys.symm ▸ chosen.nodup) hq
    exact ⟨k, b, hk₁, hb, by simp [substitute, hget]⟩
  constructor
  case kept =>
    intro r hr
    have hnot : ¬ r ∈ (chosen.toList.zip (free.map Register.fixed)).map Prod.fst := by
      rw [hkeys]
      intro hmem
      obtain ⟨-, s, hs⟩ := (hchosen r).mp hmem
      simp [hr] at hs
    simp [substitute, InsertionMap.get?_ofList_of_not_mem hnot]
  case moved =>
    intro r hr s hs
    obtain ⟨k, b, -, hb, heq⟩ := hpair r hr s hs
    exact ⟨b, hfree b (List.mem_of_getElem? hb), heq⟩
  case injective =>
    intro r hr q hq s t hs ht heq
    obtain ⟨k, b, hk, hb, hr⟩ := hpair r hr s hs
    obtain ⟨m, d, hm, hd, hq⟩ := hpair q hq t ht
    rw [hr, hq, Register.fixed.injEq] at heq
    subst heq
    obtain rfl : k = m :=
      (List.getElem?_inj (List.getElem?_eq_some_iff.mp hb).1 hnodup).mp (hb.trans hd.symm)
    exact Option.some.inj (hk.symm.trans hm)

/-- The loads of the spilled registers that an instruction reads. -/
def loads (selection : Selection Tree) (slots : InsertionMap VirtualRegister FrameSlot)
    (backup : Register → Register) (i : Instruction) : List Instruction :=
  transfers selection slots (fun r s => .load (backup r) s) (spilledAmong slots i.reads)

/-- The stores of the spilled registers that an instruction writes. -/
def stores (selection : Selection Tree) (slots : InsertionMap VirtualRegister FrameSlot)
    (backup : Register → Register) (i : Instruction) : List Instruction :=
  transfers selection slots (fun r s => .store s (backup r)) (spilledAmong slots i.writes)

theorem isRedundant_eq_true :
    isRedundant slots i = true ↔ ∃ c s, i.copy? = some c ∧
      slot? slots c.into = some s ∧ slot? slots c.source = some s := by
  unfold isRedundant
  cases i.copy? with
  | none => simp
  | some c =>
      cases slot? slots c.into <;> cases slot? slots c.source <;> grind

/-- The code for an instruction is empty, if the instruction copies within a slot
and uses a spilled register; otherwise it is the instruction on backup registers,
between loads and stores. -/
theorem expandInstruction_eq_ok (hbackups : backups.Nodup)
    (h : expandInstruction selection slots backups i = .ok code) :
    (isRedundant slots i = true ∧ code = []) ∨
      ((isRedundant slots i = true → ∀ r ∈ i.reads ++ i.writes, ∀ s, slot? slots r ≠ some s) ∧
        ∃ backup, Substitutes slots backups (i.reads ++ i.writes) backup ∧
          code = loads selection slots backup i ++ [i.map backup] ++
            stores selection slots backup i) := by
  dsimp only [expandInstruction] at h
  split_ifs at h with huntouched hredundant hfew
  · obtain rfl := Except.ok.inj h
    rw [Bool.and_eq_true, InsertionSet.isEmpty, InsertionSet.isEmpty, List.isEmpty_iff,
      List.isEmpty_iff] at huntouched
    have hnone : ∀ r ∈ i.reads ++ i.writes, ∀ s, slot? slots r ≠ some s := by
      intro r hr s hs
      rcases List.mem_append.mp hr with hr | hr
      · have hmem := InsertionSet.mem_iff.mp (mem_spilledAmong.mpr ⟨hr, s, hs⟩)
        simp [huntouched.1] at hmem
      · have hmem := InsertionSet.mem_iff.mp (mem_spilledAmong.mpr ⟨hr, s, hs⟩)
        simp [huntouched.2] at hmem
    refine .inr ⟨fun _ => hnone, id, ⟨fun _ _ => rfl, ?_, ?_⟩, ?_⟩
    · exact fun r hr s hs => absurd hs (hnone r hr s)
    · exact fun r hr q _ s t hs => absurd hs (hnone r hr s)
    · simp [loads, stores, transfers, huntouched.1, huntouched.2, Instruction.map_id]
  · exact .inl ⟨hredundant, (Except.ok.inj h).symm⟩
  · obtain rfl := Except.ok.inj h
    refine .inr ⟨fun htrue => absurd htrue hredundant, _, substitutes_zip ?_ ?_ ?_ ?_, rfl⟩
    · intro r
      rw [InsertionSet.mem_insertAll, ← InsertionSet.mem_iff, mem_spilledAmong, mem_spilledAmong,
        List.mem_append, or_and_right]
    · exact fun b hb => List.mem_of_mem_filter hb
    · exact hbackups.filter _
    · exact Nat.not_lt.mp hfew

/-- A pure copy within a slot uses spilled registers, so there is no code for it. -/
theorem expandInstruction_cases (hpure : i.CopyIsPure) (hbackups : backups.Nodup)
    (h : expandInstruction selection slots backups i = .ok code) :
    (isRedundant slots i = true ∧ code = []) ∨
      (isRedundant slots i = false ∧ ∃ backup,
        Substitutes slots backups (i.reads ++ i.writes) backup ∧
        code = loads selection slots backup i ++ [i.map backup] ++
          stores selection slots backup i) := by
  rcases expandInstruction_eq_ok hbackups h with hempty | ⟨hnone, hcode⟩
  · exact .inl hempty
  · refine .inr ⟨Bool.eq_false_iff.mpr fun htrue => ?_, hcode⟩
    obtain ⟨c, s, hc, hs, -⟩ := isRedundant_eq_true.mp htrue
    have hinto : c.into ∈ i.writes := ((hpure c hc).2 c.into).mpr rfl
    exact hnone htrue c.into (List.mem_append_right _ hinto) s hs

/-! ## The effect of loads and stores -/

section Updates

variable {α K V : Type*} [DecidableEq K] {key : α → K} {value : α → V} {l : List α} {file : K → V}

theorem foldl_update_of_not_mem {k : K} (hk : ∀ b ∈ l, key b ≠ k) :
    l.foldl (fun file a => Function.update file (key a) (value a)) file k = file k := by
  induction l generalizing file with
  | nil => rfl
  | cons b l ih =>
      rw [List.forall_mem_cons] at hk
      rw [List.foldl_cons, ih hk.2, Function.update_of_ne hk.1.symm]

theorem foldl_update_of_mem {a : α} (ha : a ∈ l) (hkey : ∀ b ∈ l, key b = key a → b = a) :
    l.foldl (fun file a => Function.update file (key a) (value a)) file (key a) = value a := by
  induction l generalizing file with
  | nil => simp at ha
  | cons b l ih =>
      rw [List.forall_mem_cons] at hkey
      by_cases hmem : a ∈ l
      · exact ih hmem hkey.2
      · obtain rfl := (List.mem_cons.mp ha).resolve_right hmem
        have hrest : ∀ b ∈ l, key b ≠ key a := fun b hb h => hmem (hkey.2 b hb h ▸ hb)
        rw [List.foldl_cons, foldl_update_of_not_mem hrest, Function.update_self]

end Updates

variable {L : Type v} [DecidableEq L] {Value : Type w} {Env : Type*}
  {interpret : Interpretation Value Env} {name : Register → L}

/-- The slot of a register; only registers that have one matter. -/
def slotOf (slots : InsertionMap VirtualRegister FrameSlot) (r : Register) : FrameSlot :=
  (slot? slots r).getD default

theorem slotOf_eq {s : FrameSlot} (hs : slot? slots r = some s) : slotOf slots r = s := by
  simp [slotOf, hs]

theorem executeAll_transfers (hexact : selection.TransfersExactly interpret name)
    {transfer : Register → FrameSlot → Transfer} {registers : List Register}
    (t : MachineState L Value (Stack Value Env)) :
    executeAll (withStack interpret) name
        (transfers selection slots transfer (spilledAmong slots registers)) t =
      (spilledAmong slots registers).toList.foldl
        (fun t r => transferTo name (transfer r (slotOf slots r)) t) t := by
  have hslot : ∀ r ∈ (spilledAmong slots registers).toList, ∃ s, slot? slots r = some s :=
    fun r hr => (mem_spilledAmong.mp hr).2
  unfold transfers
  revert hslot
  generalize (spilledAmong slots registers).toList = l
  intro hslot
  induction l generalizing t with
  | nil => rfl
  | cons r l ih =>
      rw [List.forall_mem_cons] at hslot
      obtain ⟨s, hs⟩ := hslot.1
      rw [List.flatMap_cons, executeAll_append, hs, hexact, List.foldl_cons, slotOf_eq hs,
        ih _ hslot.2]

theorem executeAll_loads (hexact : selection.TransfersExactly interpret name)
    (t : MachineState L Value (Stack Value Env)) :
    executeAll (withStack interpret) name (loads selection slots backup i) t =
      { t with
        registers := (spilledAmong slots i.reads).toList.foldl
          (fun file r => Function.update file (name (backup r))
            (t.env.memory (slotOf slots r).offset))
          t.registers } := by
  rw [loads, executeAll_transfers hexact]
  refine List.foldl_hom (fun file => MachineState.mk file t.env) fun file r => ?_
  rfl

theorem executeAll_stores (hexact : selection.TransfersExactly interpret name)
    (t : MachineState L Value (Stack Value Env)) :
    executeAll (withStack interpret) name (stores selection slots backup i) t =
      { t with
        env.memory := (spilledAmong slots i.writes).toList.foldl
          (fun memory r => Function.update memory (slotOf slots r).offset
            (t.registers (name (backup r))))
          t.env.memory } := by
  rw [stores, executeAll_transfers hexact]
  refine List.foldl_hom (fun memory => MachineState.mk t.registers (Stack.mk memory t.env.rest))
    fun memory r => ?_
  rfl

/-! ## Values and their homes -/

/-- Where a register is kept: in the register of its name, or on the stack. -/
def home (slots : InsertionMap VirtualRegister FrameSlot) (name : Register → L) (r : Register) :
    L ⊕ Int :=
  match slot? slots r with
  | some s => .inr s.offset
  | none => .inl (name r)

/-- What a machine has in a register or on the stack. -/
def contents (t : MachineState L Value (Stack Value Env)) : L ⊕ Int → Value
  | .inl l => t.registers l
  | .inr offset => t.env.memory offset

omit [DecidableEq L] in
theorem contents_home_of_slot (name : Register → L) {s : FrameSlot}
    (hs : slot? slots r = some s) (t : MachineState L Value (Stack Value Env)) :
    contents t (home slots name r) = t.env.memory s.offset := by
  simp [home, hs, contents]

omit [DecidableEq L] in
theorem contents_home_of_no_slot (name : Register → L) (hr : slot? slots r = none)
    (t : MachineState L Value (Stack Value Env)) :
    contents t (home slots name r) = t.registers (name r) := by
  simp [home, hr, contents]

/-- The homes of the live registers hold their values, and the stacks agree on what
the code itself keeps there. -/
structure Simulates (slots : InsertionMap VirtualRegister FrameSlot) (own : Int → Prop)
    (name : Register → L) (live : Register → Prop)
    (s : MachineState Register Value (Stack Value Env))
    (t : MachineState L Value (Stack Value Env)) : Prop where
  values : ∀ r, live r → s.registers r = contents t (home slots name r)
  stack : Stack.Agree own s.env t.env

/-- What makes the homes of registers safe. Homes on the stack are apart from what
the code itself keeps there, the backup registers are no homes, and where a
register is written no other one with the same home is live, unless the write is a
copy of it. -/
structure Homes (f : Fragment) (slots : InsertionMap VirtualRegister FrameSlot)
    (backups : List HardwareRegister) (own : Int → Prop) (name : Register → L) : Prop where
  copiesArePure : f.CopiesArePure
  uses : ∀ i ∈ f.instructions, Stack.Uses own i
  fresh : ∀ r s, slot? slots r = some s → ¬ own s.offset
  slot_eq : ∀ r q s t, slot? slots r = some s → slot? slots q = some t →
    s.offset = t.offset → s = t
  backups_nodup : backups.Nodup
  backup_eq : ∀ b ∈ backups, ∀ d ∈ backups, name (.fixed b) = name (.fixed d) → b = d
  backups_apart : ∀ r ∈ Liveness.registers f.points, slot? slots r = none →
    ∀ b ∈ backups, name r ≠ name (.fixed b)
  apart : ∀ p i w r, f.instructionAt? p = some i → w ∈ i.writes → r ∈ f.liveAfter p → r ≠ w →
    home slots name w = home slots name r → i.copy? = some ⟨w, r⟩

section Step

variable {f : Fragment} {p : Position} {own : Int → Prop}
  {s : MachineState Register Value (Stack Value Env)}
  {t : MachineState L Value (Stack Value Env)}

omit [DecidableEq L] in
theorem Simulates.mono {live live' : Register → Prop} (h : Simulates slots own name live s t)
    (hlive : ∀ r, live' r → live r) : Simulates slots own name live' s t :=
  ⟨fun r hr => h.values r (hlive r hr), h.stack⟩

omit [DecidableEq L] in
/-- Registers in use that share a backup register are the same. -/
theorem Homes.eq_of_backup (h : Homes f slots backups own name) {used : List Register}
    (hsub : Substitutes slots backups used backup) {r q : Register} {a b : FrameSlot}
    (hr : r ∈ used) (hq : q ∈ used) (ha : slot? slots r = some a) (hb : slot? slots q = some b)
    (heq : name (backup r) = name (backup q)) : r = q := by
  obtain ⟨c, hc, hrc⟩ := hsub.moved r hr a ha
  obtain ⟨d, hd, hqd⟩ := hsub.moved q hq b hb
  rw [hrc, hqd] at heq
  exact hsub.injective r hr q hq a b ha hb (by rw [hrc, hqd, h.backup_eq c hc d hd heq])

omit [DecidableEq L] in
/-- A register that keeps its place shares it with no backup register in use. -/
theorem Homes.ne_of_backup (h : Homes f slots backups own name) {used : List Register}
    (hsub : Substitutes slots backups used backup) {r q : Register} {b : FrameSlot}
    (hr : r ∈ Liveness.registers f.points) (hnone : slot? slots r = none) (hq : q ∈ used)
    (hb : slot? slots q = some b) : name r ≠ name (backup q) := by
  obtain ⟨d, hd, hqd⟩ := hsub.moved q hq b hb
  rw [hqd]
  exact h.backups_apart r hr hnone d hd

omit [DecidableEq L] in
/-- Where an instruction on backup registers writes a register, it overwrites no
other that is needed in its place, unless it is a copy of that one. -/
theorem Homes.copies_of_backup_eq (h : Homes f slots backups own name)
    (hsub : Substitutes slots backups (i.reads ++ i.writes) backup)
    (hi : f.instructionAt? p = some i) {w r : Register} (hw : w ∈ i.writes)
    (hr : r ∈ f.liveAfter p ∧ slot? slots r = none ∨ r ∈ i.writes) (hne : r ≠ w)
    (hshared : name (backup w) = name (backup r)) : i.copy? = some ⟨w, r⟩ := by
  have hafter : r ∈ f.liveAfter p := hr.elim And.left (Fragment.mem_liveAfter_of_write hi)
  have hafterw : w ∈ f.liveAfter p := Fragment.mem_liveAfter_of_write hi hw
  have hwused : w ∈ i.reads ++ i.writes := List.mem_append_right _ hw
  have hrused : slot? slots r ≠ none → r ∈ i.reads ++ i.writes := fun hsome =>
    List.mem_append_right _ (hr.resolve_left fun hnone => hsome hnone.2)
  cases hws : slot? slots w with
  | none =>
      rw [hsub.kept w hws] at hshared
      cases hrs : slot? slots r with
      | none =>
          rw [hsub.kept r hrs] at hshared
          exact h.apart p i w r hi hw hafter hne (by simp [home, hws, hrs, hshared])
      | some b =>
          exact absurd hshared (h.ne_of_backup hsub
            (Fragment.mem_registers_of_mem_liveAfter hafterw) hws (hrused (by simp [hrs])) hrs)
  | some a =>
      cases hrs : slot? slots r with
      | none =>
          rw [hsub.kept r hrs] at hshared
          exact absurd hshared.symm (h.ne_of_backup hsub
            (Fragment.mem_registers_of_mem_liveAfter hafter) hrs hwused hws)
      | some b =>
          exact absurd (h.eq_of_backup hsub hwused (hrused (by simp [hrs])) hws hrs
            hshared).symm hne

/-- After the loads, what an instruction reads is where it will read it, and
registers that are not spilled are as before. -/
theorem Simulates.after_loads (h : Homes f slots backups own name)
    (hexact : selection.TransfersExactly interpret name)
    (hsub : Substitutes slots backups (i.reads ++ i.writes) backup)
    (hi : f.instructionAt? p = some i) (hsim : Simulates slots own name (f.LiveAt · p) s t)
    (hr : f.LiveAt r p ∧ slot? slots r = none ∨ r ∈ i.reads) :
    s.registers r = (executeAll (withStack interpret) name
      (loads selection slots backup i) t).registers (name (backup r)) := by
  have hlive : f.LiveAt r p := hr.elim And.left (Fragment.liveAt_of_read hi)
  have hspilled : ∀ q ∈ (spilledAmong slots i.reads).toList,
      q ∈ i.reads ++ i.writes ∧ ∃ b, slot? slots q = some b := fun q hq =>
    (mem_spilledAmong.mp hq).imp_left (List.mem_append_left _)
  rw [executeAll_loads hexact, hsim.values r hlive]
  dsimp only
  cases hslot : slot? slots r with
  | none =>
      rw [contents_home_of_no_slot name hslot, hsub.kept r hslot, foldl_update_of_not_mem]
      intro q hq
      obtain ⟨hused, b, hb⟩ := hspilled q hq
      exact (h.ne_of_backup hsub hlive.mem_registers hslot hused hb).symm
  | some a =>
      have hread : r ∈ i.reads := hr.resolve_left fun hnone => by simp [hslot] at hnone
      rw [contents_home_of_slot name hslot, foldl_update_of_mem (a := r), slotOf_eq hslot]
      · exact mem_spilledAmong.mpr ⟨hread, a, hslot⟩
      · intro q hq heq
        obtain ⟨hused, b, hb⟩ := hspilled q hq
        exact h.eq_of_backup hsub hused (List.mem_append_left _ hread) hb hslot heq

omit [DecidableEq L] in
/-- A copy within a slot changes nothing that is on the stack. -/
theorem Simulates.after_redundant_copy (h : Homes f slots backups own name)
    (hi : f.instructionAt? p = some i) (hredundant : isRedundant slots i = true)
    (hsim : Simulates slots own name (f.LiveAt · p) s t) :
    Simulates slots own name (· ∈ f.liveAfter p)
      (execute (withStack interpret) id i s) t := by
  obtain ⟨c, a, hc, hinto, hsource⟩ := isRedundant_eq_true.mp hredundant
  obtain ⟨hreads, hwrites⟩ :=
    h.copiesArePure i (Fragment.mem_instructions_of_instructionAt? hi) c hc
  rw [execute_of_copy hc]
  refine ⟨fun r hr => ?_, hsim.stack⟩
  by_cases hr' : r = c.into
  · have hvalue := hsim.values c.source (Fragment.liveAt_of_read hi ((hreads _).mpr rfl))
    rw [hr', contents_home_of_slot name hinto, ← contents_home_of_slot name hsource, ← hvalue]
    simp
  · have hnot : ¬ r ∈ i.writes := fun hw => hr' ((hwrites r).mp hw)
    have hvalue := hsim.values r (Fragment.liveAt_of_mem_liveAfter hi hr hnot)
    simpa [Function.update_of_ne hr'] using hvalue

omit [DecidableEq L] in
/-- What is written to the slot of a live register is that register, or a copy of it
that has the same slot. -/
theorem Homes.copies_of_offset_eq (h : Homes f slots backups own name)
    (hi : f.instructionAt? p = some i) {q r : Register} {a : FrameSlot} (hr : r ∈ f.liveAfter p)
    (hslot : slot? slots r = some a) (hq : q ∈ (spilledAmong slots i.writes).toList)
    (hne : q ≠ r) (hoffset : (slotOf slots q).offset = a.offset) :
    i.copy? = some ⟨q, r⟩ ∧ slot? slots q = some a := by
  obtain ⟨hw, b, hb⟩ := mem_spilledAmong.mp hq
  rw [slotOf_eq hb] at hoffset
  have hhome : home slots name q = home slots name r := by simp [home, hb, hslot, hoffset]
  obtain rfl := h.slot_eq q r b a hb hslot hoffset
  exact ⟨h.apart p i q r hi hw hr hne.symm hhome, hb⟩

/-- Loads, the instruction on backup registers, and stores leave the values of the
live registers in their homes. -/
theorem Simulates.after_spill_code (h : Homes f slots backups own name)
    (hexact : selection.TransfersExactly interpret name)
    (hsub : Substitutes slots backups (i.reads ++ i.writes) backup)
    (hi : f.instructionAt? p = some i) (hredundant : isRedundant slots i = false)
    (hsim : Simulates slots own name (f.LiveAt · p) s t) :
    Simulates slots own name (· ∈ f.liveAfter p) (execute (withStack interpret) id i s)
      (executeAll (withStack interpret) name
        (loads selection slots backup i ++ [i.map backup] ++ stores selection slots backup i)
        t) := by
  have hmem := Fragment.mem_instructions_of_instructionAt? hi
  have hpure := h.copiesArePure i hmem
  have huses := h.uses i hmem
  have hneeded := fun r hr =>
    Simulates.after_loads (r := r) h hexact hsub hi hsim hr
  rw [executeAll_append, executeAll_append, executeAll_cons, executeAll_nil, execute_map,
    executeAll_stores hexact]
  generalize hloaded :
    executeAll (withStack interpret) name (loads selection slots backup i) t = t₁ at hneeded ⊢
  have henv : t₁.env = t.env := by rw [← hloaded, executeAll_loads hexact]
  have hvalues : valuesRead id i s = valuesRead (name ∘ backup) i t₁ :=
    valuesRead_eq fun r hr => hneeded r (.inr hr)
  have hstack : Stack.Agree own s.env t₁.env := henv ▸ hsim.stack
  have hafter : ∀ r, r ∈ f.liveAfter p ∧ slot? slots r = none ∨ r ∈ i.writes →
      r ∈ i.writes ∨ f.LiveAt r p ∧ slot? slots r = none ∨ r ∈ i.reads := by
    intro r hr
    refine (em (r ∈ i.writes)).imp_right fun hw => .inl ?_
    obtain ⟨hafter, hnone⟩ := hr.resolve_right hw
    exact ⟨Fragment.liveAt_of_mem_liveAfter hi hafter hw, hnone⟩
  have houtput : (withStack interpret i.shape (valuesRead id i s) s.env).1 =
      (withStack interpret i.shape (valuesRead (name ∘ backup) i t₁) t₁.env).1 := by
    rw [hvalues]
    exact (hstack.withStack huses.shape _).1
  have hcore : ∀ r, r ∈ f.liveAfter p ∧ slot? slots r = none ∨ r ∈ i.writes →
      (execute (withStack interpret) id i s).registers r =
        (execute (withStack interpret) (name ∘ backup) i t₁).registers (name (backup r)) :=
    fun r hr => execute_keeps_values hpure hneeded (fun _ => .inr) hafter
      (fun w hw r hr => h.copies_of_backup_eq hsub hi hw hr) houtput hr
  have hstack₂ : Stack.Agree own (execute (withStack interpret) id i s).env
      (execute (withStack interpret) (name ∘ backup) i t₁).env :=
    execute_agree huses hvalues hstack
  have hkept : ∀ o, ¬ own o → (execute (withStack interpret) (name ∘ backup) i t₁).env.memory o =
      t.env.memory o := by
    intro o ho
    rw [execute_memory_of_not_own huses ho, henv]
  generalize execute (withStack interpret) (name ∘ backup) i t₁ = t₂ at hcore hstack₂ hkept ⊢
  constructor
  case values =>
    intro r hr
    cases hslot : slot? slots r with
    | none =>
        rw [contents_home_of_no_slot name hslot, hcore r (.inl ⟨hr, hslot⟩), hsub.kept r hslot]
    | some a =>
        rw [contents_home_of_slot name hslot]
        dsimp only
        by_cases hw : r ∈ i.writes
        · rw [hcore r (.inr hw), ← slotOf_eq hslot, foldl_update_of_mem]
          · exact mem_spilledAmong.mpr ⟨hw, a, hslot⟩
          · intro q hq hoffset
            by_contra hne
            obtain ⟨hc, -⟩ :=
              h.copies_of_offset_eq hi hr hslot hq hne (slotOf_eq hslot ▸ hoffset)
            exact hne (((hpure _ hc).2 r).mp hw).symm
        · rw [foldl_update_of_not_mem, hkept a.offset (h.fresh r a hslot),
            ← contents_home_of_slot name hslot,
            ← hsim.values r (Fragment.liveAt_of_mem_liveAfter hi hr hw)]
          · refine execute_registers_of_not_written hpure (fun w hw' heq => hw ?_) s
            exact (show w = r from heq) ▸ hw'
          · intro q hq hoffset
            have hne : q ≠ r := fun heq => hw (heq ▸ (mem_spilledAmong.mp hq).1)
            obtain ⟨hc, hq'⟩ := h.copies_of_offset_eq hi hr hslot hq hne hoffset
            have htrue := isRedundant_eq_true.mpr ⟨_, a, hc, hq', hslot⟩
            simp [hredundant] at htrue
  case stack =>
    refine ⟨fun o ho => ?_, hstack₂.rest⟩
    dsimp only
    rw [foldl_update_of_not_mem, hstack₂.memory o ho]
    intro q hq hoffset
    obtain ⟨-, b, hb⟩ := mem_spilledAmong.mp hq
    rw [slotOf_eq hb] at hoffset
    exact h.fresh q b hb (hoffset ▸ ho)

/-- The code for an instruction keeps the values of the live registers in their
homes. -/
theorem Simulates.after_code (h : Homes f slots backups own name)
    (hexact : selection.TransfersExactly interpret name) (hi : f.instructionAt? p = some i)
    (hcode : expandInstruction selection slots backups i = .ok code)
    (hsim : Simulates slots own name (f.LiveAt · p) s t) :
    Simulates slots own name (f.LiveAt · p.next) (execute (withStack interpret) id i s)
      (executeAll (withStack interpret) name code t) := by
  have hpure := h.copiesArePure i (Fragment.mem_instructions_of_instructionAt? hi)
  have hnext : ∀ r, f.LiveAt r p.next → r ∈ f.liveAfter p := fun r hr => hr.mem_liveAfter hi
  rcases expandInstruction_cases hpure h.backups_nodup hcode with
    ⟨hredundant, rfl⟩ | ⟨hredundant, backup, hsub, rfl⟩
  · exact (hsim.after_redundant_copy h hi hredundant).mono hnext
  · exact (hsim.after_spill_code h hexact hsub hi hredundant).mono hnext

end Step

end Spill

end Lowering
