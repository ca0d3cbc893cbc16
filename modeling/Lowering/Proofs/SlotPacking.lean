import Lowering.Proofs.SpillRun

/-!
# A frame grows by the slots that are used

The colors of spilled registers are noted in the order of their first use, and the
frame hands out one slot for each. So what the frame gains are the slots of the spilled
registers, each once, in the order of their first use. This is settled before any
instruction is looked at: if there turns out to be no code for an instruction, the slots
stay taken.
-/

namespace Lowering

universe u

/-- What is added to a map under a new key stands at its end. -/
theorem InsertionMap.entries_insert_of_not_mem {κ α : Type*} [DecidableEq κ]
    {m : InsertionMap κ α} {k : κ} (hk : ¬ k ∈ m) (a : α) :
    (m.insert k a).entries = m.entries ++ [(k, a)] := by
  have hkept : (m.entries.filter fun e => decide (e.1 ≠ k)) = m.entries := by
    refine List.filter_eq_self.mpr fun e he => decide_eq_true fun heq => hk ?_
    exact heq ▸ List.mem_map_of_mem he
  exact congrArg (· ++ [(k, a)]) hkept

theorem InsertionMap.keys_insert_of_not_mem {κ α : Type*} [DecidableEq κ]
    {m : InsertionMap κ α} {k : κ} (hk : ¬ k ∈ m) (a : α) :
    (m.insert k a).keys = m.keys.insert k := by
  ext1
  rw [InsertionSet.toList_insert_of_not_mem hk]
  exact (congrArg _ (entries_insert_of_not_mem hk a)).trans List.map_append

theorem InsertionMap.map_snd_ofPartial {κ α : Type*} [DecidableEq κ] (s : InsertionSet κ)
    (f : κ → Option α) : (ofPartial s f).entries.map Prod.snd = s.toList.filterMap f := by
  simp [ofPartial, List.map_filterMap, Function.comp_def]

/-- A function that tells the elements of a list apart keeps the order of their first
occurrence. -/
theorem InsertionSet.toList_insertAll_map {α β : Type*} [DecidableEq α] [DecidableEq β]
    {f : α → β} {s : InsertionSet α} {t : InsertionSet β} {l : List α}
    (hst : t.toList = s.toList.map f)
    (hinj : ∀ a ∈ s.toList ++ l, ∀ b ∈ s.toList ++ l, f a = f b → a = b) :
    (t.insertAll (l.map f)).toList = (s.insertAll l).toList.map f := by
  induction l generalizing s t with
  | nil => exact hst
  | cons a l ih =>
      have hmem : f a ∈ t ↔ a ∈ s := by
        rw [mem_iff, hst, List.mem_map, mem_iff]
        constructor
        · rintro ⟨b, hb, heq⟩
          exact hinj b (by simp [hb]) a (by simp) heq ▸ hb
        · exact fun ha => ⟨a, ha, rfl⟩
      rw [List.map_cons, insertAll_cons, insertAll_cons]
      by_cases ha : a ∈ s
      · have hsub : s.toList ++ l ⊆ s.toList ++ a :: l :=
          ((List.sublist_cons_self a l).append_left s.toList).subset
        rw [insert_of_mem (hmem.mpr ha), insert_of_mem ha]
        exact ih hst fun b hb c hc => hinj b (hsub hb) c (hsub hc)
      · have hs := toList_insert_of_not_mem ha
        refine ih ?_ ?_
        · rw [toList_insert_of_not_mem (mt hmem.mp ha), hs, hst, List.map_append]
          rfl
        · rw [hs, List.append_assoc]
          exact hinj

namespace Spill

variable {frame frame' : Frame} {x : Interaction} {spilled : InsertionSet VirtualRegister}
  {colors : InsertionMap VirtualRegister Nat} {found found' : InsertionMap Nat Bool}
  {slots : InsertionMap VirtualRegister FrameSlot} {v : VirtualRegister}

/-! ## Slots in the order of first use -/

/-- The slots that registers have, each once, in the order of first use. -/
def usedSlots (slots : InsertionMap VirtualRegister FrameSlot) : InsertionSet FrameSlot :=
  .ofList (slots.entries.map Prod.snd)

/-- A new color is noted after all the others. -/
theorem keys_of_addKind (h : addKind colors found v = .ok found') :
    ∃ c, colors.get? v = some c ∧ found'.keys = found.keys.insert c := by
  unfold addKind at h
  split at h
  · simp at h
  next c hc =>
  refine ⟨c, hc, ?_⟩
  split at h
  next hnone =>
    obtain rfl := Except.ok.inj h
    exact InsertionMap.keys_insert_of_not_mem (InsertionMap.get?_eq_none.mp hnone) _
  next kind hkind =>
    split_ifs at h
    obtain rfl := Except.ok.inj h
    exact (InsertionSet.insert_of_mem (InsertionMap.mem_iff_exists_get?.mpr ⟨_, hkind⟩)).symm

theorem keys_of_foldlM_addKind {l : List VirtualRegister}
    (h : l.foldlM (addKind colors) found = .ok found') :
    found'.keys = found.keys.insertAll (l.filterMap colors.get?) := by
  induction l generalizing found with
  | nil =>
      obtain rfl := Except.ok.inj h
      rfl
  | cons v l ih =>
      rw [List.foldlM_cons, bind_eq_ok_iff] at h
      obtain ⟨next, hv, h⟩ := h
      obtain ⟨c, hc, hkeys⟩ := keys_of_addKind hv
      rw [ih h, hkeys, List.filterMap_cons_some hc, InsertionSet.insertAll_cons]

/-- The colors are noted in the order of their first use. -/
theorem keys_of_kinds (h : kinds colors spilled = .ok found) :
    found.keys = .ofList (spilled.toList.filterMap colors.get?) :=
  keys_of_foldlM_addKind h

/-- Slots were taken for colors, one below the other in the order of the colors, and
nothing else happened to the frame. -/
structure TakenInOrder (frame : Frame) (colors : List Nat) (frame' : Frame)
    (taken : List (Nat × FrameSlot)) : Prop where
  colors_eq : taken.map Prod.fst = colors
  slots_eq : frame'.slots = frame.slots ++ taken.map Prod.snd
  offset_eq : frame'.offset = frame.offset - Frame.slotSize * colors.length
  offset_getElem : ∀ (k : Nat) s, (taken.map Prod.snd)[k]? = some s →
    s.offset = frame.offset - Frame.slotSize * (k + 1)

theorem TakenInOrder.nil (frame : Frame) : TakenInOrder frame [] frame [] :=
  ⟨rfl, by simp, by simp, fun _ _ h => by simp at h⟩

theorem TakenInOrder.cons {colors : List Nat} {taken : List (Nat × FrameSlot)} {kind : Bool}
    (h : TakenInOrder (frame.extend kind) colors frame' taken) (c : Nat) :
    TakenInOrder frame (c :: colors) frame' ((c, frame.nextSlot kind) :: taken) := by
  have hoffset : (frame.extend kind).offset = frame.offset - Frame.slotSize := rfl
  have hnext : (frame.nextSlot kind).offset = frame.offset - Frame.slotSize := rfl
  constructor
  case colors_eq => rw [List.map_cons, h.colors_eq]
  case slots_eq =>
    rw [h.slots_eq]
    simp [Frame.extend]
  case offset_eq =>
    rw [h.offset_eq, hoffset, List.length_cons, Frame.slotSize]
    omega
  case offset_getElem =>
    intro k s hs
    rw [Frame.slotSize] at *
    cases k with
    | zero =>
        rw [← Option.some.inj hs]
        exact hnext.trans (by omega)
    | succ k =>
        have := h.offset_getElem k s hs
        rw [hoffset, Frame.slotSize] at this
        omega

theorem foldl_takenInOrder {l : List (Nat × Bool)} {slots : InsertionMap Nat FrameSlot}
    (hnodup : (l.map Prod.fst).Nodup) (hnew : ∀ c ∈ l.map Prod.fst, ¬ c ∈ slots) :
    ∃ taken, TakenInOrder frame (l.map Prod.fst)
        (l.foldl (fun s e => (s.1.extend e.2, s.2.insert e.1 (s.1.nextSlot e.2)))
          (frame, slots)).1 taken ∧
      (l.foldl (fun s e => (s.1.extend e.2, s.2.insert e.1 (s.1.nextSlot e.2)))
        (frame, slots)).2.entries = slots.entries ++ taken := by
  induction l generalizing frame slots with
  | nil => exact ⟨[], .nil frame, by simp⟩
  | cons e l ih =>
      rw [List.map_cons, List.nodup_cons] at hnodup
      rw [List.map_cons, List.forall_mem_cons] at hnew
      have hrest : ∀ c ∈ l.map Prod.fst, ¬ c ∈ slots.insert e.1 (frame.nextSlot e.2) := by
        intro c hc hmem
        rcases InsertionMap.mem_insert.mp hmem with rfl | hmem
        · exact hnodup.1 hc
        · exact hnew.2 c hc hmem
      obtain ⟨taken, htaken, hentries⟩ := ih hnodup.2 hrest
      refine ⟨(e.1, frame.nextSlot e.2) :: taken, htaken.cons e.1, ?_⟩
      rw [List.foldl_cons, hentries, InsertionMap.entries_insert_of_not_mem hnew.1]
      simp

/-- One slot is taken for each color. -/
theorem takenInOrder_takeSlots (frame : Frame) (found : InsertionMap Nat Bool) :
    TakenInOrder frame found.keys.toList (takeSlots frame found).1
      (takeSlots frame found).2.entries := by
  have hnew : ∀ c ∈ found.entries.map Prod.fst, ¬ c ∈ (∅ : InsertionMap Nat FrameSlot) :=
    fun c _ => InsertionSet.not_mem_empty c
  obtain ⟨taken, htaken, hentries⟩ := foldl_takenInOrder found.nodup hnew
  have heq : (takeSlots frame found).2.entries = taken := hentries
  rw [heq]
  exact htaken

/-- The spilled registers have slots, in their order. -/
theorem keys_of_assignSlots {solver : Solver VirtualRegister Nat}
    (h : assignSlots solver frame x spilled = .ok (frame', slots)) : slots.keys = spilled := by
  have hmem := mem_of_assignSlots h
  obtain ⟨colors, found, -, -, -, rfl⟩ := assignSlots_cases h
  ext1
  refine (InsertionMap.map_fst_filterMap _ _).trans (List.filter_eq_self.mpr fun v hv => ?_)
  obtain ⟨s, hs⟩ := InsertionMap.mem_iff_exists_get?.mp ((hmem v).mpr hv)
  rw [InsertionMap.get?_ofPartial, if_pos (InsertionSet.mem_iff.mpr hv)] at hs
  exact Option.isSome_iff_exists.mpr ⟨s, hs⟩

/-- What was taken from the frame are the slots that are used. -/
theorem usedSlots_of_takeSlots (hfound : kinds colors spilled = .ok found) :
    (usedSlots (.ofPartial spilled fun v =>
      (colors.get? v).bind (takeSlots frame found).2.get?)).toList =
        (takeSlots frame found).2.entries.map Prod.snd := by
  obtain ⟨htaken, hall⟩ := taken_takeSlots frame found
  have hkeys := (takenInOrder_takeSlots frame found).colors_eq
  generalize (takeSlots frame found).2 = taken at htaken hall hkeys ⊢
  have hcolor : ∀ c ∈ spilled.toList.filterMap colors.get?, ∃ s, taken.get? c = some s := by
    intro c hc
    apply InsertionMap.mem_iff_exists_get?.mp
    apply hall
    rw [InsertionMap.mem_iff_mem_keys, keys_of_kinds hfound]
    exact InsertionSet.mem_ofList.mpr hc
  have hslots : (InsertionMap.ofPartial spilled fun v =>
      (colors.get? v).bind taken.get?).entries.map Prod.snd =
        (spilled.toList.filterMap colors.get?).map fun c => (taken.get? c).getD default := by
    have hsome : ∀ c ∈ spilled.toList.filterMap colors.get?,
        taken.get? c = some ((taken.get? c).getD default) := by
      intro c hc
      obtain ⟨s, hs⟩ := hcolor c hc
      simp [hs]
    rw [InsertionMap.map_snd_ofPartial, ← List.filterMap_filterMap, List.filterMap_congr hsome]
    exact congrFun List.filterMap_eq_map _
  have hinj : ∀ c ∈ [] ++ spilled.toList.filterMap colors.get?,
      ∀ d ∈ [] ++ spilled.toList.filterMap colors.get?,
        (taken.get? c).getD default = (taken.get? d).getD default → c = d := by
    intro c hc d hd heq
    obtain ⟨s, hs⟩ := hcolor c hc
    obtain ⟨t, ht⟩ := hcolor d hd
    rw [hs, ht, Option.getD_some, Option.getD_some] at heq
    exact htaken.color_eq c d s t hs ht (congrArg _ heq)
  have hempty : (∅ : InsertionSet FrameSlot).toList = ((∅ : InsertionSet Nat).toList.map
      fun c => (taken.get? c).getD default) := rfl
  rw [usedSlots, hslots, InsertionSet.ofList, InsertionSet.toList_insertAll_map hempty hinj,
    ← InsertionSet.ofList, ← keys_of_kinds hfound, ← hkeys, List.map_map]
  refine List.map_congr_left fun e he => ?_
  simp [InsertionMap.get?_eq_some_iff.mpr he]

/-! ## Packing -/

/-- Slots for spilled registers that a frame has just handed out: one for each color,
one below the other in the order of first use, and nothing else. -/
structure Packing (x : Interaction) (spilled : InsertionSet VirtualRegister)
    (colors : InsertionMap VirtualRegister Nat) (frame frame' : Frame)
    (slots : InsertionMap VirtualRegister FrameSlot) : Prop where
  keys_eq : slots.keys = spilled
  apart : ∀ v w s t, slots.get? v = some s → slots.get? w = some t →
    .virtual w ∈ x.interference.neighbors (.virtual v) ∨
      .virtual v ∈ x.interference.neighbors (.virtual w) ∨
      v.holdsReference ≠ w.holdsReference →
    s.offset ≠ t.offset
  holdsReference_eq : ∀ v s, slots.get? v = some s → s.holdsReference = v.holdsReference
  eq_iff_color_eq : ∀ v w s t, slots.get? v = some s → slots.get? w = some t →
    (s = t ↔ colors.get? v = colors.get? w)
  slots_eq : frame'.slots = frame.slots ++ (usedSlots slots).toList
  offset_eq : frame'.offset = frame.offset - Frame.slotSize * (usedSlots slots).size
  offset_getElem : ∀ (k : Nat) s, (usedSlots slots).toList[k]? = some s →
    s.offset = frame.offset - Frame.slotSize * (k + 1)
  fresh : ∀ s ∈ usedSlots slots, ∀ t ∈ frame.slots, s.offset ≠ t.offset

/-- The slots taken lie between the offsets of the frame before and after. -/
theorem TakenInOrder.bounds {cs : List Nat} {taken : List (Nat × FrameSlot)}
    (h : TakenInOrder frame cs frame' taken) {s : FrameSlot} (hs : s ∈ taken.map Prod.snd) :
    frame'.offset ≤ s.offset ∧ s.offset < frame.offset := by
  obtain ⟨k, hk⟩ := List.mem_iff_getElem?.mp hs
  have hlt : k < cs.length := by
    rw [← h.colors_eq, List.length_map]
    simpa using (List.getElem?_eq_some_iff.mp hk).1
  rw [h.offset_eq, h.offset_getElem k s hk, Frame.slotSize]
  omega

theorem packing_of_assignSlots
    (h : assignSlots Coloring.firstFit frame x spilled = .ok (frame', slots)) :
    ∃ colors, Coloring.firstFit (coloringProblem x spilled) = .ok colors ∧
      Packing x spilled colors frame frame' slots := by
  have hfor := slotsFor_of_assignSlots h
  have hkeys := keys_of_assignSlots h
  have hkind : ∀ v s, slots.get? v = some s → s.holdsReference = v.holdsReference :=
    fun _ _ hs => holdsReference_of_assignSlots h hs
  obtain ⟨colors, found, hcolors, hfound, hframe, hslots⟩ := assignSlots_cases h
  have hused : (usedSlots slots).toList = (takeSlots frame found).2.entries.map Prod.snd :=
    hslots ▸ usedSlots_of_takeSlots hfound
  have hget : ∀ v s, slots.get? v = some s →
      ∃ c, colors.get? v = some c ∧ (takeSlots frame found).2.get? c = some s :=
    fun v s hs => (get?_slots_of_colors.mp (hslots ▸ hs)).2
  have htaken := takenInOrder_takeSlots frame found
  rw [← hframe] at htaken
  refine ⟨colors, hcolors, hkeys, ?_, hkind, ?_, ?_, ?_, ?_, ?_⟩
  · rintro v w s t hs ht (hvw | hwv | hkinds) heq
    · exact hfor.apart v w s t hvw hs ht heq
    · exact hfor.apart w v t s hwv ht hs heq.symm
    · obtain rfl := hfor.eq_of_offset v w s t hs ht heq
      exact hkinds ((hkind v s hs).symm.trans (hkind w s ht))
  · intro v w s t hs ht
    obtain ⟨c, hc, hcs⟩ := hget v s hs
    obtain ⟨d, hd, hdt⟩ := hget w t ht
    rw [hc, hd, Option.some.injEq]
    constructor
    · rintro rfl
      exact (taken_takeSlots frame found).1.color_eq c d s s hcs hdt rfl
    · rintro rfl
      exact Option.some.inj (hcs.symm.trans hdt)
  · rw [hused]
    exact htaken.slots_eq
  · rw [htaken.offset_eq, InsertionSet.size, hused, ← htaken.colors_eq, List.length_map,
      List.length_map]
  · rw [hused]
    exact htaken.offset_getElem
  · intro s hs t ht heq
    rw [InsertionSet.mem_iff, hused] at hs
    have := (htaken.bounds hs).2
    have := frame.offset_le t ht
    omega

/-- Where no fixed register is spilled, the spilled registers are all spills. -/
theorem map_virtual_spilledRegisters {a : Allocation} (h : ∀ b, ¬ .fixed b ∈ a.spills) :
    (spilledRegisters a).toList.map .virtual = a.spills.toList := by
  have hvirtual : (a.spills.toList.filterMap Register.virtual?).map .virtual =
      a.spills.toList := by
    rw [List.map_filterMap]
    refine (List.filterMap_congr fun r hr => ?_).trans List.filterMap_some
    cases r with
    | fixed b => exact absurd hr (h b)
    | virtual v => rfl
  have hempty : (∅ : InsertionSet Register).toList =
      (∅ : InsertionSet VirtualRegister).toList.map .virtual := rfl
  rw [spilledRegisters, InsertionSet.ofList,
    ← InsertionSet.toList_insertAll_map hempty fun _ _ _ _ => Register.virtual.inj, hvirtual]
  exact congrArg _ (InsertionSet.ofList_toList a.spills)

section Frame

variable {Tree : Type u} {selection : Selection Tree} {solver : Solver VirtualRegister Nat}
  {f : Fragment} {a : Allocation} {backups : List HardwareRegister}

/-- The frame stays as it is unless slots were taken. -/
theorem moveToStack_frame_of_not_assigned
    (h : (∃ fault, checkAllocation a backups = .error fault) ∨
      (spilledRegisters a).isEmpty = true ∨
      ∃ e, assignSlots solver frame x (spilledRegisters a) = .error e) :
    (moveToStack selection solver frame f x a backups).1 = frame := by
  unfold moveToStack
  split
  · rfl
  next hcheck =>
  dsimp only
  split_ifs with hempty
  · rfl
  · obtain ⟨fault, hfault⟩ | h | ⟨e, he⟩ := h
    · simp [hcheck] at hfault
    · exact absurd h hempty
    · simp [he]

/-- Slots that were taken stay taken, whether or not there is code for them. -/
theorem moveToStack_of_assigned (hcheck : checkAllocation a backups = .ok ())
    (hempty : (spilledRegisters a).isEmpty = false)
    (hassign : assignSlots solver frame x (spilledRegisters a) = .ok (frame', slots)) :
    moveToStack selection solver frame f x a backups =
      (frame', (expandFragment selection slots backups f).mapError .spilling |>.map
        fun code => ⟨code, slots⟩) := by
  simp only [moveToStack, hcheck, hempty, hassign, Bool.false_eq_true, if_false]
  cases expandFragment selection slots backups f <;> rfl

end Frame

end Spill

/-- A frame grows by exactly the slots that spilled registers use. Once the registers
have slots, these are packed: registers that interfere in either direction or are of
different kinds have different slots, and the frame has handed out the slots in use and
no others, each below all earlier ones, whether or not there turns out to be code for
every instruction. In all other cases the frame stays as it is. -/
theorem moveToStack_takes_used_slots {Tree : Type u} (selection : Selection Tree)
    (frame : Frame) (f : Fragment) (x : Interaction) (a : Allocation)
    (backups : List HardwareRegister) :
    (∀ frame' slots, Spill.checkAllocation a backups = .ok () →
      (Spill.spilledRegisters a).isEmpty = false →
      Spill.assignSlots Coloring.firstFit frame x (Spill.spilledRegisters a) =
        .ok (frame', slots) →
      (Spill.moveToStack selection Coloring.firstFit frame f x a backups).1 = frame' ∧
      (∀ out, (Spill.moveToStack selection Coloring.firstFit frame f x a backups).2 = .ok out →
        out.slots = slots) ∧
      (Spill.spilledRegisters a).toList.map .virtual = a.spills.toList ∧
      ∃ colors,
        Coloring.firstFit (Spill.coloringProblem x (Spill.spilledRegisters a)) = .ok colors ∧
        Spill.Packing x (Spill.spilledRegisters a) colors frame frame' slots) ∧
    ((∃ fault, Spill.checkAllocation a backups = .error fault) ∨
      (Spill.spilledRegisters a).isEmpty = true ∨
      (∃ e, Spill.assignSlots Coloring.firstFit frame x (Spill.spilledRegisters a) = .error e) →
      (Spill.moveToStack selection Coloring.firstFit frame f x a backups).1 = frame) := by
  refine ⟨fun frame' slots hcheck hempty hassign => ?_,
    Spill.moveToStack_frame_of_not_assigned⟩
  have hmove : Spill.moveToStack selection Coloring.firstFit frame f x a backups = _ :=
    Spill.moveToStack_of_assigned hcheck hempty hassign
  have hfixed := (Spill.checkAllocation_eq_ok_iff.mp hcheck).2
  refine ⟨congrArg Prod.fst hmove, fun out hout => ?_,
    Spill.map_virtual_spilledRegisters hfixed, Spill.packing_of_assignSlots hassign⟩
  rw [hmove] at hout
  cases hcode : Spill.expandFragment selection slots backups f with
  | error fault => simp [hcode, Except.mapError, Except.map] at hout
  | ok code =>
      rw [hcode] at hout
      exact (congrArg SpilledCode.slots (Except.ok.inj hout)).symm

/-- An instruction that reads three values and a reference. -/
def fourReads : Instruction :=
  .operate (.compute "use" [.virtual ⟨0, false⟩, .virtual ⟨1, false⟩, .virtual ⟨2, false⟩,
    .virtual ⟨3, true⟩] [])

/-- The second value interferes with the first, the third is a copy of the first. -/
def fourReadsInteraction : Interaction where
  registers := .ofList fourReads.reads
  interference := .ofList [(.virtual ⟨0, false⟩, .ofList [.virtual ⟨1, false⟩])]
  copying := .ofList [(.virtual ⟨0, false⟩, .ofList [.virtual ⟨2, false⟩])]

/-- All four are to be spilled, the reference first. -/
def fourSpills : Allocation where
  assigned := ∅
  spills := .ofList [.virtual ⟨3, true⟩, .virtual ⟨1, false⟩, .virtual ⟨0, false⟩,
    .virtual ⟨2, false⟩]

/-- The instruction needs more registers than there are backup registers, but the frame
has handed out the three slots in use, all of them new. -/
theorem fourReads_packed : ∃ frame' slots colors,
    Spill.moveToStack .sequential Coloring.firstFit (Frame.empty.extend false)
      ⟨"f", [.unlinked ⟨"b"⟩ [fourReads]]⟩ fourReadsInteraction fourSpills [.rax, .rcx] =
        (frame', .error (.spilling (.tooFewBackups fourReads 4 2))) ∧
    slots.entries = [(⟨3, true⟩, ⟨-16, true⟩), (⟨1, false⟩, ⟨-24, false⟩),
      (⟨0, false⟩, ⟨-32, false⟩), (⟨2, false⟩, ⟨-32, false⟩)] ∧
    Spill.Packing fourReadsInteraction (Spill.spilledRegisters fourSpills) colors
      (Frame.empty.extend false) frame' slots ∧
    (Frame.empty.extend false).slots = [⟨-8, false⟩] ∧
    ∀ s ∈ Spill.usedSlots slots, s.offset ≠ -8 := by
  obtain ⟨⟨frame', slots⟩, hassign⟩ : ∃ assigned, Spill.assignSlots Coloring.firstFit
      (Frame.empty.extend false) fourReadsInteraction (Spill.spilledRegisters fourSpills) =
        .ok assigned := exists_eq_ok (by decide +kernel)
  obtain ⟨hframe, -, -, colors, -, hpacking⟩ := (moveToStack_takes_used_slots .sequential
    (Frame.empty.extend false) ⟨"f", [.unlinked ⟨"b"⟩ [fourReads]]⟩ fourReadsInteraction
    fourSpills [.rax, .rcx]).1 frame' slots (by decide) (by decide) hassign
  have hentries : (Spill.assignSlots Coloring.firstFit (Frame.empty.extend false)
      fourReadsInteraction (Spill.spilledRegisters fourSpills)).toOption.map (·.2.entries) =
        some [(⟨3, true⟩, ⟨-16, true⟩), (⟨1, false⟩, ⟨-24, false⟩), (⟨0, false⟩, ⟨-32, false⟩),
          (⟨2, false⟩, ⟨-32, false⟩)] := by decide +kernel
  have hfault : (Spill.moveToStack .sequential Coloring.firstFit (Frame.empty.extend false)
      ⟨"f", [.unlinked ⟨"b"⟩ [fourReads]]⟩ fourReadsInteraction fourSpills [.rax, .rcx]).2 =
        .error (.spilling (.tooFewBackups fourReads 4 2)) := by decide +kernel
  rw [hassign] at hentries
  exact ⟨frame', slots, colors, Prod.ext hframe hfault, Option.some.inj hentries, hpacking, rfl,
    fun s hs => hpacking.fresh s hs ⟨-8, false⟩ (by decide)⟩

end Lowering
