import Lowering.Liveness.LiveSets
import Mathlib.Data.List.Forall2
import Mathlib.Logic.Function.Iterate

/-!
# What the live sets contain

The sweeps over the code stop at live sets that are closed under the flow of
control, and nothing enters a live set without a path to a read. Both together
say that a register is live before a point exactly if it is needed there.
-/

namespace Lowering.Liveness

variable {code : List Point} {live next : List Live} {p : Point} {r : Register} {n m : Nat}

/-- A register is needed at a point if control can go on from there to a read of
it without a write to it on the way. -/
inductive Needed (code : List Point) (r : Register) : Nat → Prop
  | read {n : Nat} {p : Point} (hp : code[n]? = some p) (hr : r ∈ p.reads) : Needed code r n
  | pass {n s : Nat} {p : Point} (hp : code[n]? = some p) (hr : ¬ r ∈ p.writes)
      (hs : s ∈ p.successors) (h : Needed code r s) : Needed code r n

/-- A register is needed after a point if the point writes it, or a point that
may come next needs it. -/
def NeededAfter (code : List Point) (r : Register) (n : Nat) : Prop :=
  ∃ p, code[n]? = some p ∧ (r ∈ p.writes ∨ ∃ s ∈ p.successors, Needed code r s)

theorem Needed.exists_read (h : Needed code r n) : ∃ p ∈ code, r ∈ p.reads := by
  induction h with
  | read hp hr => exact ⟨_, List.mem_of_getElem? hp, hr⟩
  | pass _ _ _ _ ih => exact ih

theorem Needed.mem_registers (h : Needed code r n) : r ∈ registers code := by
  obtain ⟨p, hp, hr⟩ := h.exists_read
  refine InsertionSet.mem_ofList.mpr (List.mem_flatMap.mpr ⟨p, hp, ?_⟩)
  exact List.mem_append_left _ hr

theorem NeededAfter.mem_registers (h : NeededAfter code r n) : r ∈ registers code := by
  obtain ⟨p, hp, hw | ⟨s, _, hs⟩⟩ := h
  · refine InsertionSet.mem_ofList.mpr (List.mem_flatMap.mpr ⟨p, List.mem_of_getElem? hp, ?_⟩)
    exact List.mem_append_right _ hw
  · exact hs.mem_registers

/-! ## Growing live sets -/

/-- Each live set of the second list contains that of the first. -/
def Grows (live next : List Live) : Prop :=
  List.Forall₂ (fun l m => (∀ r ∈ l.before, r ∈ m.before) ∧ ∀ r ∈ l.after, r ∈ m.after) live next

theorem Grows.refl (live : List Live) : Grows live live :=
  List.forall₂_same.mpr fun _ _ => ⟨fun _ => id, fun _ => id⟩

theorem Grows.trans {third : List Live} (h : Grows live next) (h' : Grows next third) :
    Grows live third := by
  induction h generalizing third with
  | nil => exact h'
  | cons hl _ ih =>
      cases h' with
      | cons hm h' =>
          exact .cons ⟨fun r hr => hm.1 r (hl.1 r hr), fun r hr => hm.2 r (hl.2 r hr)⟩ (ih h')

theorem Grows.mem_before (h : Grows live next) (hr : r ∈ before live n) : r ∈ before next n := by
  induction h generalizing n with
  | nil => exact hr
  | cons hl _ ih =>
      cases n with
      | zero => exact hl.1 r hr
      | succ n => exact ih hr

theorem Grows.mem_after (h : Grows live next) (hr : r ∈ after live n) : r ∈ after next n := by
  induction h generalizing n with
  | nil => exact hr
  | cons hl _ ih =>
      cases n with
      | zero => exact hl.2 r hr
      | succ n => exact ih hr

theorem grows_modify {change : Live → Live}
    (hchange : ∀ l, (∀ r ∈ l.before, r ∈ (change l).before) ∧
      ∀ r ∈ l.after, r ∈ (change l).after) :
    Grows live (live.modify n change) := by
  induction live generalizing n with
  | nil => simpa using Grows.refl []
  | cons l live ih =>
      cases n with
      | zero => exact .cons (hchange l) (Grows.refl live)
      | succ n => exact .cons ⟨fun _ => id, fun _ => id⟩ ih

theorem missing_le {registers s t : InsertionSet Register} (h : ∀ r ∈ s, r ∈ t) :
    missing registers t ≤ missing registers s := by
  refine List.countP_mono_left fun r _ hr => ?_
  simp only [decide_eq_true_eq] at hr ⊢
  exact fun hs => hr (h r hs)

theorem missing_le_size (registers s : InsertionSet Register) :
    missing registers s ≤ registers.size :=
  List.countP_le_length

/-- If a larger set misses no fewer registers, then it is not larger. -/
theorem mem_of_missing_le {registers s t : InsertionSet Register} (h : ∀ r ∈ s, r ∈ t)
    (hmissing : missing registers s ≤ missing registers t) (hr : r ∈ t)
    (hregisters : r ∈ registers) : r ∈ s := by
  by_contra hs
  have hsub : (registers.toList.filter fun r => decide (¬ r ∈ t)).Sublist
      (registers.toList.filter fun r => decide (¬ r ∈ s)) := by
    refine List.monotone_filter_right _ fun x hx => ?_
    simp only [decide_eq_true_eq] at hx ⊢
    exact fun hxs => hx (h x hxs)
  have heq := hsub.eq_of_length_le (by
    simpa only [missing, List.countP_eq_length_filter] using hmissing)
  have hmem : r ∈ registers.toList.filter fun r => decide (¬ r ∈ s) :=
    List.mem_filter.mpr ⟨hregisters, by simpa using hs⟩
  rw [← heq] at hmem
  exact absurd hr (by simpa using (List.mem_filter.mp hmem).2)

theorem Grows.gaps_le {registers : InsertionSet Register} (h : Grows live next) :
    gaps registers next ≤ gaps registers live := by
  induction h with
  | nil => exact Nat.le_refl _
  | @cons l m _ _ hl _ ih =>
      have hbefore : missing registers m.before ≤ missing registers l.before := missing_le hl.1
      have hafter : missing registers m.after ≤ missing registers l.after := missing_le hl.2
      simp only [gaps]
      omega

theorem gaps_le_size (registers : InsertionSet Register) (live : List Live) :
    gaps registers live ≤ 2 * live.length * registers.size := by
  induction live with
  | nil => exact Nat.zero_le _
  | cons l live ih =>
      have hbefore := missing_le_size registers l.before
      have hafter := missing_le_size registers l.after
      rw [gaps, List.length_cons, Nat.mul_succ, Nat.add_mul]
      omega

/-- Live sets that grew without filling a gap did not grow. -/
theorem Grows.symm_of_gaps_le {registers : InsertionSet Register} (h : Grows live next)
    (hgaps : gaps registers live ≤ gaps registers next)
    (hregisters : ∀ l ∈ next, ∀ r, r ∈ l.before ∨ r ∈ l.after → r ∈ registers) :
    Grows next live := by
  induction h with
  | nil => exact .nil
  | @cons l m live next hl hrest ih =>
      have hbefore : missing registers m.before ≤ missing registers l.before := missing_le hl.1
      have hafter : missing registers m.after ≤ missing registers l.after := missing_le hl.2
      have htail : gaps registers next ≤ gaps registers live := Grows.gaps_le hrest
      simp only [gaps] at hgaps
      have hm := hregisters m List.mem_cons_self
      refine .cons ⟨fun r hr => ?_, fun r hr => ?_⟩ (ih (by omega) fun k hk =>
        hregisters k (List.mem_cons_of_mem _ hk))
      · exact mem_of_missing_le hl.1 (by omega) hr (hm r (.inl hr))
      · exact mem_of_missing_le hl.2 (by omega) hr (hm r (.inr hr))

/-! ## One sweep -/

theorem mem_after_revise {l : Live} :
    r ∈ (revise live p l).after ↔ r ∈ l.after ∨ ∃ s ∈ p.successors, r ∈ before live s := by
  simp [revise, ← InsertionSet.mem_iff]

theorem mem_before_revise {l : Live} :
    r ∈ (revise live p l).before ↔
      r ∈ l.before ∨ r ∈ (revise live p l).after ∧ ¬ r ∈ p.writes := by
  simp [revise, ← InsertionSet.mem_iff]

theorem grows_modify_revise : Grows live (live.modify n (revise next p)) :=
  grows_modify fun _ =>
    ⟨fun _ hr => mem_before_revise.mpr (.inl hr), fun _ hr => mem_after_revise.mpr (.inl hr)⟩

/-- Revises the points of a part of the code, the first of which has number `k`,
from the last to the first. -/
def sweepFrom (k : Nat) (code : List Point) (live : List Live) : List Live :=
  (code.zipIdx k).foldr (fun p live => live.modify p.2 (revise live p.1)) live

theorem sweepFrom_cons (k : Nat) (p : Point) (code : List Point) (live : List Live) :
    sweepFrom k (p :: code) live =
      (sweepFrom (k + 1) code live).modify k (revise (sweepFrom (k + 1) code live) p) :=
  rfl

theorem grows_sweepFrom (k : Nat) (code : List Point) (live : List Live) :
    Grows live (sweepFrom k code live) := by
  induction code generalizing k with
  | nil => exact Grows.refl live
  | cons p code ih => exact (ih (k + 1)).trans grows_modify_revise

@[simp]
theorem length_sweepFrom (k : Nat) (code : List Point) (live : List Live) :
    (sweepFrom k code live).length = live.length :=
  (grows_sweepFrom k code live).length_eq.symm

theorem before_modify_of_ne {change : Live → Live} (h : m ≠ n) :
    before (live.modify n change) m = before live m := by
  simp [before, List.getElem?_modify_ne _ _ (Ne.symm h)]

theorem after_modify_of_ne {change : Live → Live} (h : m ≠ n) :
    after (live.modify n change) m = after live m := by
  simp [after, List.getElem?_modify_ne _ _ (Ne.symm h)]

theorem getElem?_modify_self {l : Live} (change : Live → Live) (hl : live[n]? = some l) :
    (live.modify n change)[n]? = some (change l) := by
  simp [hl]

/-- After a sweep, what is live after a point and not written there is live
before it, and what was live before a next point is live after it. -/
theorem sweepFrom_closed (k : Nat) (code : List Point) (live : List Live)
    (hp : code[n]? = some p) (hn : k + n < live.length) :
    (∀ r ∈ after (sweepFrom k code live) (k + n), ¬ r ∈ p.writes →
      r ∈ before (sweepFrom k code live) (k + n)) ∧
    ∀ s ∈ p.successors, ∀ r ∈ before live s, r ∈ after (sweepFrom k code live) (k + n) := by
  induction code generalizing k n with
  | nil => simp at hp
  | cons q code ih =>
      rw [sweepFrom_cons]
      cases n with
      | zero =>
          obtain rfl : q = p := by simpa using hp
          obtain ⟨l, hl⟩ : ∃ l, (sweepFrom (k + 1) code live)[k]? = some l :=
            ⟨_, List.getElem?_eq_getElem (by simpa using hn)⟩
          have hself := getElem?_modify_self (revise (sweepFrom (k + 1) code live) q) hl
          simp only [before, after, Nat.add_zero, hself]
          refine ⟨fun r hr hw => mem_before_revise.mpr (.inr ⟨hr, hw⟩), fun s hs r hr => ?_⟩
          exact mem_after_revise.mpr
            (.inr ⟨s, hs, (grows_sweepFrom (k + 1) code live).mem_before hr⟩)
      | succ n =>
          have hindex : k + (n + 1) = k + 1 + n := by omega
          have hne : k + 1 + n ≠ k := by omega
          have hrest := ih (k + 1) (n := n) (by simpa using hp) (by omega)
          rw [hindex, before_modify_of_ne hne, after_modify_of_ne hne]
          exact hrest

/-! ## A sweep that adds nothing -/

theorem revise_eq_self {l : Live} (hbefore : ∀ r ∈ (revise live p l).before, r ∈ l.before)
    (hafter : ∀ r ∈ (revise live p l).after, r ∈ l.after) : revise live p l = l := by
  have hsame : (revise live p l).after = l.after :=
    InsertionSet.insertAll_of_forall_mem fun r hr =>
      hafter r (InsertionSet.mem_insertAll.mpr (.inr hr))
  ext1
  · exact InsertionSet.insertAll_of_forall_mem fun r hr =>
      hbefore r (InsertionSet.mem_insertAll.mpr (.inr hr))
  · exact hsame

/-- Points whose live sets do not grow in a sweep keep them, also their order. -/
theorem sweepFrom_eq_self (k : Nat) (code : List Point) (live : List Live)
    (h : Grows (sweepFrom k code live) live) : sweepFrom k code live = live := by
  induction code generalizing k with
  | nil => rfl
  | cons p code ih =>
      rw [sweepFrom_cons] at h ⊢
      have hrest := ih (k + 1) (grows_modify_revise.trans h)
      rw [hrest] at h ⊢
      apply List.ext_getElem?
      intro n
      by_cases hn : n = k
      · subst hn
        cases hl : live[n]? with
        | none => simp [hl]
        | some l =>
            have hself := getElem?_modify_self (revise live p) hl
            rw [hself, revise_eq_self]
            · intro r hr
              simpa [before, hl] using h.mem_before (n := n) (by simpa [before, hself] using hr)
            · intro r hr
              simpa [after, hl] using h.mem_after (n := n) (by simpa [after, hself] using hr)
      · rw [List.getElem?_modify_ne _ _ (Ne.symm hn)]

/-! ## Nothing enters without a path -/

/-- Every register in a live set is needed. -/
def Justified (code : List Point) (live : List Live) : Prop :=
  ∀ n r, (r ∈ before live n → Needed code r n) ∧ (r ∈ after live n → NeededAfter code r n)

theorem justified_seed : Justified code (seed code) := by
  intro n r
  cases hp : code[n]? with
  | none => simp [before, after, seed, hp]
  | some p =>
      simp only [before, after, seed, List.getElem?_map, hp, Option.map_some]
      exact ⟨fun hr => .read hp hr, fun hr => ⟨p, hp, .inl hr⟩⟩

theorem Justified.modify_revise (h : Justified code live) (hp : code[n]? = some p) :
    Justified code (live.modify n (revise live p)) := by
  intro m r
  by_cases hm : m = n
  · subst hm
    cases hl : live[m]? with
    | none => simp [before, after, hl]
    | some l =>
        have hself := getElem?_modify_self (revise live p) hl
        have hbefore : r ∈ l.before → Needed code r m := by
          simpa [before, hl] using (h m r).1
        have hafter : r ∈ (revise live p l).after → NeededAfter code r m := by
          intro hr
          rcases mem_after_revise.mp hr with hr | ⟨s, hs, hr⟩
          · exact (h m r).2 (by simpa [after, hl] using hr)
          · exact ⟨p, hp, .inr ⟨s, hs, (h s r).1 hr⟩⟩
        simp only [before, after, hself]
        refine ⟨fun hr => ?_, hafter⟩
        rcases mem_before_revise.mp hr with hr | ⟨hr, hw⟩
        · exact hbefore hr
        · obtain ⟨q, hq, hwq | ⟨s, hs, hneeded⟩⟩ := hafter hr
          · obtain rfl : q = p := Option.some.inj (hq.symm.trans hp)
            exact absurd hwq hw
          · obtain rfl : q = p := Option.some.inj (hq.symm.trans hp)
            exact .pass hp hw hs hneeded
  · rw [before_modify_of_ne hm, after_modify_of_ne hm]
    exact h m r

theorem Justified.sweepFrom {part : List Point} (h : Justified code live) (k : Nat)
    (hpart : ∀ n p, part[n]? = some p → code[k + n]? = some p) :
    Justified code (sweepFrom k part live) := by
  induction part generalizing k with
  | nil => exact h
  | cons p part ih =>
      have hp : code[k]? = some p := hpart 0 p rfl
      refine Justified.modify_revise (ih (k + 1) fun n q hq => ?_) hp
      have hindex : k + 1 + n = k + (n + 1) := by omega
      rw [hindex]
      exact hpart (n + 1) q hq

/-! ## The live sets at the end -/

/-- What holds of the live sets between two sweeps. -/
structure Sound (code : List Point) (live : List Live) : Prop where
  grown : Grows (seed code) live
  justified : Justified code live

theorem sound_seed : Sound code (seed code) :=
  ⟨Grows.refl _, justified_seed⟩

theorem Sound.sweep (h : Sound code live) : Sound code (sweep code live) where
  grown := h.grown.trans (grows_sweepFrom 0 code live)
  justified := h.justified.sweepFrom 0 fun n p hp => by simpa using hp

theorem Sound.length_eq (h : Sound code live) : live.length = code.length := by
  have hlength := h.grown.length_eq
  simpa [seed] using hlength.symm

theorem Justified.mem_registers (h : Justified code live) {l : Live} (hl : l ∈ live)
    (hr : r ∈ l.before ∨ r ∈ l.after) : r ∈ registers code := by
  obtain ⟨n, hn⟩ := List.mem_iff_getElem?.mp hl
  rcases hr with hr | hr
  · exact ((h n r).1 (by simpa [before, hn] using hr)).mem_registers
  · exact ((h n r).2 (by simpa [after, hn] using hr)).mem_registers

theorem Sound.iterate (h : Sound code live) (n : Nat) :
    Sound code ((Liveness.sweep code)^[n] live) := by
  induction n generalizing live with
  | zero => exact h
  | succ n ih => exact ih h.sweep

/-- The sweeps come to live sets to which a further sweep adds nothing. Each sweep
before fills a gap, so the gaps bound their number. -/
theorem exists_rounds (h : Sound code live) :
    ∃ n ≤ gaps (registers code) live,
      settle code (registers code) live = (sweep code)^[n] live ∧
      sweep code ((sweep code)^[n] live) = (sweep code)^[n] live := by
  induction live using settle.induct code (registers code) with
  | case1 live next hlt ih =>
      rw [settle, if_pos hlt]
      obtain ⟨n, hn, heq, hfixed⟩ := ih h.sweep
      exact ⟨n + 1, Nat.succ_le_of_lt (Nat.lt_of_le_of_lt hn hlt), heq, hfixed⟩
  | case2 live next hlt =>
      rw [settle, if_neg hlt]
      have hfixed : sweep code live = live := by
        apply sweepFrom_eq_self 0
        exact (grows_sweepFrom 0 code live).symm_of_gaps_le (Nat.le_of_not_lt hlt)
          fun l hl r hr => h.sweep.justified.mem_registers hl hr
      exact ⟨0, Nat.zero_le _, hfixed, hfixed⟩

/-- Every register is missing at most twice at a point, so the code and its registers
bound the number of sweeps. -/
theorem exists_sweeps (code : List Point) :
    ∃ n ≤ 2 * code.length * (registers code).size,
      solve code = (sweep code)^[n] (seed code) ∧ sweep code (solve code) = solve code := by
  obtain ⟨n, hn, heq, hfixed⟩ := exists_rounds (sound_seed : Sound code (seed code))
  have hgaps := gaps_le_size (registers code) (seed code)
  rw [seed, List.length_map] at hgaps
  rw [solve, heq]
  exact ⟨n, Nat.le_trans hn hgaps, rfl, hfixed⟩

theorem sound_solve (code : List Point) : Sound code (solve code) := by
  obtain ⟨n, -, heq, -⟩ := exists_sweeps code
  rw [heq]
  exact sound_seed.iterate n

theorem sweep_solve (code : List Point) : sweep code (solve code) = solve code := by
  obtain ⟨_, _, _, hfixed⟩ := exists_sweeps code
  exact hfixed

theorem length_solve (code : List Point) : (solve code).length = code.length :=
  (sound_solve code).length_eq

theorem mem_before_of_read (hp : code[n]? = some p) (hr : r ∈ p.reads) :
    r ∈ before (solve code) n := by
  refine (sound_solve code).grown.mem_before ?_
  simpa [before, seed, hp] using hr

theorem mem_after_of_write (hp : code[n]? = some p) (hr : r ∈ p.writes) :
    r ∈ after (solve code) n := by
  refine (sound_solve code).grown.mem_after ?_
  simpa [after, seed, hp] using hr

/-- What is live after a point and not written there is live before it, and what
is live before a next point is live after it. -/
theorem solve_closed (hp : code[n]? = some p) :
    (∀ r ∈ after (solve code) n, ¬ r ∈ p.writes → r ∈ before (solve code) n) ∧
    ∀ s ∈ p.successors, ∀ r ∈ before (solve code) s, r ∈ after (solve code) n := by
  have hn : 0 + n < (solve code).length := by
    rw [length_solve, Nat.zero_add]
    exact (List.getElem?_eq_some_iff.mp hp).1
  have hclosed := sweepFrom_closed 0 code (solve code) hp hn
  have hfixed : sweepFrom 0 code (solve code) = solve code := sweep_solve code
  rwa [hfixed, Nat.zero_add] at hclosed

theorem mem_before_of_after (hp : code[n]? = some p) (hr : r ∈ after (solve code) n)
    (hw : ¬ r ∈ p.writes) : r ∈ before (solve code) n :=
  (solve_closed hp).1 r hr hw

theorem mem_after_of_successor {s : Nat} (hp : code[n]? = some p) (hs : s ∈ p.successors)
    (hr : r ∈ before (solve code) s) : r ∈ after (solve code) n :=
  (solve_closed hp).2 s hs r hr

theorem needed_of_mem_before (hr : r ∈ before (solve code) n) : Needed code r n :=
  ((sound_solve code).justified n r).1 hr

theorem mem_before_of_needed (h : Needed code r n) : r ∈ before (solve code) n := by
  induction h with
  | read hp hr => exact mem_before_of_read hp hr
  | pass hp hr hs _ ih => exact mem_before_of_after hp (mem_after_of_successor hp hs ih) hr

theorem neededAfter_of_mem_after (hr : r ∈ after (solve code) n) : NeededAfter code r n :=
  ((sound_solve code).justified n r).2 hr

end Lowering.Liveness
