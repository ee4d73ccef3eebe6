import Mathlib.Algebra.Order.BigOperators.Group.List
import Mathlib.Tactic.Linarith
import YiOS.Sched.Choice
import YiOS.Sched.Slice

namespace YiOS

open YiOS.Library

/-! Who is charged for the time: ticks and resets over whole runs. -/

namespace Sched

theorem PickRun.mono (h : PickRun fuel resets next s result) (more : Nat) :
    PickRun (fuel + more) resets next s result := by
  induction h with
  | done hscan hnonzero => exact .done (scanQueue_mono hscan more) hnonzero
  | reset hscan hzero hreset _ ih =>
      exact .reset (scanQueue_mono hscan more) hzero (resetScore_mono hreset more) ih

/-- How often a call resets the scores depends on the state alone. -/
theorem PickRun.unique (h : PickRun fuel resets next s result)
    (h' : PickRun fuel' resets' next s result') : resets = resets' := by
  have hlong := h.mono fuel'
  have hlong' := h'.mono fuel
  rw [Nat.add_comm fuel' fuel] at hlong'
  clear h h'
  induction hlong generalizing resets' with
  | done hscan hnonzero =>
      cases hlong' with
      | done => rfl
      | reset hscan' hzero =>
          rw [Option.some.inj (hscan.symm.trans hscan')] at hnonzero
          exact absurd hzero hnonzero
  | reset hscan hzero hreset _ ih =>
      cases hlong' with
      | done hscan' hnonzero =>
          rw [Option.some.inj (hscan.symm.trans hscan')] at hzero
          exact absurd hzero hnonzero
      | reset hscan' _ hreset' hrest' =>
          obtain rfl := Option.some.inj (hscan.symm.trans hscan')
          obtain rfl := Option.some.inj (hreset.symm.trans hreset')
          rw [ih hrest']

/-- A tick is charged to the current task as long as its slice is not over. -/
def Charged (s : Sched) (p : TaskPtr) : Prop := p = s.current ∧ 0 < (s.task p).count

instance decidableCharged (s : Sched) (p : TaskPtr) : Decidable (s.Charged p) :=
  inferInstanceAs (Decidable (_ ∧ _))

/-- A full slice. -/
def slice (s : Sched) (p : TaskPtr) : Int := defCounter + (s.task p).priority

end Sched

/-- The ticks that a task and that all tasks have been charged for, and the resets. -/
structure Ledger where
  ran : TaskPtr → Nat
  ticks : Nat
  resets : Nat

namespace Ledger

def empty : Ledger := ⟨fun _ => 0, 0, 0⟩

def tick (l : Ledger) (s : Sched) : Ledger where
  ran := fun p => if s.Charged p then l.ran p + 1 else l.ran p
  ticks := if s.Charged s.current then l.ticks + 1 else l.ticks
  resets := l.resets

end Ledger

/-- Runs from `s₀` in which the tasks of `stays` neither fork nor block.  The others do as
they like. -/
inductive ShareRun (stays : TaskPtr → Prop) (s₀ : Sched) (pending₀ : Bool) :
    Sched → Bool → Ledger → Prop
  | start : ShareRun stays s₀ pending₀ s₀ pending₀ .empty
  | fork {s : Sched} : ShareRun stays s₀ pending₀ s pending l → ¬ stays s.current →
      ShareRun stays s₀ pending₀ (s.doFork cloneFlags fn arg).2 pending l
  | tick {s : Sched} : ShareRun stays s₀ pending₀ s pending l →
      ShareRun stays s₀ pending₀ s.tickHandlePeriodic pending (l.tick s)
  | call {s : Sched} (caller : Caller) :
      ShareRun stays s₀ pending₀ s pending l → s.Runnable →
      s.call caller fuel stale = some s' →
      Sched.PickRun fuel resets none (s.enter caller).settle result →
      ShareRun stays s₀ pending₀ s' false { l with resets := l.resets + resets }
  | block {s : Sched} : ShareRun stays s₀ pending₀ s pending l → s.Forked s.current →
      ¬ stays s.current → state ≠ .running →
      ShareRun stays s₀ pending₀ (s.modify s.current fun t => { t with state := state }) true l
  | wake {s : Sched} : ShareRun stays s₀ pending₀ s pending l → s.Forked p → s.Dequeued p →
      ShareRun stays s₀ pending₀ (s.wakeUpProcess p) pending l

namespace Sched

variable {s s' : Sched} {pending : Bool} {queue ring : List TaskPtr} {p : TaskPtr}

/-- One entry of a sum changes. -/
theorem sum_update {list : List TaskPtr} {f g : TaskPtr → Int} (hnodup : list.Nodup)
    (hp : p ∈ list) (hrest : ∀ q ∈ list, q ≠ p → g q = f q) :
    (list.map g).sum = (list.map f).sum + (g p - f p) := by
  induction list with
  | nil => exact absurd hp List.not_mem_nil
  | cons q list ih =>
      rw [List.nodup_cons] at hnodup
      rw [List.map_cons, List.map_cons, List.sum_cons, List.sum_cons]
      cases List.mem_cons.mp hp with
      | inl heq =>
          subst heq
          have hsame : list.map g = list.map f := by
            apply List.map_congr_left
            intro q hq
            exact hrest q (List.mem_cons_of_mem _ hq) fun heq => hnodup.1 (heq ▸ hq)
          rw [hsame]
          omega
      | inr hmem =>
          have hne : q ≠ p := fun heq => hnodup.1 (heq ▸ hmem)
          rw [ih hnodup.2 hmem fun q hq => hrest q (List.mem_cons_of_mem _ hq),
            hrest q List.mem_cons_self hne]
          omega

/-- Room for the slices of all tasks there can be. -/
def allSlices : Int := (nrTask + 1) * (defCounter + 2)

theorem Coherent.totalCount_le (h : Coherent s pending queue ring) :
    s.totalCount ring ≤ allSlices := by
  have hlength := h.ring_length
  have hsum : s.totalCount ring ≤ ((.initTask :: ring).map fun p => (s.task p).count).length •
      (defCounter + 2) := by
    apply List.sum_le_card_nsmul
    intro count hcount
    obtain ⟨q, hq, rfl⟩ := List.mem_map.mp hcount
    have hle := (h.counts q hq).2
    have hpriority := (h.priority q hq).2
    omega
  rw [List.length_map, List.length_cons, nsmul_eq_mul] at hsum
  simp only [allSlices, nrTask, defCounter] at *
  omega

theorem Coherent.totalCount_nonneg (h : Coherent s pending queue ring) :
    0 ≤ s.totalCount ring := by
  apply List.sum_nonneg
  intro count hcount
  obtain ⟨q, hq, rfl⟩ := List.mem_map.mp hcount
  exact (h.counts q hq).1

/-- Something is picked from a queue that is not empty. -/
theorem Coherent.exists_pickRun (h : Coherent s false queue ring) (hne : queue ≠ []) :
    ∃ p counts resets, s.Choice queue ring p counts resets ∧
      PickRun 67 resets none s (some p, s.recount counts) := by
  have hcounts : ∀ q ∈ queue, 0 ≤ (s.task q).count ∧ (s.task q).count < 2 ^ 31 := by
    intro q hq
    have hmem := List.mem_cons_of_mem TaskPtr.initTask (h.mem_ring hq)
    have hcount := h.counts q hmem
    have hpriority := h.priority q hmem
    simp only [defCounter] at hcount
    omega
  have hpriority : ∀ q ∈ ring, 0 ≤ (s.task q).priority ∧
      defCounter + (s.task q).priority < 2 ^ 31 := by
    intro q hq
    have hle := h.priority q (List.mem_cons_of_mem _ hq)
    simp only [defCounter]
    omega
  have hring := h.ring_length
  have hqueue := h.queue_length
  simp only [nrTask] at hring
  obtain ⟨q, hq⟩ := List.exists_mem_of_ne_nil queue hne
  obtain ⟨p, counts, resets, hchoice, hrun, _⟩ := pickRun_choice h.runQueue h.taskRing
    (fun q hq => List.mem_cons_of_mem _ (h.mem_ring hq)) hne hcounts hpriority
    ⟨q, hq, .inl (h.ne_initTask (h.mem_ring hq))⟩ none 67 (by omega) (by omega)
  exact ⟨p, counts, resets, hchoice, hrun⟩

/-- Of a queue with something in it the scores are reset once or not at all. -/
theorem Coherent.resets_cases (h : Coherent s false queue ring) (hne : queue ≠ [])
    (hpick : PickRun fuel resets none s result) :
    resets ≤ 1 ∧ (resets = 1 ↔ ∀ q ∈ queue, (s.task q).count = 0) := by
  obtain ⟨_, _, resets', hchoice, hrun⟩ := h.exists_pickRun hne
  rw [hpick.unique hrun]
  exact ⟨hchoice.resets_le, hchoice.resets_iff⟩

/-- A task that stays on the queue: what it has been charged for and what it has left are
what it had and a slice for each reset. -/
structure Account (s₀ s : Sched) (l : Ledger) (p : TaskPtr) : Prop where
  forked : s.Forked p
  running : (s.task p).state = .running
  slice : s.slice p = s₀.slice p
  law : (l.ran p : Int) + (s.task p).count = (s₀.task p).count + l.resets * s₀.slice p

/-- The same task is left as it was, and the ledger too. -/
theorem Account.same {s₀ : Sched} (h : Account s₀ s l p) (hforked : s'.Forked p)
    (htask : s'.task p = s.task p) : Account s₀ s' l p where
  forked := hforked
  running := by rw [htask]; exact h.running
  slice := by rw [Sched.slice, htask]; exact h.slice
  law := by rw [htask]; exact h.law

theorem Account.tick {s₀ : Sched} (h : Account s₀ s l p) (hcount : 0 ≤ (s.task p).count) :
    Account s₀ s.tickHandlePeriodic (l.tick s) p := by
  have hframe := tick_frame s
  refine ⟨hframe.forked.mpr h.forked, (hframe.state p).trans h.running, ?_, ?_⟩
  · rw [Sched.slice, hframe.priority]
    exact h.slice
  · have hlaw := h.law
    by_cases hcurrent : p = s.current
    · have htask : (s.tickHandlePeriodic.task p).count = max ((s.task p).count - 1) 0 := by
        rw [hcurrent, tick_current]
      rw [htask, Ledger.tick]
      by_cases hleft : 0 < (s.task p).count
      · simp only [Charged, hcurrent, true_and] at hleft ⊢
        rw [if_pos hleft, ← hcurrent]
        rw [← hcurrent] at hleft
        push_cast
        omega
      · simp only [Charged, hleft, and_false, if_false]
        omega
    · rw [tick_of_ne s hcurrent, Ledger.tick]
      simp only [Charged, hcurrent, false_and, if_false]
      exact hlaw

/-- A fork neither makes nor takes time, and touches no task but the current one and the
child. -/
theorem Coherent.fork_kept (h : Coherent s pending queue ring) (cloneFlags fn arg : U64) :
    ∃ queue' ring', Coherent (s.doFork cloneFlags fn arg).2 pending queue' ring' ∧
      (s.doFork cloneFlags fn arg).2.totalCount ring' = s.totalCount ring ∧
      ∀ q ∈ ring, q ∈ ring' ∧
        (q ≠ s.current → (s.doFork cloneFlags fn arg).2.task q = s.task q) := by
  rcases doFork_cases cloneFlags fn arg s with
    ⟨_, heq⟩ | ⟨i, hfree, ⟨_, heq⟩ | ⟨pid, _, hslot, heq⟩⟩ <;> rw [heq]
  · exact ⟨queue, ring, h, rfl, fun q hq => ⟨hq, fun _ => rfl⟩⟩
  · exact ⟨queue, ring, h.failedFork i, rfl, fun q hq => ⟨hq, fun _ => rfl⟩⟩
  · have hfresh := h.page_notMem hfree
    refine ⟨_, _, (h.failedFork i).forkChild hfresh rfl (by simp) hslot,
      forkChild_totalCount (h.failedFork i) hfresh, fun q hq => ?_⟩
    refine ⟨List.mem_append_left _ hq, fun hcurrent => forkChild_task_of_ne ?_ hcurrent⟩
    exact fun heq => hfresh (List.mem_cons_of_mem _ (heq ▸ hq))

/-- A tick takes one from the sum of the counts when it is charged, and else nothing. -/
theorem Coherent.tick_totalCount (h : Coherent s pending queue ring) :
    s.tickHandlePeriodic.totalCount ring =
      s.totalCount ring - if s.Charged s.current then 1 else 0 := by
  have hsum := sum_update (f := fun p => (s.task p).count)
    (g := fun p => (s.tickHandlePeriodic.task p).count) h.taskRing.nodup h.current
    fun q _ hne => by rw [tick_of_ne s hne]
  have hcount := (h.counts _ h.current).1
  rw [totalCount, totalCount, hsum, tick_current]
  simp only [Charged, true_and]
  split_ifs with hleft <;> omega

/-- What holds at each point of a run. -/
structure Balanced (stays : TaskPtr → Prop) (s₀ : Sched) (total₀ : Int) (s : Sched)
    (pending : Bool) (l : Ledger) : Prop where
  settled : s.Settled pending
  accounts : ∀ p, stays p → Account s₀ s l p
  total : ∃ queue ring, Coherent s pending queue ring ∧
    l.ticks + s.totalCount ring ≤ total₀ + l.resets * allSlices

namespace Balanced

variable {stays : TaskPtr → Prop} {s₀ : Sched} {total₀ : Int} {l : Ledger}

theorem fork (h : Balanced stays s₀ total₀ s pending l) (hcurrent : ¬ stays s.current)
    (cloneFlags fn arg : U64) :
    Balanced stays s₀ total₀ (s.doFork cloneFlags fn arg).2 pending l := by
  obtain ⟨queue, ring, hc, htotal⟩ := h.total
  obtain ⟨queue', ring', hc', hsame, hkept⟩ := hc.fork_kept cloneFlags fn arg
  refine ⟨h.settled.fork hc _ _ _, fun p hp => ?_, queue', ring', hc', hsame ▸ htotal⟩
  have haccount := h.accounts p hp
  obtain ⟨hmem, htask⟩ := hkept p ((hc.forked p).mpr haccount.forked)
  exact haccount.same ((hc'.forked p).mp hmem) (htask fun heq => hcurrent (heq ▸ hp))

theorem tick (h : Balanced stays s₀ total₀ s pending l) :
    Balanced stays s₀ total₀ s.tickHandlePeriodic pending (l.tick s) := by
  obtain ⟨queue, ring, hc, htotal⟩ := h.total
  refine ⟨(tick_frame s).settled h.settled, fun p hp => ?_, queue, ring, hc.tick, ?_⟩
  · have haccount := h.accounts p hp
    have hmem := List.mem_cons_of_mem TaskPtr.initTask ((hc.forked p).mpr haccount.forked)
    exact haccount.tick (hc.counts p hmem).1
  · rw [hc.tick_totalCount, Ledger.tick]
    split_ifs <;> push_cast <;> omega

theorem block (h : Balanced stays s₀ total₀ s pending l) (hforked : s.Forked s.current)
    (hcurrent : ¬ stays s.current) (hstate : state ≠ .running) :
    Balanced stays s₀ total₀ (s.modify s.current fun t => { t with state := state }) true l := by
  obtain ⟨queue, ring, hc, htotal⟩ := h.total
  have hcounts := modify_field TaskStruct.count s (t := s.current)
    (f := fun t => { t with state := state }) rfl
  refine ⟨?_, fun p hp => ?_, queue, ring,
    hc.block h.settled ((hc.forked _).mpr hforked) _, ?_⟩
  · simpa [Settled, modify] using hstate
  · exact (h.accounts p hp).same (h.accounts p hp).forked
      (modify_task_of_ne _ _ fun heq => hcurrent (heq ▸ hp))
  · simpa only [totalCount, hcounts] using htotal

theorem wake (h : Balanced stays s₀ total₀ s pending l) (hforked : s.Forked p)
    (hdequeued : s.Dequeued p) :
    Balanced stays s₀ total₀ (s.wakeUpProcess p) pending l := by
  obtain ⟨queue, ring, hc, htotal⟩ := h.total
  have hring := (hc.forked p).mpr hforked
  have hqueue := (hc.dequeued_iff hring).mp hdequeued
  have hne : s.current ≠ p := hc.current_ne h.settled hring hqueue
  have hcounts : ∀ q, ((s.wakeUpProcess p).task q).count = (s.task q).count := by
    intro q
    rw [wakeUpProcess_task]
    exact modify_field TaskStruct.count s rfl q
  refine ⟨?_, fun q hq => ?_, _, ring, hc.wake hring hqueue, ?_⟩
  · have hsettled := h.settled
    unfold Settled at hsettled ⊢
    simpa [wakeUpProcess, enqueueTaskSimple, modify, hne] using hsettled
  · have haccount := h.accounts q hq
    have hqueued := (hc.queued q).mpr ⟨(hc.forked q).mpr haccount.forked,
      .inl haccount.running⟩
    refine haccount.same haccount.forked ?_
    rw [wakeUpProcess_task]
    exact modify_task_of_ne _ _ fun heq => hqueue (heq ▸ hqueued)
  · simpa only [totalCount, hcounts] using htotal

theorem call (h : Balanced stays s₀ total₀ s pending l) (caller : Caller)
    (hrunnable : s.Runnable) (hcall : s.call caller fuel stale = some s')
    (hpick : PickRun fuel' resets none (s.enter caller).settle result) :
    Balanced stays s₀ total₀ s' false { l with resets := l.resets + resets } := by
  obtain ⟨queue, ring, hc, htotal⟩ := h.total
  obtain ⟨queue', next, counts, houtcome, ⟨queue'', hc'⟩, hsettle, hbest, hpos, hcounts⟩ :=
    hc.call_cases h.settled hrunnable hcall
  have hfields : ∀ t, ((s.enter caller).settle.task t).count = (s.task t).count := by
    intro t
    rw [(settle_same _).1]
    exact (Frame.enter s caller).count t
  have hstate : ∀ t, ((s.enter caller).settle.task t).state = (s.task t).state := by
    intro t
    rw [(settle_same _).1]
    exact (Frame.enter s caller).state t
  obtain ⟨hle, hresets⟩ := hsettle.resets_cases (List.ne_nil_of_mem hbest.mem) hpick
  simp only [hfields] at hresets
  have hout : ∀ t, (s'.task t).count = counts t ∧ (s'.task t).state = (s.task t).state ∧
      (s'.task t).priority = (s.task t).priority := by
    intro t
    obtain ⟨_, _, htask⟩ := houtcome.task t
    rw [htask]
    exact ⟨rfl, rfl, rfl⟩
  have hsound : s'.Sound false :=
    Sound.step ⟨⟨queue, ring, hc⟩, h.settled⟩ (.call caller fuel stale hrunnable hcall)
  -- Either nothing is reset and the best of the queue has time left, or all of it had run out.
  have hcases : (resets = 0 ∧ counts = fun t => (s.task t).count) ∨
      (resets = 1 ∧ (∀ q ∈ queue', (s.task q).count = 0) ∧
        counts = s.resetCounts ring) := by
    cases hcounts with
    | inl hsame =>
        rw [hsame] at hpos
        have hnot : resets ≠ 1 := fun hone => hpos.ne' (hresets.mp hone next hbest.mem)
        exact .inl ⟨by omega, hsame⟩
    | inr hreset => exact .inr ⟨hresets.mpr hreset.1, hreset⟩
  refine ⟨hsound.2, fun p hp => ?_, queue'', ring, hc', ?_⟩
  · have haccount := h.accounts p hp
    have hmem := (hc.forked p).mpr haccount.forked
    have hqueued : p ∈ queue' := by
      refine (hsettle.queued p).mpr ⟨hmem, .inl ?_⟩
      rw [hstate]
      exact haccount.running
    have hlaw := haccount.law
    refine ⟨(hc'.forked p).mp hmem, (hout p).2.1.trans haccount.running, ?_, ?_⟩
    · rw [Sched.slice, (hout p).2.2]
      exact haccount.slice
    · rw [(hout p).1]
      cases hcases with
      | inl hsame =>
          rw [hsame.1, hsame.2]
          exact hlaw
      | inr hreset =>
          have hcount := hreset.2.1 p hqueued
          have hpriority := hc.priority p (List.mem_cons_of_mem _ hmem)
          have hslice : counts p = s.slice p := by
            rw [hreset.2.2, Sched.slice]
            apply resetCounts_of_mem hmem
            · omega
            · simp only [defCounter]
              omega
          rw [hslice, haccount.slice, hreset.1]
          push_cast
          rw [Int.add_mul, Int.one_mul]
          omega
  · have hsum : s'.totalCount ring = ((.initTask :: ring).map counts).sum := by
      simp only [totalCount, hout]
    cases hcases with
    | inl hsame =>
        rw [hsum, hsame.1, hsame.2]
        exact htotal
    | inr hreset =>
        have hbefore := hc.totalCount_nonneg
        have hafter := hc'.totalCount_le
        rw [hreset.1]
        push_cast
        rw [Int.add_mul, Int.one_mul]
        omega

end Balanced

end Sched

open Sched in
theorem ShareRun.balanced {stays : TaskPtr → Prop} {s₀ s : Sched}
    (hsound : s₀.Sound pending₀)
    (hstays : ∀ p, stays p → s₀.Forked p ∧ (s₀.task p).state = .running)
    (h : ShareRun stays s₀ pending₀ s pending l) :
    Balanced stays s₀ allSlices s pending l := by
  induction h with
  | start =>
      obtain ⟨⟨queue, ring, hc⟩, hsettled⟩ := hsound
      refine ⟨hsettled, fun p hp => ⟨(hstays p hp).1, (hstays p hp).2, rfl, ?_⟩,
        queue, ring, hc,
        ?_⟩
      · simp [Ledger.empty]
      · simpa [Ledger.empty] using hc.totalCount_le
  | fork _ hcurrent ih => exact ih.fork hcurrent _ _ _
  | tick _ ih => exact ih.tick
  | call caller _ hrunnable hcall hpick ih => exact ih.call caller hrunnable hcall hpick
  | block _ hforked hcurrent hstate ih => exact ih.block hforked hcurrent hstate
  | wake _ hforked hdequeued ih => exact ih.wake hforked hdequeued

/-- Never less than no time left, and never more than a slice. -/
theorem Sched.Balanced.count_range {stays : TaskPtr → Prop} {s₀ s : Sched}
    (h : Balanced stays s₀ total₀ s pending l) (hp : stays p) :
    0 ≤ (s.task p).count ∧ (s.task p).count ≤ s₀.slice p := by
  obtain ⟨queue, ring, hc, _⟩ := h.total
  have haccount := h.accounts p hp
  have hcount := hc.counts p (List.mem_cons_of_mem _ ((hc.forked p).mpr haccount.forked))
  rw [← haccount.slice]
  exact hcount

/-- Time goes on: from every point there is a way to one more tick that is charged. -/
theorem ShareRun.exists_tick {stays : TaskPtr → Prop} {s₀ s : Sched}
    (hsound : s₀.Sound pending₀)
    (hstays : ∀ p, stays p → s₀.Forked p ∧ (s₀.task p).state = .running) (hp : stays p)
    (h : ShareRun stays s₀ pending₀ s pending l) :
    ∃ s' pending' l', ShareRun stays s₀ pending₀ s' pending' l' ∧
      l'.ticks = l.ticks + 1 := by
  by_cases hcharged : s.Charged s.current
  · exact ⟨_, _, _, h.tick, if_pos hcharged⟩
  · have hbalanced := h.balanced hsound hstays
    have haccount := hbalanced.accounts p hp
    have hrunnable : s.Runnable := ⟨p, haccount.forked, haccount.running⟩
    obtain ⟨queue, ring, hc, _⟩ := hbalanced.total
    obtain ⟨out, queue', next, counts, hout, houtcome, _, hsettle, hbest, hpos, _⟩ :=
      hc.call_outcome hbalanced.settled hrunnable .schedule
    obtain ⟨_, _, _, _, hpick⟩ := hsettle.exists_pickRun (List.ne_nil_of_mem hbest.mem)
    have hcalled := h.call .schedule hrunnable (hout next) hpick
    have hleft : out.Charged out.current := by
      obtain ⟨_, _, htask⟩ := houtcome.task next
      refine ⟨rfl, ?_⟩
      rw [houtcome.current, htask]
      exact hpos
    exact ⟨_, _, _, hcalled.tick, if_pos hleft⟩

theorem ShareRun.exists_ticks {stays : TaskPtr → Prop} {s₀ s : Sched}
    (hsound : s₀.Sound pending₀)
    (hstays : ∀ p, stays p → s₀.Forked p ∧ (s₀.task p).state = .running) (hp : stays p)
    (h : ShareRun stays s₀ pending₀ s pending l) (n : Nat) :
    ∃ s' pending' l', ShareRun stays s₀ pending₀ s' pending' l' ∧
      l'.ticks = l.ticks + n := by
  induction n with
  | zero => exact ⟨s, pending, l, h, rfl⟩
  | succ n ih =>
      obtain ⟨_, _, l₁, hrun, hticks⟩ := ih
      obtain ⟨s', pending', l', hrun', hticks'⟩ := hrun.exists_tick hsound hstays hp
      exact ⟨s', pending', l', hrun', by rw [hticks', hticks, Nat.add_assoc]⟩

/-! Such a run as a function. -/

namespace Sched

def pickRun (fuel : Nat) :
    Nat → Option TaskPtr → Sched → Option (Nat × Option TaskPtr × Sched)
  | 0, _, _ => none
  | jumps + 1, next, s =>
      (s.scanQueue fuel ⟨-1000, next⟩).bind fun pick =>
        if pick.c = 0 then
          (s.resetScore fuel).bind fun full =>
            (pickRun fuel jumps pick.next full).map fun (resets, result) =>
              (resets + 1, result)
        else
          some (0, pick.next, s)

theorem pickRun_sound {s : Sched} {jumps : Nat}
    (h : pickRun fuel jumps next s = some (resets, result)) :
    PickRun fuel resets next s result := by
  induction jumps generalizing next s resets with
  | zero => simp [pickRun] at h
  | succ jumps ih =>
      rw [pickRun] at h
      obtain ⟨pick, hscan, hrest⟩ := Option.bind_eq_some_iff.mp h
      split at hrest
      · next hzero =>
        obtain ⟨full, hreset, hagain⟩ := Option.bind_eq_some_iff.mp hrest
        obtain ⟨⟨more, _⟩, hrun, heq⟩ := Option.map_eq_some_iff.mp hagain
        obtain ⟨rfl, rfl⟩ := Prod.mk.inj heq
        exact .reset hscan hzero hreset (ih hrun)
      · next hnonzero =>
        obtain ⟨rfl, rfl⟩ := Prod.mk.inj (Option.some.inj hrest)
        exact .done hscan hnonzero

section

variable (stays : TaskPtr → Prop) [DecidablePred stays]

/-- The ledger after a move, if a task of `stays` does not make it. -/
def book (s : Sched) (l : Ledger) : SchedMove → Option Ledger
  | .fork _ | .block => if stays s.current then none else some l
  | .tick => some (l.tick s)
  | .call caller =>
      (pickRun 67 67 none (s.enter caller).settle).map fun (resets, _) =>
        { l with resets := l.resets + resets }
  | .wake _ => some l

def bookedMoves : List SchedMove → (Sched × Bool) × Ledger →
    Option ((Sched × Bool) × Ledger)
  | [], x => some x
  | m :: ms, (x, l) =>
      (x.1.move x.2 m).bind fun x' => (x.1.book stays l m).bind fun l' =>
        bookedMoves ms (x', l')

end

end Sched

section

variable {stays : TaskPtr → Prop} [DecidablePred stays]

theorem ShareRun.move {s s₀ : Sched} (h : ShareRun stays s₀ pending₀ s pending l)
    (hmove : s.move pending m = some (s', pending')) (hbook : s.book stays l m = some l') :
    ShareRun stays s₀ pending₀ s' pending' l' := by
  cases m with
  | fork fn =>
      obtain ⟨rfl, rfl⟩ := Prod.mk.inj (Option.some.inj hmove)
      simp only [Sched.book] at hbook
      split at hbook
      · simp at hbook
      · next hcurrent =>
        obtain rfl := Option.some.inj hbook
        exact h.fork hcurrent
  | tick =>
      obtain ⟨rfl, rfl⟩ := Prod.mk.inj (Option.some.inj hmove)
      obtain rfl := Option.some.inj hbook
      exact h.tick
  | call caller =>
      simp only [Sched.move] at hmove
      split at hmove
      · next hrunnable =>
        obtain ⟨_, hsome, heq⟩ := Option.map_eq_some_iff.mp hmove
        obtain ⟨rfl, rfl⟩ := Prod.mk.inj heq
        obtain ⟨⟨resets, result⟩, hpick, rfl⟩ := Option.map_eq_some_iff.mp hbook
        exact h.call caller hrunnable hsome (Sched.pickRun_sound hpick)
      · simp at hmove
  | block =>
      simp only [Sched.move] at hmove
      simp only [Sched.book] at hbook
      split at hmove
      · next hforked =>
        obtain ⟨rfl, rfl⟩ := Prod.mk.inj (Option.some.inj hmove)
        split at hbook
        · simp at hbook
        · next hcurrent =>
          obtain rfl := Option.some.inj hbook
          exact h.block hforked hcurrent (by decide)
      · simp at hmove
  | wake p =>
      simp only [Sched.move] at hmove
      obtain rfl := Option.some.inj hbook
      split at hmove
      · next hdequeued =>
        obtain ⟨rfl, rfl⟩ := Prod.mk.inj (Option.some.inj hmove)
        exact h.wake hdequeued.1 hdequeued.2
      · simp at hmove

theorem ShareRun.moves {s s₀ : Sched} (h : ShareRun stays s₀ pending₀ s pending l) :
    ∀ ms, Sched.bookedMoves stays ms ((s, pending), l) = some ((s', pending'), l') →
      ShareRun stays s₀ pending₀ s' pending' l' := by
  intro ms
  induction ms generalizing s pending l with
  | nil =>
      intro hmoves
      obtain ⟨heq, rfl⟩ := Prod.mk.inj (Option.some.inj hmoves)
      obtain ⟨rfl, rfl⟩ := Prod.mk.inj heq
      exact h
  | cons m ms ih =>
      intro hmoves
      obtain ⟨_, hmove, hrest⟩ := Option.bind_eq_some_iff.mp hmoves
      obtain ⟨_, hbook, hrest⟩ := Option.bind_eq_some_iff.mp hrest
      exact ih (h.move hmove hbook) hrest

end

/-- Of these threads the third blocks and is woken. -/
def threads : Sched :=
  ((firstFork.doFork pfKthread 0x80100 0).2.doFork pfKthread 0x80200 0).2

theorem threads_run : SchedRun Sched.Runnable threads false := (firstFork_run _).fork.fork

def Lasting (p : TaskPtr) : Prop := p = firstTask ∨ p = secondTask

instance decidableLasting : DecidablePred Lasting :=
  fun _ => inferInstanceAs (Decidable (_ ∨ _))

theorem lasting_stays (p : TaskPtr) (hp : Lasting p) :
    threads.Forked p ∧ (threads.task p).state = .running := by
  cases hp with
  | inl heq => exact heq ▸ ⟨by decide +kernel, by decide +kernel⟩
  | inr heq => exact heq ▸ ⟨by decide +kernel, by decide +kernel⟩

/-- Time until the slice is over. -/
def ticks (n : Nat) : List SchedMove := List.replicate n .tick ++ [.call .schedule]

def shareMoves : List SchedMove :=
  .call .schedule :: ticks 13 ++ ticks 6 ++ .block :: .call .schedule ::
    ticks 27 ++ ticks 27 ++
    .wake thirdTask :: ticks 27 ++ ticks 27 ++ ticks 27

theorem exists_shareRun : ∃ s l, ShareRun Lasting threads false s false l ∧
    (l.ran firstTask, l.ran secondTask) = (67, 60) ∧ (l.ticks, l.resets) = (154, 3) := by
  have hmoves : ((Sched.bookedMoves Lasting shareMoves ((threads, false), .empty)).map fun x =>
      (x.1.2, (x.2.ran firstTask, x.2.ran secondTask), x.2.ticks, x.2.resets)) =
      some (false, (67, 60), 154, 3) := by decide +kernel
  obtain ⟨⟨⟨s, pending⟩, l⟩, hrun, hfacts⟩ := Option.map_eq_some_iff.mp hmoves
  obtain ⟨rfl, hran, hledger⟩ := by simpa only [Prod.mk.injEq] using hfacts
  exact ⟨s, l, ShareRun.start.moves _ hrun, by simpa using hran, by simpa using hledger⟩

/-- From every state that a run from `sched_init` comes to, and whatever the other tasks do:
a task that neither forks nor blocks has been charged for exactly what it had, less what it
has left, and a slice for each reset; so no two such tasks are apart by more than two slices
of each. -/
theorem shareRun_proportional {stays : TaskPtr → Prop} {s₀ s : Sched}
    (hrun : SchedRun Sched.Runnable s₀ pending₀)
    (hstays : ∀ p, stays p → s₀.Forked p ∧ (s₀.task p).state = .running)
    (h : ShareRun stays s₀ pending₀ s pending l) :
    (∀ p, stays p → (l.ran p : Int) =
      (s₀.task p).count - (s.task p).count + l.resets * s₀.slice p) ∧
    ∀ p q, stays p → stays q →
      l.ran p * s₀.slice q ≤ l.ran q * s₀.slice p + 2 * (s₀.slice p * s₀.slice q) := by
  have hbegin := ShareRun.balanced hrun.coherent hstays .start
  have hend := ShareRun.balanced hrun.coherent hstays h
  have hlaw : ∀ p, stays p → (l.ran p : Int) =
      (s₀.task p).count - (s.task p).count + l.resets * s₀.slice p := by
    intro p hp
    have hsum := (hend.accounts p hp).law
    omega
  refine ⟨hlaw, fun p q hp hq => ?_⟩
  obtain ⟨hlow, hhigh⟩ := hbegin.count_range hp
  obtain ⟨hlow', hhigh'⟩ := hend.count_range hp
  obtain ⟨hlowq, hhighq⟩ := hbegin.count_range hq
  obtain ⟨hlowq', hhighq'⟩ := hend.count_range hq
  have hmore : ((s₀.task p).count - (s.task p).count) * s₀.slice q ≤
    s₀.slice p * s₀.slice q :=
    mul_le_mul_of_nonneg_right (by omega) (by omega)
  have hless : -s₀.slice q * s₀.slice p ≤
    ((s₀.task q).count - (s.task q).count) * s₀.slice p :=
    mul_le_mul_of_nonneg_right (by omega) (by omega)
  rw [hlaw p hp, hlaw q hq]
  linarith

theorem shareRun_proportional_threads : ∃ s l, ShareRun Lasting threads false s false l ∧
    l.resets = 3 ∧ l.ran firstTask = 67 ∧ l.ran secondTask = 60 ∧
    (l.ran firstTask : Int) = (threads.task firstTask).count - (s.task firstTask).count +
      l.resets * threads.slice firstTask ∧
    l.ran firstTask * threads.slice secondTask ≤
      l.ran secondTask * threads.slice firstTask +
      2 * (threads.slice firstTask * threads.slice secondTask) := by
  obtain ⟨s, l, h, hran, hledger⟩ := exists_shareRun
  obtain ⟨hlaw, hfair⟩ := shareRun_proportional threads_run lasting_stays h
  obtain ⟨hfirst, hsecond⟩ := Prod.mk.inj hran
  exact ⟨s, l, h, (Prod.mk.inj hledger).2, hfirst, hsecond, hlaw _ (.inl rfl),
    hfair _ _ (.inl rfl) (.inr rfl)⟩

/-- A forked task that stays `TASK_RUNNING` does not starve: of the ticks that are charged to
anyone, it is charged a slice at the least for every `allSlices` of them but the first two. -/
theorem shareRun_served {stays : TaskPtr → Prop} {s₀ s : Sched}
    (hrun : SchedRun Sched.Runnable s₀ pending₀)
    (hstays : ∀ p, stays p → s₀.Forked p ∧ (s₀.task p).state = .running)
    (h : ShareRun stays s₀ pending₀ s pending l) :
    (l.ticks : Int) ≤ (l.resets + 1) * Sched.allSlices ∧
      ∀ p, stays p → ((l.resets : Int) - 1) * s₀.slice p ≤ l.ran p ∧
        ∀ n : Nat, (n + 1) * Sched.allSlices < l.ticks → n * s₀.slice p ≤ l.ran p := by
  have hbegin := ShareRun.balanced hrun.coherent hstays .start
  have hend := ShareRun.balanced hrun.coherent hstays h
  have hticks : (l.ticks : Int) ≤ (l.resets + 1) * Sched.allSlices := by
    obtain ⟨queue, ring, hc, htotal⟩ := hend.total
    have hnonneg := hc.totalCount_nonneg
    rw [Int.add_mul, Int.one_mul]
    omega
  refine ⟨hticks, fun p hp => ?_⟩
  have hlaw := (hend.accounts p hp).law
  obtain ⟨hlow, _⟩ := hbegin.count_range hp
  obtain ⟨hlow', hhigh'⟩ := hend.count_range hp
  have hslices : ((l.resets : Int) - 1) * s₀.slice p ≤ l.ran p := by
    rw [Int.sub_mul, Int.one_mul]
    omega
  refine ⟨hslices, fun n hn => le_trans ?_ hslices⟩
  have hresets : (n : Int) + 1 < l.resets + 1 :=
    lt_of_mul_lt_mul_right (lt_of_lt_of_le hn hticks) (by decide)
  have hnonneg : 0 ≤ s₀.slice p := by omega
  exact mul_le_mul_of_nonneg_right (by omega) hnonneg

theorem shareRun_served_threads :
    ∃ s pending l, ShareRun Lasting threads false s pending l ∧
    2 * Sched.allSlices < l.ticks ∧ threads.slice secondTask = 27 ∧ 27 ≤ l.ran secondTask ∧
    ((l.resets : Int) - 1) * 27 ≤ l.ran secondTask := by
  obtain ⟨_, _, hshare, _⟩ := exists_shareRun
  obtain ⟨s, pending, l, h, hticks⟩ :=
    hshare.exists_ticks threads_run.coherent lasting_stays (.inl rfl) 3600
  have hmany : 2 * Sched.allSlices < l.ticks := by
    rw [hticks]
    simp only [Sched.allSlices, nrTask, defCounter]
    omega
  have hslice : threads.slice secondTask = 27 := by decide +kernel
  obtain ⟨hresets, hserved⟩ := (shareRun_served threads_run lasting_stays h).2 _ (.inr rfl)
  rw [hslice] at hresets hserved
  exact ⟨s, pending, l, h, hmany, hslice, by simpa using hserved 1 (by simpa using hmany), hresets⟩

end YiOS
