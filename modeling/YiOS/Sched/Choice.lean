import YiOS.Sched.Runs

namespace YiOS

open YiOS.Library

/-! `pick_next_task_simple` with its jumps to `repeat`. -/

namespace Sched

/-- A run of the body from `repeat` on that resets the scores `resets` times. -/
inductive PickRun (fuel : Nat) :
    Nat → Option TaskPtr → Sched → Option TaskPtr × Sched → Prop
  | done (hscan : s.scanQueue fuel ⟨-1000, next⟩ = some pick) (hnonzero : pick.c ≠ 0) :
      PickRun fuel 0 next s (pick.next, s)
  | reset (hscan : s.scanQueue fuel ⟨-1000, next⟩ = some pick) (hzero : pick.c = 0)
      (hreset : s.resetScore fuel = some full)
      (hrest : PickRun fuel resets pick.next full result) :
      PickRun fuel (resets + 1) next s result

theorem scanQueue_mono {s : Sched} (h : s.scanQueue fuel start = some pick) (more : Nat) :
    s.scanQueue (fuel + more) start = some pick :=
  forEach_mono h (Nat.le_add_right fuel more)

theorem resetScore_mono {s : Sched} (h : s.resetScore fuel = some full) (more : Nat) :
    s.resetScore (fuel + more) = some full :=
  forEach_mono h (Nat.le_add_right fuel more)

theorem PickRun.picks (h : PickRun fuel resets next s result) :
    pickNextTaskSimple (fuel + resets + 1) next s = some result := by
  induction h with
  | done hscan hnonzero =>
      rw [Nat.add_zero, pickNextTaskSimple, hscan, Option.bind_some, if_neg hnonzero]
  | reset hscan hzero hreset hrest ih =>
      rw [pickNextTaskSimple, scanQueue_mono hscan, Option.bind_some, if_pos hzero,
        resetScore_mono hreset, Option.bind_some]
      exact ih

/-- What is picked from a queue, the counts afterwards and the resets on the way. -/
structure Choice (s : Sched) (queue ring : List TaskPtr) (p : TaskPtr)
    (counts : TaskPtr → Int) (resets : Nat) : Prop where
  resets_le : resets ≤ 1
  resets_iff : resets = 1 ↔ ∀ q ∈ queue, (s.task q).count = 0
  kept : resets = 0 → counts = fun t => (s.task t).count
  reset : resets = 1 → counts = fun t =>
    if t ∈ ring then defCounter + (s.task t).priority else (s.task t).count
  best : Best counts queue p

section

variable {s : Sched} {queue ring : List TaskPtr}
variable (hpriority : ∀ p ∈ ring, 0 ≤ (s.task p).priority ∧
  defCounter + (s.task p).priority < 2 ^ 31)

include hpriority

theorem resetCounts_eq : s.resetCounts ring = fun t =>
    if t ∈ ring then defCounter + (s.task t).priority else (s.task t).count := by
  funext t
  by_cases ht : t ∈ ring
  · rw [resetCounts_of_mem ht (hpriority t ht).1 (hpriority t ht).2, if_pos ht]
  · rw [resetCounts, if_neg ht, if_neg ht]

theorem resetCounts_range {q : TaskPtr}
    (hcount : 0 ≤ (s.task q).count ∧ (s.task q).count < 2 ^ 31) :
    0 ≤ s.resetCounts ring q ∧ s.resetCounts ring q < 2 ^ 31 := by
  by_cases hmem : q ∈ ring
  · obtain ⟨hlow, hhigh⟩ := hpriority q hmem
    rw [resetCounts_of_mem hmem hlow hhigh]
    simp only [defCounter] at hhigh ⊢
    omega
  · rw [resetCounts, if_neg hmem]
    exact hcount

/-- One queued task in the ring is enough for the second round to end. -/
theorem resetCounts_best_pos {p q : TaskPtr} (hq : q ∈ queue) (hmem : q ∈ ring)
    (hbest : Best (s.resetCounts ring) queue p) : 0 < s.resetCounts ring p := by
  obtain ⟨hlow, hhigh⟩ := hpriority q hmem
  have hle : s.resetCounts ring q ≤ s.resetCounts ring p := hbest.le q hq
  rw [resetCounts_of_mem hmem hlow hhigh] at hle
  simp only [defCounter] at hle
  omega

end

/-- One reset is enough, unless nothing but the idle `init_task` is queued. -/
theorem pickRun_choice {s : Sched} {queue ring : List TaskPtr}
    (hqueue : Cycle s.list .rqHead (queue.map .runList))
    (hring : Cycle s.links .initTask ring)
    (hsub : ∀ p ∈ queue, p ∈ .initTask :: ring) (hne : queue ≠ [])
    (hcounts : ∀ p ∈ queue, 0 ≤ (s.task p).count ∧ (s.task p).count < 2 ^ 31)
    (hpriority : ∀ p ∈ ring, 0 ≤ (s.task p).priority ∧
      defCounter + (s.task p).priority < 2 ^ 31)
    (hidle : ∃ p ∈ queue, p ≠ .initTask ∨ (s.task p).count ≠ 0)
    (next : Option TaskPtr) (fuel : Nat) (hfuelRing : ring.length < fuel)
    (hfuelQueue : queue.length < fuel) :
    ∃ p counts resets, s.Choice queue ring p counts resets ∧
      PickRun fuel resets next s (some p, s.recount counts) ∧
        pickNextTaskSimple (fuel + 2) next s = some (some p, s.recount counts) := by
  obtain ⟨p, hbest, hscan⟩ := scanQueue_best hqueue hne hcounts next fuel hfuelQueue
  by_cases hzero : (s.task p).count = 0
  · have hall : ∀ q ∈ queue, (s.task q).count = 0 := by
      intro q hq
      have hle : (s.task q).count ≤ (s.task p).count := hbest.le q hq
      have hcount := (hcounts q hq).1
      omega
    obtain ⟨p', hbest', hscan'⟩ := scanQueue_best (s := s.recount (s.resetCounts ring))
      hqueue hne (fun q hq => resetCounts_range hpriority (hcounts q hq)) (some p) fuel
      hfuelQueue
    obtain ⟨q, hq, hbusy⟩ := hidle
    have hmem : q ∈ ring := by
      cases List.mem_cons.mp (hsub q hq) with
      | inl hinit => exact absurd (hall q hq) (hbusy.resolve_left (not_not.mpr hinit))
      | inr hmem => exact hmem
    have hnonzero : ¬ ((s.recount (s.resetCounts ring)).task p').count = 0 :=
      (resetCounts_best_pos hpriority hq hmem hbest').ne'
    have hrun : PickRun fuel 1 next s (some p', s.recount (s.resetCounts ring)) :=
      .reset hscan hzero (resetScore_eq hring hfuelRing) (.done hscan' hnonzero)
    refine ⟨p', s.resetCounts ring, 1, ⟨le_rfl, ?_, ?_, fun _ => resetCounts_eq hpriority,
      hbest'⟩, hrun, hrun.picks⟩
    · exact ⟨fun _ => hall, fun _ => rfl⟩
    · exact fun h => absurd h one_ne_zero
  · have hrun : PickRun fuel 0 next s (some p, s.recount fun t => (s.task t).count) :=
      .done hscan hzero
    refine ⟨p, fun t => (s.task t).count, 0,
      ⟨Nat.zero_le 1, ?_, fun _ => rfl, ?_, hbest⟩, hrun,
      pickNextTaskSimple_mono hrun.picks (by omega)⟩
    · exact ⟨fun h => absurd h zero_ne_one, fun h => absurd (h p hbest.mem) hzero⟩
    · exact fun h => absurd h zero_ne_one

theorem firstFork_runQueue : Cycle firstFork.list .rqHead ([firstTask].map .runList) where
  segment := by decide +kernel
  nodup := by decide +kernel

theorem firstFork_taskRing : Cycle firstFork.links .initTask [firstTask] where
  segment := by decide +kernel
  nodup := by decide +kernel

/-- Three threads, all of them out of time. -/
def spent : Sched :=
  ((firstFork.doFork pfKthread 0x80100 0).2.doFork pfKthread 0x80200 0).2.recount fun _ => 0

theorem spent_runQueue :
    Cycle spent.list .rqHead ([thirdTask, secondTask, firstTask].map .runList) where
  segment := by decide +kernel
  nodup := by decide +kernel

theorem spent_taskRing :
    Cycle spent.links .initTask [firstTask, secondTask, thirdTask] where
  segment := by decide +kernel
  nodup := by decide +kernel

/-- All slices are the same, so after a reset the first of the queue is picked. -/
theorem pickRun_choice_spent : ∃ counts,
    spent.Choice [thirdTask, secondTask, firstTask]
      [firstTask, secondTask, thirdTask] thirdTask
      counts 1 ∧
    PickRun 4 1 none spent (some thirdTask, spent.recount counts) ∧
      pickNextTaskSimple 6 none spent = some (some thirdTask, spent.recount counts) := by
  obtain ⟨p, counts, resets, hchoice, hrun, hpick⟩ :=
    pickRun_choice spent_runQueue spent_taskRing (by decide) (by decide) (by decide +kernel)
      (by decide +kernel) (by decide +kernel) none 4 (by decide) (by decide)
  have hpicks : (pickNextTaskSimple 6 none spent).map Prod.fst = some (some thirdTask) := by
    decide +kernel
  obtain rfl : p = thirdTask := by simpa [hpick] using hpicks
  obtain rfl : resets = 1 := hchoice.resets_iff.mpr (by decide +kernel)
  exact ⟨counts, hchoice, hrun, hpick⟩

/-- `firstFork` with a used-up task of the largest priority. -/
def eager : Sched :=
  firstFork.modify firstTask fun t => { t with count := 0, priority := 2 ^ 31 - 1 }

/-- With nothing but an idle `init_task` queued the loop never ends: the reset passes over
it. -/
theorem idle_endless {s : Sched} (hqueue : Cycle s.list .rqHead [.runList .initTask])
    (hring : Cycle s.links .initTask []) (hzero : (s.task .initTask).count = 0)
    (next : Option TaskPtr) (fuel : Nat) : pickNextTaskSimple fuel next s = none := by
  induction fuel generalizing next with
  | zero => rfl
  | succ fuel ih =>
      have hqueue' : Cycle s.list .rqHead ([.initTask].map ListPtr.runList) := hqueue
      obtain ⟨p, hbest, hscan⟩ := scanQueue_best hqueue' (by decide) (by simp [hzero]) next
        (fuel + 2) (by simp)
      have hp : p = .initTask := List.mem_singleton.mp hbest.mem
      rw [pickNextTaskSimple, Option.bind_eq_none_iff]
      intro pick hpick
      have hsame := hscan.symm.trans (scanQueue_mono hpick 2)
      rw [Option.some.injEq, hp, hzero] at hsame
      subst hsame
      rw [if_pos rfl, Option.bind_eq_none_iff]
      intro full hfull
      have hreset := (resetScore_eq hring (Nat.succ_pos fuel)).symm.trans
        (resetScore_mono hfull 1)
      have hcounts : s.recount (s.resetCounts []) = s := rfl
      rw [hcounts, Option.some.injEq] at hreset
      subst hreset
      exact ih (some .initTask)

/-- A priority at the end of its range gives no count of `DEF_COUNTER` more. -/
theorem not_pickRun_choice : ¬ ∀ (s : Sched) (queue ring : List TaskPtr),
    Cycle s.list .rqHead (queue.map .runList) → Cycle s.links .initTask ring →
      (∀ p ∈ queue, p ∈ .initTask :: ring) → queue ≠ [] →
        (∀ p ∈ queue, 0 ≤ (s.task p).count ∧ (s.task p).count < 2 ^ 31) →
          (∀ p ∈ .initTask :: ring, 0 ≤ (s.task p).priority ∧
            (s.task p).priority < 2 ^ 31) →
            ∃ fuel p counts resets, s.Choice queue ring p counts resets ∧
              pickNextTaskSimple fuel none s = some (some p, s.recount counts) := by
  intro h
  obtain ⟨fuel, p, counts, resets, hchoice, hpick⟩ := h eager [firstTask] [firstTask]
    firstFork_runQueue firstFork_taskRing (by decide) (by decide) (by decide +kernel)
    (by decide +kernel)
  have hresets : resets = 1 := hchoice.resets_iff.mpr (by decide +kernel)
  have hcount : counts firstTask = 2147483672 := by
    rw [hchoice.reset hresets]
    decide +kernel
  have hrun : (pickNextTaskSimple 6 none eager).map
      (fun result => (result.2.task firstTask).count) = some (-2147483624) := by
      decide +kernel
  obtain ⟨result, hresult, hnegative⟩ := Option.map_eq_some_iff.mp hrun
  have hsame := (pickNextTaskSimple_mono hpick (Nat.le_add_right fuel 6)).symm.trans
    (pickNextTaskSimple_mono hresult (Nat.le_add_left 6 fuel))
  rw [← Option.some.inj hsame] at hnegative
  exact absurd (hcount.symm.trans hnegative) (by decide)

end Sched

end YiOS
