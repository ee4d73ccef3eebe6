import YiOS.Sched.Steps

namespace YiOS

open YiOS.Library

/-! Whole runs of the scheduler. -/

/-- Runs from `sched_init` in which every call of `schedule` and of
`preempt_schedule_irq` is made in a state that meets `ok`.  The flag is set while the
current task has blocked and not yet passed through `__schedule`. -/
inductive SchedRun (ok : Sched → Prop) : Sched → Bool → Prop
  | start {s : Sched} : s.Boot → SchedRun ok s.schedInit false
  | fork {s : Sched} : SchedRun ok s pending →
      SchedRun ok (s.doFork cloneFlags fn arg).2 pending
  | tick {s : Sched} : SchedRun ok s pending → SchedRun ok s.tickHandlePeriodic pending
  | schedule {s : Sched} : SchedRun ok s pending → ok s → s.schedule fuel stale = some s' →
      SchedRun ok s' false
  | preempt {s : Sched} : SchedRun ok s pending → ok s →
      s.preemptScheduleIrq fuel stale = some s' → SchedRun ok s' false
  | block {s : Sched} : SchedRun ok s pending → s.Forked s.current → state ≠ .running →
      SchedRun ok (s.modify s.current fun t => { t with state := state }) true
  | wake {s : Sched} : SchedRun ok s pending → s.Forked p → s.Dequeued p →
      SchedRun ok (s.wakeUpProcess p) pending

namespace Sched

/-- Both walks from the head end, and see the same tasks in opposite orders; these are
the tasks that can run and a blocked one on its way out; the counter is their number. -/
def QueueInvariant (s : Sched) (pending : Bool) : Prop :=
  ∃ queue : List TaskPtr,
    (∃ fuel, trail (fun x => (s.list x).next) .rqHead fuel =
      some (queue.map .runList)) ∧
    (∃ fuel, trail (fun x => (s.list x).prev) .rqHead fuel =
      some (queue.map .runList).reverse) ∧
    queue.Nodup ∧
    (∀ p, p ∈ queue ↔ s.Forked p ∧
      ((s.task p).state = .running ∨ p = s.current ∧ pending = true)) ∧
    s.nrRunning.toNat = queue.length

theorem QueueInvariant.nrRunning_le {s : Sched} (h : QueueInvariant s pending) :
    s.nrRunning.toNat ≤ nrTask := by
  obtain ⟨queue, _, _, hnodup, hmem, hlength⟩ := h
  rw [hlength]
  exact length_le_nrTask hnodup fun p hp => ((hmem p).mp hp).1

namespace Coherent

variable {s : Sched} {pending : Bool} {queue ring : List TaskPtr}

theorem trail_next (h : Coherent s pending queue ring) :
    trail (fun x => (s.list x).next) .rqHead (queue.length + 1) =
      some (queue.map .runList) :=
  h.runQueue.trail_next (by simp)

theorem queueInvariant (h : Coherent s pending queue ring) :
    QueueInvariant s pending := by
  refine ⟨queue, ⟨_, h.trail_next⟩, ⟨queue.length + 1, ?_⟩, h.queue_nodup, ?_,
    h.nrRunning_toNat⟩
  · exact h.runQueue.trail_prev (by simp)
  · intro p
    rw [h.queued, h.forked]

/-- A queued task has a live link. -/
theorem not_dequeued (h : Coherent s pending queue ring) (hp : p ∈ queue) :
    ¬ s.Dequeued p := by
  intro hdequeued
  obtain ⟨l, r, rfl⟩ := List.append_of_mem hp
  have hcycle := h.runQueue
  rw [List.map_append, List.map_cons] at hcycle
  have hnext := (Segment.append.mp hcycle.segment).2.next_mem
  rw [show (s.list (.runList p)).next = listPoison1 from hdequeued] at hnext
  simp [listPoison1] at hnext

/-- Outside `__schedule` a forked current task is on the queue. -/
theorem current_ne (h : Coherent s pending queue ring) (hsettled : Settled s pending)
    (hring : p ∈ ring) (hp : p ∉ queue) : s.current ≠ p := by
  rintro rfl
  refine hp ((h.queued _).mpr ⟨hring, ?_⟩)
  by_cases hstate : (s.task s.current).state = .running
  · exact .inl hstate
  · exact .inr ⟨rfl, hsettled.mpr hstate⟩

theorem dequeued_iff (h : Coherent s pending queue ring) (hp : p ∈ ring) :
    s.Dequeued p ↔ p ∉ queue :=
  ⟨fun hdequeued hqueue => h.not_dequeued hqueue hdequeued, h.dequeued p hp⟩

end Coherent

end Sched

/-- One step of such a run. -/
inductive SchedStep (ok : Sched → Prop) : Sched → Bool → Sched → Bool → Prop
  | fork {s : Sched} : SchedStep ok s pending (s.doFork cloneFlags fn arg).2 pending
  | tick {s : Sched} : SchedStep ok s pending s.tickHandlePeriodic pending
  | call {s : Sched} (caller : Caller) (fuel : Nat) (stale : TaskPtr) : ok s →
      s.call caller fuel stale = some s' → SchedStep ok s pending s' false
  | block {s : Sched} : s.Forked s.current → state ≠ .running →
      SchedStep ok s pending (s.modify s.current fun t => { t with state := state }) true
  | wake {s : Sched} : s.Forked p → s.Dequeued p →
      SchedStep ok s pending (s.wakeUpProcess p) pending

/-- The invariant outside `__schedule`. -/
def Sched.Sound (s : Sched) (pending : Bool) : Prop :=
  (∃ queue ring, s.Coherent pending queue ring) ∧ s.Settled pending

theorem Sched.Sound.step {s s' : Sched} (h : s.Sound pending)
    (hstep : SchedStep Sched.Runnable s pending s' pending') : s'.Sound pending' := by
  obtain ⟨⟨queue, ring, hc⟩, hsettled⟩ := h
  cases hstep with
  | fork => exact ⟨hc.fork _ _ _, hsettled.fork hc _ _ _⟩
  | tick => exact ⟨⟨queue, ring, hc.tick⟩, (Sched.tick_frame _).settled hsettled⟩
  | call caller fuel stale hrunnable hsome =>
      obtain ⟨out, queue', hout, hcout, hsettledOut⟩ := hc.call hsettled hrunnable caller
      have hlong := Sched.call_mono hsome (Nat.le_add_right fuel 67)
      rw [Sched.call_mono (hout stale) (Nat.le_add_left 67 fuel)] at hlong
      obtain rfl := Option.some.inj hlong
      exact ⟨⟨queue', ring, hcout⟩, hsettledOut⟩
  | block hforked hstate =>
      refine ⟨⟨queue, ring, hc.block hsettled ((hc.forked _).mpr hforked) _⟩, ?_⟩
      simpa [Sched.Settled, Sched.modify] using hstate
  | wake hforked hdequeued =>
      have hring := (hc.forked _).mpr hforked
      have hqueue := (hc.dequeued_iff hring).mp hdequeued
      refine ⟨⟨_, ring, hc.wake hring hqueue⟩, ?_⟩
      have hne := hc.current_ne hsettled hring hqueue
      unfold Sched.Settled at hsettled ⊢
      simpa [Sched.wakeUpProcess, Sched.enqueueTaskSimple, Sched.modify, hne]
        using hsettled

/-- Every run whose calls all find a runnable task keeps the invariant. -/
theorem SchedRun.coherent {s : Sched} (h : SchedRun Sched.Runnable s pending) :
    (∃ queue ring, s.Coherent pending queue ring) ∧ s.Settled pending := by
  induction h with
  | start hboot => exact ⟨⟨[], [], hboot.coherent⟩, hboot.settled⟩
  | fork _ ih => exact Sched.Sound.step ih .fork
  | tick _ ih => exact Sched.Sound.step ih .tick
  | schedule _ hrunnable hsome ih => exact Sched.Sound.step ih (.call _ _ _ hrunnable hsome)
  | preempt _ hrunnable hsome ih => exact Sched.Sound.step ih (.call _ _ _ hrunnable hsome)
  | block _ hforked hstate ih => exact Sched.Sound.step ih (.block hforked hstate)
  | wake _ hforked hdequeued ih => exact Sched.Sound.step ih (.wake hforked hdequeued)

/-- In every run whose calls all find a runnable task the queue is intact, and every
further such call returns. -/
theorem schedRun_queueInvariant {s : Sched} (h : SchedRun Sched.Runnable s pending) :
    s.QueueInvariant pending ∧
      (s.Runnable → ∀ stale fuel, 67 ≤ fuel →
        (s.schedule fuel stale).isSome ∧ (s.preemptScheduleIrq fuel stale).isSome) := by
  obtain ⟨⟨queue, ring, hc⟩, hsettled⟩ := h.coherent
  refine ⟨hc.queueInvariant, fun hrunnable stale fuel hfuel => ?_⟩
  have hreturns : ∀ caller, (s.call caller fuel stale).isSome := by
    intro caller
    obtain ⟨out, _, hout, _⟩ := hc.call hsettled hrunnable caller
    rw [Sched.call_mono (hout stale) hfuel]
    rfl
  exact ⟨hreturns .schedule, hreturns .preemptScheduleIrq⟩

/-- The static data, with everything else zero. -/
def bootKernel : Sched where
  task := fun _ => initTaskStruct
  ptRegs := fun _ => .zero
  list := fun _ => ⟨.raw 0, .raw 0⟩
  links := fun t => ⟨t, t⟩
  nrRunning := 0
  nrSwitches := 0
  curr := none
  gTask := fun i => if i.val = 0 then some .initTask else none
  memMap := .empty
  current := .initTask
  regs := .zero
  irqMasked := false
  caller := fun _ => .schedule
  console := []

theorem bootKernel_boot : bootKernel.Boot := ⟨rfl, rfl, rfl, rfl⟩

def firstTask : TaskPtr := .ofPage lowMemory

/-- One kernel thread has been forked. -/
def firstFork : Sched := (bootKernel.schedInit.doFork pfKthread 0x80000 0).2

theorem firstFork_run (ok : Sched → Prop) : SchedRun ok firstFork false :=
  .fork (.start bootKernel_boot)

theorem firstFork_forked : firstFork.Forked firstTask :=
  ⟨by simp [firstTask], ⟨1, by decide⟩, by decide +kernel⟩

theorem firstFork_runnable : firstFork.Runnable :=
  ⟨firstTask, firstFork_forked, by decide +kernel⟩

/-- A step of a run, to run it. -/
inductive SchedMove where
  | fork (fn : U64)
  | tick
  | call (caller : Caller)
  | block
  | wake (p : TaskPtr)
  deriving DecidableEq, Repr

namespace Sched

instance decidableForked (s : Sched) (p : TaskPtr) : Decidable (s.Forked p) :=
  inferInstanceAs (Decidable (_ ∧ ∃ _, _))

instance decidableDequeued (s : Sched) (p : TaskPtr) : Decidable (s.Dequeued p) :=
  inferInstanceAs (Decidable (_ = _))

theorem runnable_iff (s : Sched) : s.Runnable ↔
    ∃ i, (s.gTask i).any fun p => p ≠ .initTask ∧ (s.task p).state = .running := by
  simp only [Runnable, Forked, Option.any_eq_true, decide_eq_true_eq]
  constructor
  · rintro ⟨p, ⟨hne, i, hslot⟩, hrunning⟩
    exact ⟨i, p, hslot, hne, hrunning⟩
  · rintro ⟨i, p, hslot, hne, hrunning⟩
    exact ⟨p, ⟨hne, i, hslot⟩, hrunning⟩

instance decidableRunnable (s : Sched) : Decidable s.Runnable :=
  decidable_of_iff _ s.runnable_iff.symm

def move (s : Sched) (pending : Bool) : SchedMove → Option (Sched × Bool)
  | .fork fn => some ((s.doFork pfKthread fn 0).2, pending)
  | .tick => some (s.tickHandlePeriodic, pending)
  | .call caller =>
      if s.Runnable then (s.call caller 67 .initTask).map fun s => (s, false) else none
  | .block =>
      if s.Forked s.current then
        some (s.modify s.current fun t => { t with state := .interruptible }, true)
      else
        none
  | .wake p =>
      if s.Forked p ∧ s.Dequeued p then some (s.wakeUpProcess p, pending) else none

def moves : List SchedMove → Sched × Bool → Option (Sched × Bool)
  | [], x => some x
  | m :: ms, x => (x.1.move x.2 m).bind (moves ms)

theorem move_step {s : Sched} {m : SchedMove} (h : s.move pending m = some x) :
    SchedStep Runnable s pending x.1 x.2 := by
  cases m with
  | fork fn =>
      obtain rfl := Option.some.inj h
      exact .fork
  | tick =>
      obtain rfl := Option.some.inj h
      exact .tick
  | call caller =>
      simp only [move] at h
      split at h
      · next hrunnable =>
        obtain ⟨s', hsome, rfl⟩ := Option.map_eq_some_iff.mp h
        exact .call caller _ _ hrunnable hsome
      · simp at h
  | block =>
      simp only [move] at h
      split at h
      · next hforked =>
        obtain rfl := Option.some.inj h
        exact .block hforked (by decide)
      · simp at h
  | wake p =>
      simp only [move] at h
      split at h
      · next hdequeued =>
        obtain rfl := Option.some.inj h
        exact .wake hdequeued.1 hdequeued.2
      · simp at h

end Sched

theorem SchedRun.step {s s' : Sched} (h : SchedRun ok s pending)
    (hstep : SchedStep ok s pending s' pending') : SchedRun ok s' pending' := by
  cases hstep with
  | fork => exact h.fork
  | tick => exact h.tick
  | call caller fuel stale hok hsome =>
      cases caller with
      | schedule => exact h.schedule hok hsome
      | preemptScheduleIrq => exact h.preempt hok hsome
  | block hforked hstate => exact h.block hforked hstate
  | wake hforked hdequeued => exact h.wake hforked hdequeued

theorem SchedRun.moves {s : Sched} (h : SchedRun Sched.Runnable s pending) :
    ∀ ms, Sched.moves ms (s, pending) = some (s', pending') →
      SchedRun Sched.Runnable s' pending' := by
  intro ms
  induction ms generalizing s pending with
  | nil =>
      intro hmoves
      obtain ⟨rfl, rfl⟩ := Prod.mk.inj (Option.some.inj hmoves)
      exact h
  | cons m ms ih =>
      intro hmoves
      obtain ⟨x, hmove, hrest⟩ := Option.bind_eq_some_iff.mp hmoves
      exact ih (h.step (Sched.move_step hmove)) hrest

def secondTask : TaskPtr := .ofPage (pageAddr ⟨1, by decide⟩)

def thirdTask : TaskPtr := .ofPage (pageAddr ⟨2, by decide⟩)

/-- Of three threads the first blocks and calls, and the second wakes it and is
preempted. -/
def wakeMoves : List SchedMove :=
  [.fork 0x80100, .fork 0x80200, .call .schedule, .tick, .block, .call .schedule, .tick,
    .wake firstTask, .call .preemptScheduleIrq]

theorem exists_wakeRun : ∃ s, SchedRun Sched.Runnable s false ∧ s.Runnable ∧
    s.current = firstTask ∧ s.nrRunning = 3 ∧ (s.doFork pfKthread 0x80300 0).1 = 4 := by
  have hmoves : ((Sched.moves wakeMoves (firstFork, false)).map fun x =>
      ((x.2, decide x.1.Runnable), x.1.current, x.1.nrRunning,
        (x.1.doFork pfKthread 0x80300 0).1)) =
      some ((false, true), firstTask, 3, 4) := by decide +kernel
  obtain ⟨⟨s, pending⟩, hrun, hfacts⟩ := Option.map_eq_some_iff.mp hmoves
  simp only [Prod.mk.injEq, decide_eq_true_eq] at hfacts
  obtain ⟨⟨rfl, hrunnable⟩, hcurrent, hnrRunning, hpid⟩ := hfacts
  exact ⟨s, (firstFork_run _).moves _ hrun, hrunnable, hcurrent, hnrRunning, hpid⟩

theorem schedRun_queueInvariant_wake : ∃ s, SchedRun Sched.Runnable s false ∧
    s.nrRunning = 3 ∧ s.QueueInvariant false ∧ (s.schedule 67 firstTask).isSome := by
  obtain ⟨s, hrun, hrunnable, _, hnrRunning, _⟩ := exists_wakeRun
  obtain ⟨hqueue, hreturns⟩ := schedRun_queueInvariant hrun
  exact ⟨s, hrun, hnrRunning, hqueue, (hreturns hrunnable firstTask 67 le_rfl).1⟩

/-- The only thread blocks.  The first call has nothing to choose from and `next` still
holds the thread, which goes on and calls again. -/
theorem schedRun_not_queueInvariant :
    ¬ ∀ s pending, SchedRun (fun _ => True) s pending → s.QueueInvariant pending := by
  intro hall
  let block (s : Sched) : Sched :=
    s.modify s.current fun t => { t with state := .interruptible }
  have hswitch : (firstFork.schedule 4 firstTask).map
      (fun s => (s.current, s.gTask ⟨1, by decide⟩)) =
        some (firstTask, some firstTask) := by decide +kernel
  have hunderflow : ((firstFork.schedule 4 firstTask).bind fun s =>
      ((block s).schedule 4 firstTask).bind fun s => s.schedule 4 firstTask).map
        Sched.nrRunning = some 0xffffffff := by decide +kernel
  simp only [Option.map_eq_some_iff, Option.bind_eq_some_iff] at hswitch hunderflow
  obtain ⟨last, ⟨running, hfirst, idle, hsecond, hthird⟩, hnrRunning⟩ := hunderflow
  obtain ⟨_, hsame, htask⟩ := hswitch
  rw [hfirst] at hsame
  obtain rfl := Option.some.inj hsame
  rw [Prod.mk.injEq] at htask
  have hrunning := (firstFork_run fun _ => True).schedule trivial hfirst
  have hforked : running.Forked running.current := by
    rw [htask.1]
    exact ⟨by simp [firstTask], _, htask.2⟩
  have hblocked : SchedRun (fun _ => True) (block running) true :=
    hrunning.block hforked (by simp)
  have hlast := (hblocked.schedule trivial hsecond).schedule trivial hthird
  have hle := (hall last false hlast).nrRunning_le
  rw [hnrRunning] at hle
  exact absurd hle (by decide)

/-! The choice that `__schedule` makes. -/

namespace Sched

/-- `pick_next_task` returns, and what it returns is a runnable task of the ring. -/
def Definite (s : Sched) : Prop :=
  ∃ fuel next s', s.choose fuel = some (some next, s') ∧
    (∃ fuel ring, trail (fun t => (s'.links t).next) .initTask fuel = some ring ∧
      next ∈ .initTask :: ring) ∧
    (s'.task next).state = .running

theorem Coherent.definite_iff {s : Sched} (h : Coherent s pending queue ring)
    (hsettled : Settled s pending) : s.Definite ↔ s.Runnable := by
  obtain ⟨queue', hqueue⟩ := h.settle hsettled
  rw [← settle_runnable, ← hqueue.queue_ne_nil_iff]
  constructor
  · rintro ⟨fuel, next, s', hchoose, _⟩ rfl
    have hempty := pickNextTaskSimple_nil hqueue.runQueue none fuel
    rw [pickNextTaskSimple_mono hchoose (Nat.le_add_right fuel 2)] at hempty
    simp at hempty
  · intro hne
    obtain ⟨next, counts, hpick, hbest, _, hcounted, _⟩ := hqueue.pick hne
    refine ⟨67, next, _, hpick, ⟨ring.length + 1, ring, ?_, ?_⟩, ?_⟩
    · exact hcounted.taskRing.trail_next (Nat.lt_succ_self _)
    · exact List.mem_cons_of_mem _ (hcounted.mem_ring hbest.mem)
    · simpa using ((hcounted.queued next).mp hbest.mem).2

end Sched

/-- In every run whose earlier calls all found a runnable task, the next call chooses a
definite task exactly when it finds one too; then the value that the variable held before
has no influence on the call. -/
theorem schedRun_definite_iff {s : Sched} (h : SchedRun Sched.Runnable s pending)
    (caller : Caller) :
    ((s.enter caller).Definite ↔ s.Runnable) ∧
      (s.Runnable → ∃ out, ∀ stale fuel, 67 ≤ fuel →
        s.call caller fuel stale = some out) := by
  obtain ⟨⟨queue, ring, hc⟩, hsettled⟩ := h.coherent
  have henter := Sched.Frame.enter s caller
  constructor
  · rw [(hc.frame henter).definite_iff (henter.settled hsettled), henter.runnable]
  · intro hrunnable
    obtain ⟨out, _, hout, _⟩ := hc.call hsettled hrunnable caller
    exact ⟨out, fun stale fuel hfuel => Sched.call_mono (hout stale) hfuel⟩

theorem schedRun_definite_iff_firstFork :
    SchedRun Sched.Runnable firstFork false ∧ (firstFork.enter .schedule).Definite :=
  ⟨firstFork_run _,
    (schedRun_definite_iff (firstFork_run Sched.Runnable) .schedule).1.mpr
      firstFork_runnable⟩

/-- Before the first fork there is nothing to choose from, and the variable is returned
without ever having been assigned. -/
theorem schedRun_not_definite :
    ∃ s s', SchedRun (fun _ => True) s false ∧
      (s.enter .schedule).choose 2 = some (none, s') ∧
      ¬ (s.enter .schedule).Definite := by
  have hrun : SchedRun (fun _ => True) bootKernel.schedInit false := .start bootKernel_boot
  have henter := Sched.Frame.enter bootKernel.schedInit .schedule
  have hcoherent := bootKernel_boot.coherent.frame henter
  have hsettled := henter.settled bootKernel_boot.settled
  have hidle : ¬ (bootKernel.schedInit.enter .schedule).Runnable := by
    rw [← hcoherent.queue_ne_nil_iff]
    simp
  obtain ⟨queue, hqueue⟩ := hcoherent.settle hsettled
  obtain rfl : queue = [] := by
    rw [← Sched.settle_runnable, ← hqueue.queue_ne_nil_iff] at hidle
    exact not_not.mp hidle
  exact ⟨_, _, hrun, Sched.pickNextTaskSimple_nil hqueue.runQueue none 0,
    (hcoherent.definite_iff hsettled).not.mpr hidle⟩

end YiOS
