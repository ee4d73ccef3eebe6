import YiOS.Sched.Runs

namespace YiOS

open YiOS.Library

/-! Wake-ups of tasks that are still queued. -/

namespace Sched

/-- What a wake-up of `p` is for: afterwards `p` can run and is on the queue once, the
others are queued as before, and the queue is finite and counted. -/
def Wakes (s : Sched) (p : TaskPtr) : Prop :=
  ∃ before after : List TaskPtr,
    (∃ fuel, trail (fun x => (s.list x).next) .rqHead fuel =
      some (before.map .runList)) ∧
    (∃ fuel, trail (fun x => ((s.wakeUpProcess p).list x).next) .rqHead fuel =
      some (after.map .runList)) ∧
    ((s.wakeUpProcess p).task p).state = .running ∧
    after.count p = 1 ∧
    after.filter (· ≠ p) = before.filter (· ≠ p) ∧
    (s.wakeUpProcess p).nrRunning.toNat = after.length

theorem trail_unique {next : ListPtr → ListPtr} (h : trail next head fuel = some xs)
    (h' : trail next head fuel' = some ys) : xs = ys := by
  have hlong := forEach_mono h (Nat.le_add_right fuel fuel')
  rw [forEach_mono h' (Nat.le_add_left fuel' fuel)] at hlong
  exact (Option.some.inj hlong).symm

theorem runList_injective : Function.Injective ListPtr.runList := by
  intro p q heq
  injection heq

theorem length_eq_count_add (xs : List TaskPtr) (p : TaskPtr) :
    xs.length = xs.count p + (xs.filter (· ≠ p)).length := by
  rw [List.length_eq_countP_add_countP (· == p), List.count, ← List.countP_eq_length_filter]
  simp

namespace Coherent

variable {s : Sched} {pending : Bool} {queue ring : List TaskPtr} {p : TaskPtr}

theorem wakes_of_dequeued (h : Coherent s pending queue ring) (hring : p ∈ ring)
    (hp : p ∉ queue) : s.Wakes p := by
  have hwoken := h.wake hring hp
  refine ⟨queue, p :: queue, ⟨_, h.trail_next⟩, ⟨_, hwoken.trail_next⟩, ?_, ?_, ?_,
    hwoken.nrRunning_toNat⟩
  · simp [wakeUpProcess, enqueueTaskSimple]
  · rw [List.count_cons_self, List.count_eq_zero.mpr hp]
  · simp

/-- Counting alone tells a second place in the queue from the first. -/
theorem not_wakes_of_queued (h : Coherent s pending queue ring) (hp : p ∈ queue) :
    ¬ s.Wakes p := by
  rintro ⟨before, after, ⟨_, hbefore⟩, _, _, hcount, hothers, hlength⟩
  obtain rfl : before = queue :=
    List.map_injective_iff.mpr runList_injective (trail_unique hbefore h.trail_next)
  have hold := length_eq_count_add before p
  have hnew := length_eq_count_add after p
  rw [List.count_eq_one_of_mem h.queue_nodup hp] at hold
  rw [hcount, hothers] at hnew
  have hnr : (s.nrRunning + 1).toNat = after.length := hlength
  have hnrRunning := h.nrRunning_toNat
  have hbound := h.ring_length
  have hqueue := h.queue_length
  rw [BitVec.toNat_add, hnrRunning] at hnr
  simp only [nrTask] at hbound
  simp at hnr
  omega

/-- `list_add` on a queued node: the walk from the head comes by it again and again. -/
theorem wake_endless (h : Coherent s pending queue ring) (hp : p ∈ queue) (fuel : Nat) :
    trail (fun x => ((s.wakeUpProcess p).list x).next) .rqHead fuel = none := by
  obtain ⟨l, r, rfl⟩ := List.append_of_mem hp
  have hcycle := h.runQueue
  rw [List.map_append, List.map_cons] at hcycle
  have hclosed : ∀ c ∈ ListPtr.runList p :: l.map .runList,
      (listAdd s.list (.runList p) .rqHead c).next ∈ ListPtr.runList p ::
        l.map .runList := by
    refine hcycle.pushFront_again ?_ fun c hhead hnew => ?_
    · simp [listAdd, __listAdd, Heap.setNext_next]
    · simp [listAdd, __listAdd, Heap.setNext_next, hhead, hnew]
  refine forEach_endless (S := { c | c ∈ ListPtr.runList p :: l.map .runList }) (by simp)
    hclosed ?_
  simp [wakeUpProcess, enqueueTaskSimple, modify, listAdd, __listAdd, Heap.setNext_next]

end Coherent

/-- No wake-up is without effect. -/
theorem wakeUpProcess_ne (s : Sched) (p : TaskPtr) : s.wakeUpProcess p ≠ s := by
  intro heq
  have hnrRunning : s.nrRunning + 1 = s.nrRunning := congrArg Sched.nrRunning heq
  simp at hnrRunning

end Sched

/-- In every run whose calls all find a runnable task and whose wake-ups are all of
dequeued tasks, a further wake-up of a forked task does its work exactly when the task is
dequeued; of a queued task it makes the queue endless.  A second wake-up is never without
effect. -/
theorem schedRun_wakes_iff {s : Sched} (h : SchedRun Sched.Runnable s pending)
    (hp : s.Forked p) :
    (s.Wakes p ↔ s.Dequeued p) ∧
      (¬ s.Dequeued p → ∀ fuel,
        trail (fun x => ((s.wakeUpProcess p).list x).next) .rqHead fuel = none) ∧
      (s.wakeUpProcess p).wakeUpProcess p ≠ s.wakeUpProcess p := by
  obtain ⟨⟨queue, ring, hc⟩, _⟩ := h.coherent
  have hring := (hc.forked p).mpr hp
  rw [hc.dequeued_iff hring, not_not]
  refine ⟨⟨?_, hc.wakes_of_dequeued hring⟩, hc.wake_endless, Sched.wakeUpProcess_ne _ p⟩
  exact fun hwakes hqueue => hc.not_wakes_of_queued hqueue hwakes

theorem firstFork_not_dequeued : ¬ firstFork.Dequeued firstTask := by
  unfold Sched.Dequeued
  decide +kernel

theorem schedRun_wakes_iff_firstFork :
    SchedRun Sched.Runnable firstFork false ∧ firstFork.Forked firstTask ∧
      ¬ firstFork.Wakes firstTask := by
  refine ⟨firstFork_run _, firstFork_forked, ?_⟩
  rw [(schedRun_wakes_iff (firstFork_run Sched.Runnable) firstFork_forked).1]
  exact firstFork_not_dequeued

/-- A thread that has just been forked is woken up once more. -/
theorem schedRun_not_wakes :
    ∃ s p, SchedRun (fun _ => True) s false ∧ s.Forked p ∧ ¬ s.Wakes p ∧
      (s.wakeUpProcess p).wakeUpProcess p ≠ s.wakeUpProcess p := by
  obtain ⟨⟨queue, ring, hc⟩, _⟩ := (firstFork_run Sched.Runnable).coherent
  have hring := (hc.forked firstTask).mpr firstFork_forked
  have hqueue : firstTask ∈ queue := by
    by_contra hnot
    exact firstFork_not_dequeued ((hc.dequeued_iff hring).mpr hnot)
  exact ⟨firstFork, firstTask, firstFork_run _, firstFork_forked,
    hc.not_wakes_of_queued hqueue, Sched.wakeUpProcess_ne _ _⟩

end YiOS
