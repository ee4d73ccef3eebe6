import YiOS.Sched.Fork
import YiOS.Sched.Pick

namespace YiOS

open YiOS.Library

/-! The invariant of the run queue and of the task ring. -/

/-- A place `cpu_switch_to` can return to. -/
def CodePtr.Known (pc : CodePtr) : Prop := pc = .retFromFork ∨ pc = .afterSwitch

namespace Sched

/-- The tasks `do_fork` has made. -/
def Forked (s : Sched) (p : TaskPtr) : Prop :=
  p ≠ .initTask ∧ ∃ i, s.gTask i = some p

/-- Every forked task has a slot of `g_task`. -/
theorem length_le_nrTask {s : Sched} {tasks : List TaskPtr} (hnodup : tasks.Nodup)
    (hforked : ∀ p ∈ tasks, s.Forked p) : tasks.length ≤ nrTask := by
  have hsub : (tasks.map some).toFinset ⊆ Finset.univ.image s.gTask := by
    intro slot hslot
    obtain ⟨p, hp, rfl⟩ := List.mem_map.mp (List.mem_toFinset.mp hslot)
    obtain ⟨_, i, hi⟩ := hforked p hp
    exact Finset.mem_image.mpr ⟨i, Finset.mem_univ i, hi⟩
  have hcard : (tasks.map some).toFinset.card = tasks.length := by
    rw [List.toFinset_card_of_nodup (hnodup.map (Option.some_injective _)),
      List.length_map]
  calc tasks.length = (tasks.map some).toFinset.card := hcard.symm
    _ ≤ (Finset.univ.image s.gTask).card := Finset.card_le_card hsub
    _ ≤ (Finset.univ : Finset (Fin nrTask)).card := Finset.card_image_le
    _ = nrTask := Finset.card_fin nrTask

/-- `list_del` leaves its mark until the task is queued again. -/
def Dequeued (s : Sched) (p : TaskPtr) : Prop :=
  (s.list (.runList p)).next = listPoison1

/-- What holds of the tasks in the ring one by one. -/
structure Members (s : Sched) (ring : List TaskPtr) : Prop where
  pages : ∀ p ∈ ring, ∃ i, p = .ofPage (pageAddr i) ∧ s.memMap i ≠ 0
  current : s.current ∈ .initTask :: ring
  initState : (s.task .initTask).state = .running
  counts : ∀ p ∈ .initTask :: ring, 0 ≤ (s.task p).count ∧
    (s.task p).count ≤ defCounter + (s.task p).priority
  priority : ∀ p ∈ .initTask :: ring, 1 ≤ (s.task p).priority ∧
    (s.task p).priority ≤ 2
  resumable : ∀ p ∈ .initTask :: ring, p ≠ s.current →
    (s.task p).cpuContext.pc.Known

/-- The queue and the ring that the links spell out, and how they fit the tasks.
`pending` is the time from a task blocking to its next pass through `__schedule`. -/
structure Coherent (s : Sched) (pending : Bool) (queue ring : List TaskPtr) : Prop
    extends Members s ring where
  runQueue : Cycle s.list .rqHead (queue.map .runList)
  taskRing : Cycle s.links .initTask ring
  nrRunning : s.nrRunning = BitVec.ofNat 32 queue.length
  forked : ∀ p, p ∈ ring ↔ s.Forked p
  queued : ∀ p, p ∈ queue ↔
    p ∈ ring ∧ ((s.task p).state = .running ∨ p = s.current ∧ pending = true)
  dequeued : ∀ p ∈ ring, p ∉ queue → s.Dequeued p

/-- Outside `__schedule` the current task runs, or is about to leave the queue. -/
def Settled (s : Sched) (pending : Bool) : Prop :=
  pending = true ↔ (s.task s.current).state ≠ .running

/-- Everything `Coherent` reads is the same. -/
structure Frame (s s' : Sched) : Prop where
  list : s'.list = s.list
  links : s'.links = s.links
  nrRunning : s'.nrRunning = s.nrRunning
  gTask : s'.gTask = s.gTask
  memMap : s'.memMap = s.memMap
  current : s'.current = s.current
  state : ∀ t, (s'.task t).state = (s.task t).state
  count : ∀ t, (s'.task t).count = (s.task t).count
  priority : ∀ t, (s'.task t).priority = (s.task t).priority
  pc : ∀ t, (s'.task t).cpuContext.pc = (s.task t).cpuContext.pc

namespace Frame

theorem trans (h : Frame s s') (h' : Frame s' s'') : Frame s s'' where
  list := h'.list.trans h.list
  links := h'.links.trans h.links
  nrRunning := h'.nrRunning.trans h.nrRunning
  gTask := h'.gTask.trans h.gTask
  memMap := h'.memMap.trans h.memMap
  current := h'.current.trans h.current
  state := fun t => (h'.state t).trans (h.state t)
  count := fun t => (h'.count t).trans (h.count t)
  priority := fun t => (h'.priority t).trans (h.priority t)
  pc := fun t => (h'.pc t).trans (h.pc t)

/-- Stores outside the tasks that `Coherent` does not read. -/
theorem of_task (htask : s'.task = s.task) (hlist : s'.list = s.list)
    (hlinks : s'.links = s.links) (hnrRunning : s'.nrRunning = s.nrRunning)
    (hgTask : s'.gTask = s.gTask) (hmemMap : s'.memMap = s.memMap)
    (hcurrent : s'.current = s.current) : Frame s s' where
  list := hlist
  links := hlinks
  nrRunning := hnrRunning
  gTask := hgTask
  memMap := hmemMap
  current := hcurrent
  state := fun t => by rw [htask]
  count := fun t => by rw [htask]
  priority := fun t => by rw [htask]
  pc := fun t => by rw [htask]

theorem refl (s : Sched) : Frame s s := of_task rfl rfl rfl rfl rfl rfl rfl

theorem modify (s : Sched) (p : TaskPtr) {f : TaskStruct → TaskStruct}
    (hstate : (f (s.task p)).state = (s.task p).state)
    (hcount : (f (s.task p)).count = (s.task p).count)
    (hpriority : (f (s.task p)).priority = (s.task p).priority)
    (hpc : (f (s.task p)).cpuContext.pc = (s.task p).cpuContext.pc) :
    Frame s (s.modify p f) where
  list := rfl
  links := rfl
  nrRunning := rfl
  gTask := rfl
  memMap := rfl
  current := rfl
  state := modify_field TaskStruct.state s hstate
  count := modify_field TaskStruct.count s hcount
  priority := modify_field TaskStruct.priority s hpriority
  pc := modify_field (fun t => t.cpuContext.pc) s hpc

theorem preemptDisable (s : Sched) : Frame s s.preemptDisable :=
  modify s _ rfl rfl rfl rfl

theorem preemptEnable (s : Sched) : Frame s s.preemptEnable :=
  modify s _ rfl rfl rfl rfl

theorem clearTaskResched (s : Sched) (p : TaskPtr) : Frame s (s.clearTaskResched p) :=
  modify s _ rfl rfl rfl rfl

theorem irq (s : Sched) (masked : Bool) : Frame s { s with irqMasked := masked } :=
  of_task rfl rfl rfl rfl rfl rfl rfl

theorem printk (s : Sched) (message : Message) : Frame s (s.printk message) :=
  of_task rfl rfl rfl rfl rfl rfl rfl

theorem scheduleDebug (s : Sched) (p : TaskPtr) : Frame s (s.scheduleDebug p) := by
  unfold Sched.scheduleDebug
  split
  · exact printk s _
  · exact refl s

theorem leave (s : Sched) (caller : Caller) : Frame s (s.leave caller) := by
  cases caller with
  | schedule => exact preemptEnable s
  | preemptScheduleIrq => exact (irq s true).trans (preemptEnable _)

theorem enter (s : Sched) (caller : Caller) : Frame s (s.enter caller) := by
  cases caller with
  | schedule => exact preemptDisable s
  | preemptScheduleIrq =>
      refine Frame.trans ?_ ((preemptDisable _).trans (irq _ false))
      split
      · exact printk s _
      · exact refl s

theorem forked (h : Frame s s') : s'.Forked p ↔ s.Forked p := by
  unfold Forked
  rw [h.gTask]

theorem settled (h : Frame s s') (hsettled : Settled s pending) : Settled s' pending := by
  unfold Settled
  rw [h.current, h.state]
  exact hsettled

end Frame

namespace Members

variable {s s' : Sched} {ring : List TaskPtr} {p : TaskPtr}

theorem frame (h : Members s ring) (hframe : Frame s s') : Members s' ring where
  pages := fun p hp => by rw [hframe.memMap]; exact h.pages p hp
  current := by rw [hframe.current]; exact h.current
  initState := by rw [hframe.state]; exact h.initState
  counts := fun p hp => by rw [hframe.count, hframe.priority]; exact h.counts p hp
  priority := fun p hp => by rw [hframe.priority]; exact h.priority p hp
  resumable := fun p hp hne => by
    rw [hframe.pc]
    exact h.resumable p hp (by rwa [hframe.current] at hne)

theorem setState (h : Members s ring) (hp : p ≠ .initTask) (state : TaskState) :
    Members (s.modify p fun t => { t with state := state }) ring :=
  { h with
    initState := by
      rw [modify_task_of_ne _ _ hp.symm]
      exact h.initState
    counts := fun q hq => by
      rw [modify_field TaskStruct.count s rfl, modify_field TaskStruct.priority s rfl]
      exact h.counts q hq
    priority := fun q hq => by
      rw [modify_field TaskStruct.priority s rfl]
      exact h.priority q hq
    resumable := fun q hq hne => by
      rw [modify_field TaskStruct.cpuContext s rfl]
      exact h.resumable q hq hne }

end Members

namespace Coherent

variable {s s' : Sched} {pending : Bool} {queue ring l r : List TaskPtr} {p : TaskPtr}

theorem frame (h : Coherent s pending queue ring) (hframe : Frame s s') :
    Coherent s' pending queue ring where
  toMembers := h.toMembers.frame hframe
  runQueue := by rw [hframe.list]; exact h.runQueue
  taskRing := by rw [hframe.links]; exact h.taskRing
  nrRunning := by rw [hframe.nrRunning]; exact h.nrRunning
  forked := fun p => (h.forked p).trans hframe.forked.symm
  queued := fun p => by rw [hframe.state, hframe.current]; exact h.queued p
  dequeued := fun p hring hqueue => by
    unfold Dequeued
    rw [hframe.list]
    exact h.dequeued p hring hqueue

theorem recount (h : Coherent s pending queue ring) {counts : TaskPtr → Int}
    (hcounts : ∀ p ∈ .initTask :: ring, 0 ≤ counts p ∧
      counts p ≤ defCounter + (s.task p).priority) :
    Coherent (s.recount counts) pending queue ring :=
  { h with counts := hcounts }

theorem ring_nodup (h : Coherent s pending queue ring) : ring.Nodup :=
  (List.nodup_cons.mp h.taskRing.nodup).2

theorem queue_nodup (h : Coherent s pending queue ring) : queue.Nodup :=
  List.Nodup.of_map _ (List.nodup_cons.mp h.runQueue.nodup).2

theorem mem_ring (h : Coherent s pending queue ring) (hp : p ∈ queue) : p ∈ ring :=
  ((h.queued p).mp hp).1

theorem runList_notMem (hp : p ∉ queue) :
    ListPtr.runList p ∉ ListPtr.rqHead :: queue.map .runList := by
  simpa using hp

theorem ring_length (h : Coherent s pending queue ring) : ring.length ≤ nrTask :=
  length_le_nrTask h.ring_nodup fun p hp => (h.forked p).mp hp

theorem queue_length (h : Coherent s pending queue ring) :
    queue.length ≤ ring.length :=
  (List.subperm_of_subset h.queue_nodup fun _ => h.mem_ring).length_le

theorem nrRunning_toNat (h : Coherent s pending queue ring) :
    s.nrRunning.toNat = queue.length := by
  have hqueue := h.queue_length
  have hring := h.ring_length
  rw [h.nrRunning, BitVec.toNat_ofNat, Nat.mod_eq_of_lt]
  simp only [nrTask] at hring
  omega

theorem nrRunning_succ (h : Coherent s pending queue ring) (p : TaskPtr) :
    s.nrRunning + 1 = BitVec.ofNat 32 (p :: queue).length := by
  rw [h.nrRunning, List.length_cons, BitVec.ofNat_add]
  rfl

theorem ne_initTask (h : Coherent s pending queue ring) (hp : p ∈ ring) :
    p ≠ .initTask := ((h.forked p).mp hp).1

theorem block (h : Coherent s pending queue ring) (hsettled : Settled s pending)
    (hcurrent : s.current ∈ ring) (state : TaskState) :
    Coherent (s.modify s.current fun t => { t with state := state }) true queue ring :=
  { h with
    toMembers := h.toMembers.setState (h.ne_initTask hcurrent) state
    queued := by
      intro q
      refine (h.queued q).trans (and_congr_right fun _ => ?_)
      by_cases hq : q = s.current
      · subst hq
        unfold Settled at hsettled
        simp [hsettled, em, modify]
      · rw [modify_task_of_ne _ _ hq]
        simp [modify, hq] }

/-- `list_add` puts the task first. -/
theorem wake (h : Coherent s pending queue ring) (hring : p ∈ ring) (hp : p ∉ queue) :
    Coherent (s.wakeUpProcess p) pending (p :: queue) ring := by
  have hfresh := runList_notMem hp
  have hinserted := listAdd_inserted s.list (by simp) (h.runQueue.ne_next hfresh)
  exact
    { h with
      toMembers := { h.toMembers.setState (h.ne_initTask hring) .running with }
      runQueue := h.runQueue.pushFront hfresh hinserted
      nrRunning := h.nrRunning_succ p
      queued := by
        intro q
        by_cases hq : q = p
        · subst hq
          simp [wakeUpProcess, enqueueTaskSimple, hring]
        · simpa [wakeUpProcess, enqueueTaskSimple, modify, hq] using h.queued q
      dequeued := by
        intro q hqring hq
        rw [List.mem_cons, not_or] at hq
        exact (hinserted.next _ (by simp) (by simpa using hq.1)).trans
          (h.dequeued q hqring hq.2) }

/-- A task that has blocked leaves the queue. -/
theorem dequeue (h : Coherent s true queue ring)
    (hstate : (s.task s.current).state ≠ .running) :
    Coherent (s.dequeueTaskSimple s.current) false (queue.erase s.current) ring := by
  have hring : s.current ∈ ring := by
    rcases List.mem_cons.mp h.current with hinit | hring
    · rw [hinit] at hstate
      exact absurd h.initState hstate
    · exact hring
  have hqueue : s.current ∈ queue := (h.queued _).mpr ⟨hring, .inr ⟨rfl, rfl⟩⟩
  obtain ⟨l, r, rfl⟩ := List.append_of_mem hqueue
  have hcycle := h.runQueue
  rw [List.map_append, List.map_cons] at hcycle
  have hremoved := listDel_removed s.list hcycle.neighbours_ne.1 hcycle.neighbours_ne.2
  have hlast := (Segment.append.mp hcycle.segment).1.prev_mem
  have hrest : s.current ∉ l ++ r :=
    (List.nodup_cons.mp (List.nodup_middle.mp h.queue_nodup)).1
  have hmem : ∀ q, q ∈ l ++ s.current :: r ↔ q = s.current ∨ q ∈ l ++ r := by
    intro q
    simp only [List.mem_append, List.mem_cons]
    tauto
  rw [List.erase_append_right _ fun hin => hrest (List.mem_append_left r hin),
    List.erase_cons_head]
  refine
    { h with
      runQueue := by
        rw [List.map_append]
        exact hcycle.remove hremoved
      nrRunning := ?_
      queued := ?_
      dequeued := ?_ }
  · change s.nrRunning - 1 = _
    rw [h.nrRunning, List.length_append, List.length_cons, List.length_append,
      ← Nat.add_assoc, BitVec.ofNat_add]
    exact BitVec.add_sub_cancel ..
  · intro q
    by_cases hq : q = s.current
    · subst hq
      exact iff_of_false hrest fun hrhs => by simp [dequeueTaskSimple, hstate] at hrhs
    · have hold := h.queued q
      rw [hmem] at hold
      simpa [hq, dequeueTaskSimple] using hold
  · intro q hqring hq
    by_cases hcurrent : q = s.current
    · subst hcurrent
      exact listDel_next ..
    · have hold := h.dequeued q hqring fun hin =>
        ((hmem q).mp hin).elim hcurrent hq
      refine (hremoved.next _ (fun heq => ?_) (by simpa using hcurrent)).trans hold
      rw [← heq] at hlast
      simp only [List.mem_cons, List.mem_map, ListPtr.runList.injEq, reduceCtorEq,
        exists_eq_right, false_or] at hlast
      exact hq (List.mem_append_left r hlast)

end Coherent

end Sched

end YiOS
