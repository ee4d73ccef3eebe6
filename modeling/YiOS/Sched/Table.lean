import YiOS.Sched.Runs

namespace YiOS

open YiOS.Library

/-! The task table, the task ring and the run queue over sequences of forks. -/

/-- Forks from `sched_init` on, each by whatever task is current, with the tasks that
have been forked in the order of the forks. -/
inductive ForkRun : Sched → List TaskPtr → Prop
  | start {s : Sched} : s.Boot → ForkRun s.schedInit []
  | fork {s : Sched} (current : TaskPtr) : ForkRun s forked →
      Sched.doFork cloneFlags fn arg { s with current := current } = (pid, s') →
      ForkRun s' (if 0 ≤ pid then forked ++ [.ofPage (getFreePage s.memMap).1] else forked)

namespace Sched

/-- The table, both walks of the ring and the walk of the queue show the same tasks. -/
structure TaskTable (s : Sched) (forked : List TaskPtr) : Prop where
  pids : ∀ i p, s.gTask i = some p → (s.task p).pid = i.val
  nodup : (.initTask :: forked).Nodup
  next : ∃ fuel, trail (fun t => (s.links t).next) .initTask fuel = some forked
  prev : ∃ fuel, trail (fun t => (s.links t).prev) .initTask fuel = some forked.reverse
  inverse : ∀ t ∈ .initTask :: forked,
    (s.links (s.links t).next).prev = t ∧ (s.links (s.links t).prev).next = t
  members : ∀ p, p ∈ .initTask :: forked ↔ ∃ i, s.gTask i = some p
  queue : ∃ fuel, trail (fun x => (s.list x).next) .rqHead fuel =
    some (forked.reverse.map .runList)

/-- The same by the links. -/
structure Table (s : Sched) (forked : List TaskPtr) : Prop where
  pids : ∀ i p, s.gTask i = some p → (s.task p).pid = i.val
  taskRing : Cycle s.links .initTask forked
  runQueue : Cycle s.list .rqHead (forked.reverse.map .runList)
  members : ∀ p, p ∈ .initTask :: forked ↔ ∃ i, s.gTask i = some p
  pages : ∀ p ∈ forked, ∃ i, p = .ofPage (pageAddr i) ∧ s.memMap i ≠ 0

theorem Boot.table {s : Sched} (h : Boot s) : Table s.schedInit [] where
  pids := by
    intro i p hi
    simp only [schedInit, h.gTask] at hi ⊢
    split at hi
    · next hzero =>
      obtain rfl := Option.some.inj hi
      simp [h.initTask, initTaskStruct, hzero]
    · exact absurd hi (by simp)
  taskRing :=
    { segment := by
        change Library.Linked s.links .initTask .initTask
        simp [Library.Linked, h.links]
      nodup := List.nodup_singleton _ }
  runQueue := initListHead_cycle s.list .rqHead
  members := by
    intro p
    simp only [schedInit, h.gTask, List.mem_singleton]
    constructor
    · rintro rfl
      exact ⟨⟨0, by decide⟩, rfl⟩
    · rintro ⟨i, hi⟩
      split at hi
      · exact (Option.some.inj hi).symm
      · exact absurd hi (by simp)
  pages := by simp

namespace Table

variable {s : Sched} {forked : List TaskPtr}

theorem current (h : Table s forked) (t : TaskPtr) : Table { s with current := t } forked :=
  { h with }

theorem taskTable (h : Table s forked) : TaskTable s forked where
  pids := h.pids
  nodup := h.taskRing.nodup
  next := ⟨forked.length + 1, h.taskRing.trail_next (Nat.lt_succ_self _)⟩
  prev := ⟨forked.length + 1, h.taskRing.trail_prev (Nat.lt_succ_self _)⟩
  inverse := by
    intro t ht
    have hswap : t ∈ .initTask :: forked.reverse := by simpa using ht
    exact ⟨(h.taskRing.segment.linked_next ht).2,
      (h.taskRing.segment.swap.linked_next hswap).2⟩
  members := h.members
  queue := ⟨forked.length + 1, h.runQueue.trail_next (by simp)⟩

theorem page_notMem (h : Table s forked) (hfree : s.memMap i = 0) :
    .ofPage (pageAddr i) ∉ .initTask :: forked := by
  intro hmem
  rcases List.mem_cons.mp hmem with hinit | hforked
  · exact absurd hinit (by simp)
  · obtain ⟨j, hj, hused⟩ := h.pages _ hforked
    rw [TaskPtr.ofPage.injEq] at hj
    rw [← pageAddr_injective hj] at hused
    exact hused hfree

theorem claim (h : Table s forked) (i : Fin nrPages) :
    Table { s with memMap := Function.update s.memMap i 1 } forked :=
  { h with
    pages := fun p hp => by
      obtain ⟨j, hj, hused⟩ := h.pages p hp
      refine ⟨j, hj, ?_⟩
      by_cases hji : j = i
      · simp [hji]
      · simpa [Function.update_of_ne hji] using hused }

end Table

/-- Whoever is current, `do_fork` writes no other pid. -/
theorem forkChild_pid {s : Sched} (t : TaskPtr) :
    ((forkChild cloneFlags page fn arg pid s).task t).pid =
      if t = .ofPage page then (pid.val : Int) else (s.task t).pid := by
  unfold forkChild initForked wakeUpProcess enqueueTaskSimple
  simp only
  rw [modify_field TaskStruct.pid _ rfl]
  simp only
  rw [modify_field TaskStruct.pid _ rfl, modify_field TaskStruct.pid _ rfl,
    modify_field TaskStruct.pid _ rfl]
  by_cases ht : t = .ofPage page
  · rw [if_pos ht, ht, modify_task_self]
  · rw [if_neg ht, modify_task_of_ne _ _ ht, copyThread, modify_field TaskStruct.pid _ rfl]

namespace Table

variable {s : Sched} {forked : List TaskPtr} {cloneFlags page fn arg : U64}
  {pid : Fin nrTask} {i : Fin nrPages}

theorem forkChild (h : Table s forked) (hfresh : .ofPage page ∉ .initTask :: forked)
    (hpage : page = pageAddr i) (hused : s.memMap i ≠ 0) (hslot : s.gTask pid = none) :
    Table (forkChild cloneFlags page fn arg pid s) (forked ++ [.ofPage page]) := by
  have hqueue : .ofPage page ∉ forked.reverse := by
    intro hin
    exact hfresh (List.mem_cons_of_mem _ (List.mem_reverse.mp hin))
  have hlist := listAdd_inserted s.list (by simp)
    (h.runQueue.ne_next (Coherent.runList_notMem hqueue))
  have hlinks := setLinks_inserted s.links (by simp) (h.taskRing.ne_prev hfresh)
  have hslots : ∀ j p, (Sched.forkChild cloneFlags page fn arg pid s).gTask j = some p ↔
      j = pid ∧ p = .ofPage page ∨ j ≠ pid ∧ s.gTask j = some p := by
    intro j p
    change Function.update s.gTask pid (some _) j = some p ↔ _
    by_cases hj : j = pid
    · rw [hj, Function.update_self]
      simp [eq_comm]
    · rw [Function.update_of_ne hj]
      simp [hj]
  refine ⟨?_, h.taskRing.pushBack hfresh hlinks, ?_, ?_, ?_⟩
  · intro j p hj
    rw [forkChild_pid]
    rcases (hslots j p).mp hj with ⟨rfl, rfl⟩ | ⟨_, hold⟩
    · rw [if_pos rfl]
    · rw [if_neg, h.pids j p hold]
      rintro rfl
      exact hfresh ((h.members _).mpr ⟨j, hold⟩)
  · rw [List.reverse_append, List.reverse_singleton, List.singleton_append, List.map_cons]
    exact h.runQueue.pushFront (Coherent.runList_notMem hqueue) hlist
  · intro p
    simp only [hslots]
    rw [← List.cons_append, List.mem_append, List.mem_singleton, h.members]
    constructor
    · rintro (⟨j, hj⟩ | rfl)
      · refine ⟨j, .inr ⟨?_, hj⟩⟩
        rintro rfl
        rw [hslot] at hj
        exact absurd hj (by simp)
      · exact ⟨pid, .inl ⟨rfl, rfl⟩⟩
    · rintro ⟨j, ⟨_, rfl⟩ | ⟨_, hj⟩⟩
      · exact .inr rfl
      · exact .inl ⟨j, hj⟩
  · intro p hp
    rcases List.mem_append.mp hp with hp | hp
    · exact h.pages p hp
    · exact ⟨i, by rw [List.mem_singleton.mp hp, hpage], hused⟩

/-- With a page and a slot the task gets the lowest free pid, and without either the fork
fails. -/
theorem doFork (h : Table s forked) (cloneFlags fn arg : U64) :
    ((∃ i, s.memMap i = 0) ∧
      (∃ pid : Fin nrTask, (doFork cloneFlags fn arg s).1 = pid.val ∧ s.gTask pid = none ∧
        ∀ j < pid, s.gTask j ≠ none) ∧
      Table (doFork cloneFlags fn arg s).2 (forked ++ [.ofPage (getFreePage s.memMap).1])) ∨
    ((¬ ∃ i, s.memMap i = 0) ∨ ¬ ∃ i, s.gTask i = none) ∧
      (doFork cloneFlags fn arg s).1 = -1 ∧
        Table (doFork cloneFlags fn arg s).2 forked := by
  unfold Sched.doFork
  rcases getFreePage_cases s.memMap with ⟨i, hfree, _, hget⟩ | ⟨hused, hget⟩
  · simp only [hget, if_neg (pageAddr_ne_zero i)]
    have hfind : ({ s with memMap := Function.update s.memMap i 1 } : Sched).findEmptyTask =
        s.findEmptyTask := rfl
    rw [hfind]
    cases hslot : s.findEmptyTask with
    | none =>
        refine .inr ⟨.inr ?_, rfl, h.claim i⟩
        rintro ⟨j, hj⟩
        exact findEmptyTask_none hslot j hj
    | some pid =>
        refine .inl ⟨⟨i, hfree⟩, ⟨pid, rfl, findEmptyTask_some hslot,
          findEmptyTask_least hslot⟩, ?_⟩
        exact (h.claim i).forkChild (h.page_notMem hfree) rfl (by simp)
          (findEmptyTask_some hslot)
  · simp only [hget, if_pos]
    exact .inr ⟨.inl fun ⟨i, hfree⟩ => hused i hfree, trivial, h⟩

end Table

end Sched

theorem ForkRun.table {s : Sched} (h : ForkRun s forked) : s.Table forked := by
  induction h with
  | start hboot => exact hboot.table
  | @fork _ cloneFlags fn arg pid s' s current _ hfork ih =>
      rcases (ih.current current).doFork cloneFlags fn arg with
        ⟨_, ⟨i, hpid, _⟩, htable⟩ | ⟨_, hpid, htable⟩ <;> rw [hfork] at hpid htable
      · change pid = _ at hpid
        rw [if_pos (by omega)]
        exact htable
      · change pid = _ at hpid
        rw [if_neg (by omega)]
        exact htable

/-- After any forks by any tasks the table, the ring and the queue hold `init_task` and the
forked tasks, in the order of the forks, and the next fork succeeds exactly when there is a
page and a slot. -/
theorem forkRun_taskTable {s : Sched} (h : ForkRun s forked) :
    s.TaskTable forked ∧
      ∀ current cloneFlags fn arg,
        (0 ≤ (Sched.doFork cloneFlags fn arg { s with current := current }).1 ↔
          (∃ i, s.memMap i = 0) ∧ ∃ i, s.gTask i = none) ∧
        (0 ≤ (Sched.doFork cloneFlags fn arg { s with current := current }).1 →
          ∃ pid : Fin nrTask,
            (Sched.doFork cloneFlags fn arg { s with current := current }).1 = pid.val ∧
            s.gTask pid = none ∧ ∀ j < pid, s.gTask j ≠ none) := by
  refine ⟨h.table.taskTable, fun current cloneFlags fn arg => ?_⟩
  rcases (h.table.current current).doFork cloneFlags fn arg with
    ⟨hpage, ⟨pid, hpid, hslot, hleast⟩, _⟩ | ⟨hnone, hpid, _⟩
  · rw [hpid]
    refine ⟨iff_of_true (by omega) ⟨hpage, pid, hslot⟩, fun _ => ?_⟩
    exact ⟨pid, rfl, hslot, hleast⟩
  · rw [hpid]
    refine ⟨iff_of_false (by omega) ?_, fun hneg => absurd hneg (by omega)⟩
    rintro ⟨hpage, hslot⟩
    exact hnone.elim (fun hno => hno hpage) (fun hno => hno hslot)

theorem firstFork_forkRun : ForkRun firstFork [firstTask] := by
  have hpid : 0 ≤ (bootKernel.schedInit.doFork pfKthread 0x80000 0).1 := by decide +kernel
  have hpage : (getFreePage bootKernel.schedInit.memMap).1 = lowMemory := by decide +kernel
  have hfork := ForkRun.fork .initTask (.start bootKernel_boot)
    (Prod.mk.eta (p := bootKernel.schedInit.doFork pfKthread 0x80000 0)).symm
  rw [if_pos hpid, hpage] at hfork
  exact hfork

/-- The first thread forks in its turn. -/
def secondFork : Sched :=
  (Sched.doFork pfKthread 0x80100 0 { firstFork with current := firstTask }).2

theorem secondFork_forkRun : ForkRun secondFork [firstTask, secondTask] := by
  have hpid : 0 ≤ (Sched.doFork pfKthread 0x80100 0
      { firstFork with current := firstTask }).1 := by decide +kernel
  have hpage : (getFreePage firstFork.memMap).1 = pageAddr ⟨1, by decide⟩ := by
    decide +kernel
  have hfork := ForkRun.fork firstTask firstFork_forkRun
    (Prod.mk.eta (p := Sched.doFork pfKthread 0x80100 0
      { firstFork with current := firstTask })).symm
  rw [if_pos hpid, hpage] at hfork
  exact hfork

theorem forkRun_taskTable_secondFork :
    ForkRun secondFork [firstTask, secondTask] ∧
      secondFork.TaskTable [firstTask, secondTask] :=
  ⟨secondFork_forkRun, (forkRun_taskTable secondFork_forkRun).1⟩

end YiOS
