import YiOS.Sched.Switch

namespace YiOS

open YiOS.Library

/-! What `sched_init`, a timer tick and `do_fork` do to the invariant. -/

namespace Sched

theorem Boot.coherent {s : Sched} (h : Boot s) : Coherent s.schedInit false [] [] where
  pages := by simp
  current := by
    change s.current ∈ _
    rw [h.current]
    exact List.mem_cons_self
  initState := by
    change (s.task .initTask).state = .running
    rw [h.initTask]
    rfl
  counts := by
    intro p hp
    obtain rfl := List.mem_singleton.mp hp
    change 0 ≤ (s.task .initTask).count ∧ (s.task .initTask).count ≤ _
    simp [schedInit, h.initTask, initTaskStruct, defCounter]
  priority := by
    intro p hp
    obtain rfl := List.mem_singleton.mp hp
    simp [schedInit, h.initTask, initTaskStruct]
  resumable := by
    intro p hp hne
    obtain rfl := List.mem_singleton.mp hp
    exact absurd h.current.symm hne
  runQueue := initListHead_cycle s.list .rqHead
  taskRing :=
    { segment := by
        change Library.Linked s.links .initTask .initTask
        simp [Library.Linked, h.links]
      nodup := List.nodup_singleton _ }
  nrRunning := rfl
  forked := by
    intro p
    refine iff_of_false (by simp) ?_
    rintro ⟨hne, i, hi⟩
    simp only [schedInit, h.gTask] at hi
    split at hi
    · exact hne (Option.some.inj hi).symm
    · exact absurd hi (by simp)
  queued := by simp
  dequeued := by simp

theorem Boot.settled {s : Sched} (h : Boot s) : Settled s.schedInit false := by
  simp [Settled, schedInit, h.current, h.initTask, initTaskStruct]

/-- The current task after a tick: one less, but not below zero. -/
theorem tick_current (s : Sched) : s.tickHandlePeriodic.task s.current =
    { s.task s.current with
      count := max ((s.task s.current).count - 1) 0
      needResched :=
        if (s.task s.current).count ≤ 1 then 1 else (s.task s.current).needResched } := by
  unfold tickHandlePeriodic taskTickSimple
  simp only [modify_task_self]
  split
  · next hout =>
    rw [max_eq_right hout, if_pos (by omega)]
    simp [printk]
  · next hleft =>
    rw [max_eq_left (by omega), if_neg (by omega), modify_task_self]

theorem tick_of_ne (s : Sched) (h : t ≠ s.current) :
    s.tickHandlePeriodic.task t = s.task t := by
  unfold tickHandlePeriodic taskTickSimple
  simp only
  split <;> simp [printk, modify_task_of_ne _ _ h]

/-- A tick changes no field but the count and `need_resched` of the current task. -/
theorem tick_frame (s : Sched) :
    Frame (s.recount fun t => (s.tickHandlePeriodic.task t).count)
      s.tickHandlePeriodic := by
  have hcurrent := tick_current s
  have hfields : ∀ t, (s.tickHandlePeriodic.task t).state = (s.task t).state ∧
      (s.tickHandlePeriodic.task t).priority = (s.task t).priority ∧
      (s.tickHandlePeriodic.task t).cpuContext = (s.task t).cpuContext := by
    intro t
    by_cases ht : t = s.current
    · rw [ht, hcurrent]
      exact ⟨rfl, rfl, rfl⟩
    · rw [tick_of_ne s ht]
      exact ⟨rfl, rfl, rfl⟩
  have hrest : s.tickHandlePeriodic.list = s.list ∧ s.tickHandlePeriodic.links = s.links ∧
      s.tickHandlePeriodic.nrRunning = s.nrRunning ∧
      s.tickHandlePeriodic.gTask = s.gTask ∧ s.tickHandlePeriodic.memMap = s.memMap ∧
      s.tickHandlePeriodic.current = s.current := by
    unfold tickHandlePeriodic taskTickSimple
    simp only
    split <;> exact ⟨rfl, rfl, rfl, rfl, rfl, rfl⟩
  obtain ⟨hlist, hlinks, hnrRunning, hgTask, hmemMap, hcur⟩ := hrest
  exact ⟨hlist, hlinks, hnrRunning, hgTask, hmemMap, hcur, fun t => (hfields t).1,
    fun _ => rfl, fun t => (hfields t).2.1, fun t => by rw [(hfields t).2.2]; rfl⟩

namespace Coherent

variable {s : Sched} {pending : Bool} {queue ring : List TaskPtr}

theorem tick (h : Coherent s pending queue ring) :
    Coherent s.tickHandlePeriodic pending queue ring := by
  refine (h.recount ?_).frame (tick_frame s)
  intro p hp
  have hcount := h.counts p hp
  by_cases hcurrent : p = s.current
  · subst hcurrent
    rw [tick_current s]
    simp only
    omega
  · rw [tick_of_ne s hcurrent]
    exact hcount

/-- A page that `get_free_page` hands out holds no task yet. -/
theorem page_notMem (h : Coherent s pending queue ring) (hfree : s.memMap i = 0) :
    .ofPage (pageAddr i) ∉ .initTask :: ring := by
  intro hmem
  rcases List.mem_cons.mp hmem with hinit | hring
  · exact absurd hinit (by simp)
  · obtain ⟨j, hj, hused⟩ := h.pages _ hring
    rw [TaskPtr.ofPage.injEq] at hj
    rw [← pageAddr_injective hj] at hused
    exact hused hfree

theorem failedFork (h : Coherent s pending queue ring) (i : Fin nrPages) :
    Coherent { s with memMap := Function.update s.memMap i 1 } pending queue ring :=
  { h with
    pages := fun p hp => by
      obtain ⟨j, hj, hused⟩ := h.pages p hp
      refine ⟨j, hj, ?_⟩
      by_cases hji : j = i
      · simp [hji]
      · simpa [Function.update_of_ne hji] using hused }

section ForkChild

variable {cloneFlags page fn arg : U64} {pid : Fin nrTask} {i : Fin nrPages}

/-- The counts are split between the two tasks, rounding up for the child. -/
theorem forkChild_members (h : Coherent s pending queue ring)
    (hfresh : .ofPage page ∉ .initTask :: ring) (hpage : page = pageAddr i)
    (hused : s.memMap i ≠ 0) :
    Members (forkChild cloneFlags page fn arg pid s) (ring ++ [.ofPage page]) := by
  have hcurrent : s.current ≠ .ofPage page := fun heq => hfresh (heq ▸ h.current)
  have hcases : ∀ t ∈ .initTask :: (ring ++ [.ofPage page]),
      t = .ofPage page ∨ t = s.current ∨ t ∈ .initTask :: ring ∧ t ≠ s.current ∧
        (forkChild cloneFlags page fn arg pid s).task t = s.task t := by
    intro t ht
    by_cases hp : t = .ofPage page
    · exact .inl hp
    · by_cases hcur : t = s.current
      · exact .inr (.inl hcur)
      · refine .inr (.inr ⟨?_, hcur, forkChild_task_of_ne hp hcur⟩)
        simpa [hp] using ht
  have hcount := h.counts _ h.current
  have hpriority := h.priority _ h.current
  refine ⟨?_, ?_, ?_, ?_, ?_, ?_⟩
  · intro q hq
    rcases List.mem_append.mp hq with hq | hq
    · exact h.pages q hq
    · exact ⟨i, by rw [List.mem_singleton.mp hq, hpage], hused⟩
  · have hold : s.current ∈ .initTask :: ring := h.current
    change s.current ∈ _
    simp only [List.mem_cons, List.mem_append] at hold ⊢
    tauto
  · rcases hcases .initTask List.mem_cons_self with hpage | hcur | ⟨_, _, htask⟩
    · exact absurd hpage (by simp)
    · rw [hcur, forkChild_task_current hcurrent]
      exact hcur ▸ h.initState
    · rw [htask]
      exact h.initState
  · intro t ht
    rcases hcases t ht with rfl | rfl | ⟨hring, _, htask⟩
    · rw [forkChild_task_page hcurrent]
      simp only [defCounter, Int.shiftRight_eq_div_pow] at hcount ⊢
      omega
    · rw [forkChild_task_current hcurrent]
      simp only [Int.shiftRight_eq_div_pow]
      omega
    · rw [htask]
      exact h.counts t hring
  · intro t ht
    rcases hcases t ht with rfl | rfl | ⟨hring, _, htask⟩
    · rw [forkChild_task_page hcurrent]
      simp
    · rw [forkChild_task_current hcurrent]
      exact hpriority
    · rw [htask]
      exact h.priority t hring
  · intro t ht hne
    rcases hcases t ht with rfl | rfl | ⟨hring, hcur, htask⟩
    · rw [forkChild_task_page hcurrent]
      exact .inl rfl
    · exact absurd rfl hne
    · rw [htask]
      exact h.resumable t hring hcur

/-- The child comes first in the queue and last in the ring. -/
theorem forkChild (h : Coherent s pending queue ring)
    (hfresh : .ofPage page ∉ .initTask :: ring) (hpage : page = pageAddr i)
    (hused : s.memMap i ≠ 0) (hslot : s.gTask pid = none) :
    Coherent (forkChild cloneFlags page fn arg pid s) pending
      (.ofPage page :: queue) (ring ++ [.ofPage page]) := by
  have hcurrent : s.current ≠ .ofPage page := fun heq => hfresh (heq ▸ h.current)
  have hring : .ofPage page ∉ ring := fun hin => hfresh (List.mem_cons_of_mem _ hin)
  have hqueue : .ofPage page ∉ queue := fun hin => hring (h.mem_ring hin)
  have hlist := listAdd_inserted s.list (by simp)
    (h.runQueue.ne_next (runList_notMem hqueue))
  have hlinks := setLinks_inserted s.links (by simp) (h.taskRing.ne_prev hfresh)
  exact
    { toMembers := h.forkChild_members hfresh hpage hused
      runQueue := h.runQueue.pushFront (runList_notMem hqueue) hlist
      taskRing := h.taskRing.pushBack hfresh hlinks
      nrRunning := h.nrRunning_succ _
      forked := by
        intro q
        have hold := h.forked q
        unfold Forked at hold ⊢
        change _ ↔ q ≠ .initTask ∧ ∃ i, Function.update s.gTask pid (some _) i = some q
        rw [List.mem_append, List.mem_singleton, hold]
        constructor
        · rintro (⟨hinit, i, hi⟩ | rfl)
          · have hne : i ≠ pid := by
              rintro rfl
              rw [hslot] at hi
              exact absurd hi (by simp)
            exact ⟨hinit, i, by rw [Function.update_of_ne hne, hi]⟩
          · exact ⟨by simp, pid, Function.update_self ..⟩
        · rintro ⟨hinit, i, hi⟩
          by_cases hne : i = pid
          · rw [hne, Function.update_self] at hi
            exact .inr (Option.some.inj hi).symm
          · rw [Function.update_of_ne hne] at hi
            exact .inl ⟨hinit, i, hi⟩
      queued := by
        intro q
        by_cases hq : q = .ofPage page
        · subst hq
          rw [forkChild_task_page hcurrent]
          simp
        · rw [forkChild_state hq hcurrent]
          simpa [hq] using h.queued q
      dequeued := by
        intro q hqring hq
        rw [List.mem_cons, not_or] at hq
        have hold := h.dequeued q (by simpa [hq.1] using hqring) hq.2
        exact (hlist.next _ (by simp) (by simpa using hq.1)).trans hold }

end ForkChild

theorem fork (h : Coherent s pending queue ring) (cloneFlags fn arg : U64) :
    ∃ queue' ring', Coherent (doFork cloneFlags fn arg s).2 pending queue' ring' := by
  rcases doFork_cases cloneFlags fn arg s with
    ⟨_, heq⟩ | ⟨i, hfree, ⟨_, heq⟩ | ⟨pid, _, hslot, heq⟩⟩ <;> rw [heq]
  · exact ⟨queue, ring, h⟩
  · exact ⟨queue, ring, h.failedFork i⟩
  · exact ⟨_, _, (h.failedFork i).forkChild (h.page_notMem hfree) rfl
      (by simp) hslot⟩

end Coherent

theorem Settled.forkChild {s : Sched} {page : U64} (h : Settled s pending)
    (hcurrent : s.current ≠ .ofPage page) (cloneFlags fn arg : U64) (pid : Fin nrTask) :
    Settled (s.forkChild cloneFlags page fn arg pid) pending := by
  unfold Settled
  rw [forkChild_current, forkChild_state hcurrent hcurrent]
  exact h

/-- `do_fork` leaves the state of the task that calls it. -/
theorem Settled.fork {s : Sched} (h : Settled s pending)
    (hc : Coherent s pending queue ring)
    (cloneFlags fn arg : U64) : Settled (doFork cloneFlags fn arg s).2 pending := by
  rcases doFork_cases cloneFlags fn arg s with
    ⟨_, heq⟩ | ⟨i, hfree, ⟨_, heq⟩ | ⟨pid, _, _, heq⟩⟩ <;> rw [heq]
  · exact h
  · exact h
  · have hcurrent : s.current ≠ .ofPage (pageAddr i) := fun hpage =>
      hc.page_notMem hfree (hpage ▸ hc.current)
    exact Settled.forkChild (s := { s with memMap := _ }) h hcurrent cloneFlags fn arg pid

end Sched

end YiOS
