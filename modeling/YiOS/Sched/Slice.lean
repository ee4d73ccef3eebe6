import Mathlib.Algebra.Ring.Int.Defs
import YiOS.Sched.Calls

namespace YiOS

open YiOS.Library

/-! Time slices: the counts of the tasks, `need_resched` and who may run. -/

namespace Sched

/-- The tasks that `for_each_task` meets behind `init_task`. -/
def Ring (s : Sched) (ring : List TaskPtr) : Prop :=
  ∃ fuel, trail (fun t => (s.links t).next) .initTask fuel = some ring

/-- The sum of the counts of `init_task` and of the ring. -/
def totalCount (s : Sched) (ring : List TaskPtr) : Int :=
  ((.initTask :: ring).map fun p => (s.task p).count).sum

/-- A count is within its slice, and the picker sees it as it is. -/
structure InSlice (s : Sched) (p : TaskPtr) : Prop where
  nonneg : 0 ≤ (s.task p).count
  le : (s.task p).count ≤ defCounter + (s.task p).priority
  goodness : s.goodness p = (s.task p).count
  sentinel : -1000 < s.goodness p

/-- Only a current task whose slice is over asks to be rescheduled. -/
def Requests (s : Sched) (p : TaskPtr) : Prop :=
  (s.task p).needResched ≠ 0 → p = s.current ∧ (s.task p).count = 0

/-- The tasks of the system, without a walk. -/
def Member (s : Sched) (p : TaskPtr) : Prop := p = .initTask ∨ s.Forked p

namespace Coherent

variable {s : Sched} {pending : Bool} {queue ring : List TaskPtr}

theorem ring_walk (h : Coherent s pending queue ring) : s.Ring ring :=
  ⟨ring.length + 1, h.taskRing.trail_next (Nat.lt_succ_self _)⟩

theorem member_iff (h : Coherent s pending queue ring) :
    s.Member p ↔ p ∈ .initTask :: ring := by
  unfold Member
  rw [List.mem_cons, h.forked]

theorem inSlice (h : Coherent s pending queue ring) (hp : p ∈ .initTask :: ring) :
    s.InSlice p := by
  have hcounts := h.counts p hp
  have hpriority := h.priority p hp
  have hle := hcounts.2
  simp only [defCounter] at hle
  have hgoodness : s.goodness p = (s.task p).count := goodness_eq hcounts.1 (by omega)
  exact ⟨hcounts.1, hcounts.2, hgoodness, by rw [hgoodness]; omega⟩

end Coherent

theorem Boot.requests {s : Sched} (h : Boot s) (hp : s.schedInit.Member p) :
    s.schedInit.Requests p := by
  rcases hp with rfl | hforked
  · intro hneed
    simp [schedInit, h.initTask, initTaskStruct] at hneed
  · exact absurd ((h.coherent.forked p).mpr hforked) (by simp)

theorem tick_requests {s : Sched} (h : s.Requests p) : s.tickHandlePeriodic.Requests p := by
  unfold Requests at h ⊢
  rw [(tick_frame s).current]
  by_cases hp : p = s.current
  · subst hp
    rw [tick_current]
    simp only
    intro hneed
    refine ⟨rfl, ?_⟩
    split at hneed
    · omega
    · have hzero := (h hneed).2
      omega
  · rw [tick_of_ne s hp]
    exact h

/-- The halves of a count. -/
theorem count_split (count : Int) :
    (count + 1) >>> (1 : Nat) + count >>> (1 : Nat) = count := by
  simp only [Int.shiftRight_eq_div_pow]
  omega

section Fork

variable {s : Sched} {pending : Bool} {queue ring : List TaskPtr}
  {cloneFlags page fn arg : U64} {pid : Fin nrTask}

theorem forkChild_requests (hcurrent : s.current ≠ .ofPage page) (h : s.Requests p)
    (hp : p ≠ .ofPage page) : (forkChild cloneFlags page fn arg pid s).Requests p := by
  unfold Requests at h ⊢
  rw [forkChild_current]
  by_cases hcur : p = s.current
  · subst hcur
    rw [forkChild_task_current hcurrent]
    intro hneed
    rw [(h hneed).2]
    exact ⟨rfl, rfl⟩
  · rw [forkChild_task_of_ne hp hcur]
    exact h

theorem forkChild_requests_page (hcurrent : s.current ≠ .ofPage page) :
    (forkChild cloneFlags page fn arg pid s).Requests (.ofPage page) := by
  intro hneed
  rw [forkChild_task_page hcurrent] at hneed
  exact absurd rfl hneed

theorem fork_requests (h : ∀ p, s.Member p → s.Requests p)
    (hc : Coherent s pending queue ring) (cloneFlags fn arg : U64)
    (hp : (doFork cloneFlags fn arg s).2.Member p) :
    (doFork cloneFlags fn arg s).2.Requests p := by
  rcases doFork_cases cloneFlags fn arg s with
    ⟨_, heq⟩ | ⟨i, hfree, ⟨_, heq⟩ | ⟨pid, _, hslot, heq⟩⟩ <;> rw [heq] at hp ⊢
  · exact h p hp
  · exact h p hp
  · have hfresh := hc.page_notMem hfree
    have hcurrent : s.current ≠ .ofPage (pageAddr i) := fun hpage =>
      hfresh (hpage ▸ hc.current)
    have hmember := ((hc.failedFork i).forkChild hfresh rfl (by simp) hslot).member_iff.mp hp
    by_cases hpage : p = .ofPage (pageAddr i)
    · subst hpage
      exact forkChild_requests_page (s := { s with memMap := _ }) hcurrent
    · refine forkChild_requests hcurrent (h p (hc.member_iff.mpr ?_)) hpage
      simpa [hpage] using hmember

/-- What the child gets is what the current task loses. -/
theorem forkChild_totalCount (hc : Coherent s pending queue ring)
    (hfresh : .ofPage page ∉ .initTask :: ring) :
    (forkChild cloneFlags page fn arg pid s).totalCount (ring ++ [.ofPage page]) =
      s.totalCount ring := by
  have hcurrent : s.current ≠ .ofPage page := fun hpage => hfresh (hpage ▸ hc.current)
  have hnodup := hc.taskRing.nodup
  obtain ⟨l, r, hsplit⟩ := List.append_of_mem hc.current
  rw [hsplit] at hnodup hfresh
  have hrest : s.current ∉ l ++ r := (List.nodup_cons.mp (List.nodup_middle.mp hnodup)).1
  have hsame : ∀ q ∈ l ++ r,
      ((forkChild cloneFlags page fn arg pid s).task q).count = (s.task q).count := by
    intro q hq
    have hmem : q ∈ l ++ s.current :: r := by
      rw [List.mem_append, List.mem_cons] at *
      tauto
    rw [forkChild_task_of_ne (fun hpage => hfresh (hpage ▸ hmem))
      (fun hcur => hrest (hcur ▸ hq))]
  have hleft := List.map_congr_left fun q hq => hsame q (List.mem_append_left r hq)
  have hright := List.map_congr_left fun q hq => hsame q (List.mem_append_right l hq)
  have hcount := count_split (s.task s.current).count
  unfold totalCount
  rw [← List.cons_append, hsplit]
  simp only [List.map_append, List.map_cons, List.map_nil, List.sum_append, List.sum_cons,
    List.sum_nil, hleft, hright, forkChild_task_current hcurrent,
    forkChild_task_page hcurrent]
  omega

theorem fork_totalCount (hc : Coherent s pending queue ring) (cloneFlags fn arg : U64)
    (hsuccess : 0 ≤ (doFork cloneFlags fn arg s).1) :
    ∃ ring', (doFork cloneFlags fn arg s).2.Ring ring' ∧
      (doFork cloneFlags fn arg s).2.totalCount ring' = s.totalCount ring := by
  rcases doFork_cases cloneFlags fn arg s with
    ⟨_, heq⟩ | ⟨i, hfree, ⟨_, heq⟩ | ⟨pid, _, hslot, heq⟩⟩ <;> rw [heq] at hsuccess ⊢
  · exact absurd hsuccess (by simp)
  · exact absurd hsuccess (by simp)
  · have hfresh := hc.page_notMem hfree
    exact ⟨_, ((hc.failedFork i).forkChild hfresh rfl (by simp) hslot).ring_walk,
      forkChild_totalCount (hc.failedFork i) hfresh⟩

end Fork

section Call

variable {s out : Sched} {caller : Caller} {counts : TaskPtr → Int} {next : TaskPtr}

/-- A call answers the request of the task that makes it. -/
theorem Outcome.requests (h : Outcome s caller counts next out) (hp : s.Requests p) :
    out.Requests p := by
  intro hneed
  obtain ⟨_, _, htask⟩ := h.task p
  rw [htask] at hneed
  simp only [ne_eq, ite_eq_left_iff, not_forall] at hneed
  obtain ⟨hne, hneed⟩ := hneed
  exact absurd (hp hneed).1 hne

theorem Outcome.gTask (h : Outcome s caller counts next out) : out.gTask = s.gTask := by
  have hchosen := (chosen_untouched s caller counts).gTask
  cases h with
  | same => exact ((Frame.leave _ caller).gTask).trans hchosen
  | fresh => exact hchosen
  | resumed => exact ((Frame.leave _ _).gTask).trans hchosen

end Call

end Sched

/-- Only the current task asks to be rescheduled, and only when its slice is over. -/
theorem SchedRun.requests {s : Sched} (h : SchedRun Sched.Runnable s pending) :
    ∀ p, s.Member p → s.Requests p := by
  have hcall : ∀ {s s' : Sched} {pending : Bool} {caller fuel stale},
      SchedRun Sched.Runnable s pending → (∀ p, s.Member p → s.Requests p) →
      s.Runnable → s.call caller fuel stale = some s' →
      ∀ p, s'.Member p → s'.Requests p := by
    intro s s' pending caller fuel stale hrun ih hrunnable hsome p hp
    obtain ⟨⟨queue, ring, hc⟩, hsettled⟩ := hrun.coherent
    obtain ⟨queue', next, counts, houtcome, _⟩ := hc.call_cases hsettled hrunnable hsome
    refine houtcome.requests (ih p ?_)
    simpa [Sched.Member, Sched.Forked, houtcome.gTask] using hp
  induction h with
  | start hboot => exact fun p hp => hboot.requests hp
  | fork hrun ih =>
      intro p hp
      obtain ⟨⟨queue, ring, hc⟩, _⟩ := hrun.coherent
      exact Sched.fork_requests ih hc _ _ _ hp
  | tick _ ih =>
      intro p hp
      refine Sched.tick_requests (ih p ?_)
      exact hp.imp id (Sched.tick_frame _).forked.mp
  | schedule hrun hrunnable hsome ih => exact hcall hrun ih hrunnable hsome
  | preempt hrun hrunnable hsome ih => exact hcall hrun ih hrunnable hsome
  | block _ _ _ ih =>
      intro p hp hneed
      have hold := ih p hp
      rw [Sched.modify_field TaskStruct.needResched _ rfl] at hneed
      rw [Sched.modify_field TaskStruct.count _ rfl]
      exact hold hneed
  | wake _ _ _ ih =>
      intro p hp hneed
      have hold := ih p hp
      rw [Sched.wakeUpProcess_task, Sched.modify_field TaskStruct.needResched _ rfl] at hneed
      rw [Sched.wakeUpProcess_task, Sched.modify_field TaskStruct.count _ rfl]
      exact hold hneed

/-- In every run whose calls all find a runnable task, the counts stay in their slices, a
request comes from a current task whose slice is over, a fork moves no time in or out, and
the next such call returns in a task that has time left. -/
theorem schedRun_slices {s : Sched} (h : SchedRun Sched.Runnable s pending) :
    ∃ ring, s.Ring ring ∧
      (∀ p ∈ .initTask :: ring, s.InSlice p ∧ s.Requests p) ∧
      (∀ cloneFlags fn arg, 0 ≤ (s.doFork cloneFlags fn arg).1 →
        ∃ ring', (s.doFork cloneFlags fn arg).2.Ring ring' ∧
          (s.doFork cloneFlags fn arg).2.totalCount ring' = s.totalCount ring) ∧
      (s.Runnable → ∀ caller, ∃ out,
        (∀ stale fuel, 67 ≤ fuel → s.call caller fuel stale = some out) ∧
        0 < (out.task out.current).count) := by
  obtain ⟨⟨queue, ring, hc⟩, hsettled⟩ := h.coherent
  refine ⟨ring, hc.ring_walk, ?_, ?_, ?_⟩
  · intro p hp
    exact ⟨hc.inSlice hp, h.requests p (hc.member_iff.mpr hp)⟩
  · exact fun cloneFlags fn arg => Sched.fork_totalCount hc cloneFlags fn arg
  · intro hrunnable caller
    obtain ⟨out, queue', next, counts, hout, houtcome, _, _, _, hpos, _⟩ :=
      hc.call_outcome hsettled hrunnable caller
    refine ⟨out, fun stale fuel hfuel => Sched.call_mono (hout stale) hfuel, ?_⟩
    obtain ⟨_, _, htask⟩ := houtcome.task next
    rw [houtcome.current, htask]
    exact hpos

theorem schedRun_slices_wake : ∃ s ring, SchedRun Sched.Runnable s false ∧ s.Ring ring ∧
    (∀ p ∈ .initTask :: ring, s.InSlice p ∧ s.Requests p) ∧
    (∃ ring', (s.doFork pfKthread 0x80300 0).2.Ring ring' ∧
      (s.doFork pfKthread 0x80300 0).2.totalCount ring' = s.totalCount ring) ∧
    ∃ out, s.schedule 67 firstTask = some out ∧ 0 < (out.task out.current).count := by
  obtain ⟨s, hrun, hrunnable, _, _, hpid⟩ := exists_wakeRun
  obtain ⟨ring, hring, hslices, hfork, hcall⟩ := schedRun_slices hrun
  obtain ⟨out, hout, hpos⟩ := hcall hrunnable .schedule
  exact ⟨s, ring, hrun, hring, hslices, hfork pfKthread 0x80300 0 (by rw [hpid]; decide), out,
    hout firstTask 67 le_rfl, hpos⟩

end YiOS
