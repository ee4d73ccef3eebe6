import YiOS.Sched.Runs

namespace YiOS

open YiOS.Library

/-! All that a call of `schedule` or of `preempt_schedule_irq` can do. -/

theorem Best.unique {weight : TaskPtr → Int} (h : Best weight queue p)
    (h' : Best weight queue q) : p = q := by
  obtain ⟨l, r, rfl, hleft, hright⟩ := h
  obtain ⟨l', r', heq, hleft', hright'⟩ := h'
  rcases List.append_eq_append_iff.mp heq with ⟨m, rfl, hm⟩ | ⟨m, rfl, hm⟩
  · cases m with
    | nil => exact (List.cons.inj hm).1
    | cons head m =>
        obtain ⟨rfl, rfl⟩ := List.cons.inj hm
        have hlt := hleft' p (by simp)
        have hle := hright q (by simp)
        omega
  · cases m with
    | nil => exact (List.cons.inj hm).1.symm
    | cons head m =>
        obtain ⟨rfl, rfl⟩ := List.cons.inj hm
        have hlt := hleft q (by simp)
        have hle := hright' p (by simp)
        omega

namespace Sched

/-- `__schedule` up to `switch_to`, once `pick_next_task` has left the counts. -/
def chosen (s : Sched) (caller : Caller) (counts : TaskPtr → Int) : Sched :=
  ((s.enter caller).settle.recount counts).clearTaskResched s.current

/-- The same after `cpu_switch_to`. -/
def switched (s : Sched) (caller : Caller) (counts : TaskPtr → Int) (next : TaskPtr) :
    Sched :=
  { s.chosen caller counts with
    caller := Function.update (s.chosen caller counts).caller s.current caller }.cpuSwitchTo
      s.current next

/-- The three ways a call ends: in the same task, in a new one, and in one that had been
switched out. -/
inductive Outcome (s : Sched) (caller : Caller) (counts : TaskPtr → Int)
    (next : TaskPtr) : Sched → Prop
  | same : next = s.current →
      Outcome s caller counts next ((s.chosen caller counts).leave caller)
  | fresh : next ≠ s.current → (s.task next).cpuContext.pc = .retFromFork →
      Outcome s caller counts next (s.switched caller counts next).scheduleTail
  | resumed : next ≠ s.current → (s.task next).cpuContext.pc = .afterSwitch →
      Outcome s caller counts next
        ({ s.switched caller counts next with
          nrSwitches := s.nrSwitches + 1
          curr := some next }.scheduleTail.leave (s.caller next))

/-- What `enter` and `settle` leave as it was. -/
structure Untouched (s s' : Sched) : Prop where
  links : s'.links = s.links
  nrSwitches : s'.nrSwitches = s.nrSwitches
  curr : s'.curr = s.curr
  gTask : s'.gTask = s.gTask
  memMap : s'.memMap = s.memMap
  current : s'.current = s.current
  regs : s'.regs = s.regs
  caller : s'.caller = s.caller

theorem enter_untouched (s : Sched) (caller : Caller) : Untouched s (s.enter caller) := by
  cases caller with
  | schedule => exact ⟨rfl, rfl, rfl, rfl, rfl, rfl, rfl, rfl⟩
  | preemptScheduleIrq =>
      unfold enter
      simp only
      split <;> exact ⟨rfl, rfl, rfl, rfl, rfl, rfl, rfl, rfl⟩

theorem settle_untouched (s : Sched) : Untouched s s.settle := by
  unfold settle scheduleDebug
  simp only
  split <;> split <;> exact ⟨rfl, rfl, rfl, rfl, rfl, rfl, rfl, rfl⟩

theorem settle_irqMasked (s : Sched) : s.settle.irqMasked = true := by
  unfold settle
  simp only
  split <;> rfl

theorem enter_task (s : Sched) (caller : Caller) : (s.enter caller).task =
    Function.update s.task s.current
      { s.task s.current with preemptCount := (s.task s.current).preemptCount + 1 } := by
  cases caller with
  | schedule => rfl
  | preemptScheduleIrq =>
      unfold enter
      simp only
      split <;> rfl

theorem chosen_untouched (s : Sched) (caller : Caller) (counts : TaskPtr → Int) :
    Untouched s (s.chosen caller counts) := by
  have henter := enter_untouched s caller
  have hsettle := settle_untouched (s.enter caller)
  exact ⟨hsettle.links.trans henter.links, hsettle.nrSwitches.trans henter.nrSwitches,
    hsettle.curr.trans henter.curr, hsettle.gTask.trans henter.gTask,
    hsettle.memMap.trans henter.memMap, hsettle.current.trans henter.current,
    hsettle.regs.trans henter.regs, hsettle.caller.trans henter.caller⟩

theorem chosen_irqMasked (s : Sched) (caller : Caller) (counts : TaskPtr → Int) :
    (s.chosen caller counts).irqMasked = true := settle_irqMasked _

theorem chosen_task_current (s : Sched) (caller : Caller) (counts : TaskPtr → Int) :
    (s.chosen caller counts).task s.current =
      { s.task s.current with
        count := counts s.current
        needResched := 0
        preemptCount := (s.task s.current).preemptCount + 1 } := by
  simp [chosen, clearTaskResched, recount, settle_same, enter_task]

theorem chosen_task_of_ne (s : Sched) (caller : Caller) (counts : TaskPtr → Int)
    (h : t ≠ s.current) :
    (s.chosen caller counts).task t = { s.task t with count := counts t } := by
  simp [chosen, clearTaskResched, recount, settle_same, enter_task, modify_task_of_ne, h]

/-- With a definite choice a call has an outcome. -/
theorem call_of_choose {s : Sched} {caller : Caller} {counts : TaskPtr → Int}
    (hchoose : (s.enter caller).choose fuel =
      some (some next, (s.enter caller).settle.recount counts))
    (hknown : next ≠ s.current → (s.task next).cpuContext.pc.Known) :
    ∃ out, (∀ stale, s.call caller fuel stale = some out) ∧
      Outcome s caller counts next out := by
  have hcurrent : (s.enter caller).current = s.current := (enter_untouched s caller).current
  have hcall : ∀ stale, s.call caller fuel stale =
      if next ≠ s.current then (s.switched caller counts next).resume
      else some ((s.chosen caller counts).leave caller) := by
    intro stale
    simp only [call, __schedule, hchoose, Option.bind_some, Option.getD_some, hcurrent]
    rfl
  by_cases hne : next = s.current
  · exact ⟨_, fun stale => (hcall stale).trans (if_neg (not_not.mpr hne)), .same hne⟩
  · have hpc : (s.switched caller counts next).regs.pc = (s.task next).cpuContext.pc := by
      change ((s.switched caller counts next).task next).cpuContext.pc = _
      rw [switched, cpuSwitchTo_task_of_ne _ hne]
      change ((s.chosen caller counts).task next).cpuContext.pc = _
      rw [chosen_task_of_ne s caller counts hne]
    have hresume : ∀ stale, s.call caller fuel stale =
        (s.switched caller counts next).resume := fun stale =>
      (hcall stale).trans (if_pos hne)
    rcases hknown hne with hfork | hswitch
    · refine ⟨_, fun stale => (hresume stale).trans ?_, .fresh hne hfork⟩
      rw [resume, hpc, hfork]
    · refine ⟨_, fun stale => (hresume stale).trans ?_, .resumed hne hswitch⟩
      have huntouched := chosen_untouched s caller counts
      have hcaller : (s.switched caller counts next).caller next = s.caller next := by
        change Function.update (s.chosen caller counts).caller s.current caller next = _
        rw [Function.update_of_ne hne, huntouched.caller]
      have hswitches : (s.switched caller counts next).nrSwitches = s.nrSwitches :=
        huntouched.nrSwitches
      rw [resume, hpc, hswitch]
      simp only [← hcaller, ← hswitches]
      rfl

theorem leave_task (s : Sched) (caller : Caller) (t : TaskPtr) : ∃ preemptCount,
    (s.leave caller).task t = { s.task t with preemptCount := preemptCount } := by
  have hmodify : ∀ s' : Sched, s'.task = s.task → ∃ preemptCount,
      s'.preemptEnable.task t = { s.task t with preemptCount := preemptCount } := by
    intro s' hsame
    by_cases ht : t = s'.current
    · exact ⟨_, by rw [preemptEnable, ht, modify_task_self, hsame]⟩
    · exact ⟨(s.task t).preemptCount, by rw [preemptEnable, modify_task_of_ne _ _ ht, hsame]⟩
  cases caller with
  | schedule => exact hmodify s rfl
  | preemptScheduleIrq => exact hmodify s.rawLocalIrqDisable rfl

namespace Outcome

variable {s out : Sched} {caller : Caller} {counts : TaskPtr → Int} {next : TaskPtr}

theorem current (h : Outcome s caller counts next out) : out.current = next := by
  cases h with
  | same hsame =>
      rw [(Frame.leave _ caller).current, (chosen_untouched s caller counts).current, hsame]
  | fresh => rfl
  | resumed => exact (Frame.leave _ _).current

/-- The fields that only the picker, the switch and the callers write. -/
theorem task (h : Outcome s caller counts next out) (t : TaskPtr) :
    ∃ preemptCount context, out.task t =
      { s.task t with
        count := counts t
        needResched := if t = s.current then 0 else (s.task t).needResched
        preemptCount := preemptCount
        cpuContext := context } := by
  have hchosen : ∃ preemptCount, (s.chosen caller counts).task t =
      { s.task t with
        count := counts t
        needResched := if t = s.current then 0 else (s.task t).needResched
        preemptCount := preemptCount } := by
    by_cases ht : t = s.current
    · subst ht
      exact ⟨_, by rw [chosen_task_current, if_pos rfl]⟩
    · exact ⟨(s.task t).preemptCount, by rw [chosen_task_of_ne s caller counts ht, if_neg ht]⟩
  have hswitched : ∃ preemptCount context, (s.switched caller counts next).task t =
      { s.task t with
        count := counts t
        needResched := if t = s.current then 0 else (s.task t).needResched
        preemptCount := preemptCount
        cpuContext := context } := by
    obtain ⟨preemptCount, hpreempt⟩ := hchosen
    by_cases ht : t = s.current
    · subst ht
      refine ⟨preemptCount, { (s.chosen caller counts).regs with pc := .afterSwitch }, ?_⟩
      rw [switched, cpuSwitchTo_task, modify_task_self]
      simp only [hpreempt]
    · refine ⟨preemptCount, (s.task t).cpuContext, ?_⟩
      rw [switched, cpuSwitchTo_task_of_ne _ ht]
      exact hpreempt
  cases h with
  | same =>
      obtain ⟨preemptCount, hpreempt⟩ := hchosen
      obtain ⟨left, hleft⟩ := leave_task (s.chosen caller counts) caller t
      exact ⟨left, (s.task t).cpuContext, by rw [hleft, hpreempt]⟩
  | fresh => exact hswitched
  | resumed =>
      obtain ⟨preemptCount, context, hpreempt⟩ := hswitched
      obtain ⟨left, hleft⟩ := leave_task ({ s.switched caller counts next with
          nrSwitches := s.nrSwitches + 1
          curr := some next }.scheduleTail) (s.caller next) t
      refine ⟨left, context, hleft.trans ?_⟩
      change { (s.switched caller counts next).task t with preemptCount := left } = _
      rw [hpreempt]

end Outcome

namespace Coherent

variable {s : Sched} {pending : Bool} {queue ring : List TaskPtr}

/-- A call that finds a runnable task chooses the best of the queue and comes to one of
the outcomes. -/
theorem call_outcome (h : Coherent s pending queue ring) (hsettled : Settled s pending)
    (hrunnable : s.Runnable) (caller : Caller) :
    ∃ out queue' next counts, (∀ stale, s.call caller 67 stale = some out) ∧
      Outcome s caller counts next out ∧
      (∃ queue'', Coherent out false queue'' ring) ∧
      Coherent (s.enter caller).settle false queue' ring ∧
      Best counts queue' next ∧ 0 < counts next ∧
      ((counts = fun t => (s.task t).count) ∨
        (∀ q ∈ queue', (s.task q).count = 0) ∧ counts = s.resetCounts ring) := by
  have henter := Frame.enter s caller
  have htask := (settle_same (s.enter caller)).1
  obtain ⟨queue', hqueue⟩ := (h.frame henter).settle (henter.settled hsettled)
  have hne : queue' ≠ [] := by
    rw [hqueue.queue_ne_nil_iff, settle_runnable, henter.runnable]
    exact hrunnable
  obtain ⟨next, counts, hpick, hbest, hpos, hcounted, hcounts⟩ := hqueue.pick hne
  have hknown : next ≠ s.current → (s.task next).cpuContext.pc.Known := by
    intro hnext
    exact h.resumable next (List.mem_cons_of_mem _ (hqueue.mem_ring hbest.mem)) hnext
  obtain ⟨out, hout, houtcome⟩ := call_of_choose hpick hknown
  obtain ⟨again, queue'', hagain, hcoherent, _⟩ := h.call hsettled hrunnable caller
  obtain rfl : out = again := Option.some.inj ((hout next).symm.trans (hagain next))
  refine ⟨out, queue', next, counts, hout, houtcome, ⟨queue'', hcoherent⟩, hqueue, hbest,
    hpos, ?_⟩
  have hreset : (s.enter caller).settle.resetCounts ring = s.resetCounts ring := by
    funext t
    simp only [Sched.resetCounts, htask, henter.priority, henter.count]
  simpa only [hreset, htask, henter.count] using hcounts

/-- The same for a call that is known to return. -/
theorem call_cases {caller : Caller} (h : Coherent s pending queue ring)
    (hsettled : Settled s pending) (hrunnable : s.Runnable)
    (hcall : s.call caller fuel stale = some out) :
    ∃ queue' next counts, Outcome s caller counts next out ∧
      (∃ queue'', Coherent out false queue'' ring) ∧
      Coherent (s.enter caller).settle false queue' ring ∧
      Best counts queue' next ∧ 0 < counts next ∧
      ((counts = fun t => (s.task t).count) ∨
        (∀ q ∈ queue', (s.task q).count = 0) ∧ counts = s.resetCounts ring) := by
  obtain ⟨out', queue', next, counts, hout, hrest⟩ :=
    h.call_outcome hsettled hrunnable caller
  have hlong := call_mono hcall (Nat.le_add_right fuel 67)
  rw [call_mono (hout stale) (Nat.le_add_left 67 fuel)] at hlong
  obtain rfl := Option.some.inj hlong
  exact ⟨queue', next, counts, hrest⟩

end Coherent

end Sched

end YiOS
