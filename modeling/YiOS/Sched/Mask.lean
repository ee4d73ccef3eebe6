import YiOS.Sched.Slice
import YiOS.Sched.Switches
import YiOS.Sched.Wake

namespace YiOS

open YiOS.Library

/-! The interrupt mask over a call of `schedule` and the switches it is spread over. -/

/-- A step of the scheduler, or an interrupt: taking one and `eret` set the mask. -/
inductive MaskStep : Sched → Bool → Sched → Bool → Prop
  | sched {s s' : Sched} : SchedStep Sched.Runnable s pending s' pending' →
      MaskStep s pending s' pending'
  | irq {s : Sched} (masked : Bool) :
      MaskStep s pending { s with irqMasked := masked } pending

inductive MaskRun : Sched → Bool → Prop
  | start {s : Sched} : s.Boot → MaskRun s.schedInit false
  | step {s s' : Sched} : MaskRun s pending → MaskStep s pending s' pending' →
      MaskRun s' pending'

/-- The task that calls `schedule` in `s` has been switched out, and other tasks run. -/
inductive Away (s : Sched) : Sched → Bool → Prop
  | left {s' : Sched} : s.Runnable → s.schedule fuel stale = some s' →
      s'.current ≠ s.current → Away s s' false
  | step {s' s'' : Sched} : Away s s' pending → MaskStep s' pending s'' pending' →
      s''.current ≠ s.current → Away s s'' pending'

/-- The call of `schedule` made in `s` returns in the task that made it, at once or when
a call of another task switches back. -/
inductive Returns (s : Sched) : Sched → Prop
  | atOnce {out : Sched} : s.Runnable → s.schedule fuel stale = some out →
      out.current = s.current → Returns s out
  | later {s' out : Sched} {caller : Caller} : Away s s' pending → s'.Runnable →
      s'.call caller fuel stale = some out → out.current = s.current → Returns s out

namespace Sched

/-- The picker will choose the current task again: it is the best of the queue by what is
left of the slices, or by the slices that are handed out anew when nothing is left. -/
def Preferred (s : Sched) : Prop :=
  (s.task s.current).state = .running ∧
    ∃ queue : List TaskPtr,
      (∃ fuel, trail (fun x => (s.list x).next) .rqHead fuel =
        some (queue.map .runList)) ∧
      (0 < (s.task s.current).count ∧
          Best (fun t => (s.task t).count) queue s.current ∨
        (∀ q ∈ queue, (s.task q).count = 0) ∧
          Best (fun t => (s.task t).priority) queue s.current)

end Sched

theorem Best.shift (h : Best weight queue p) (offset : Int) :
    Best (fun t => offset + weight t) queue p := by
  obtain ⟨l, r, rfl, hleft, hright⟩ := h
  refine ⟨l, r, rfl, fun q hq => ?_, fun q hq => ?_⟩
  · exact Int.add_lt_add_left (hleft q hq) offset
  · exact Int.add_le_add_left (hright q hq) offset

namespace Sched

theorem settle_list_of_running {s : Sched} (h : (s.task s.current).state = .running) :
    s.settle.list = s.list := by
  have hframe := Frame.scheduleDebug s s.current
  unfold settle
  simp only
  rw [if_neg]
  · exact hframe.list
  · rw [not_not]
    exact (hframe.state _).trans h

/-- A call ends in the task that makes it exactly when that task is preferred. -/
theorem Sound.preferred_iff {s out : Sched} {caller : Caller} (h : s.Sound pending)
    (hrunnable : s.Runnable) (hcall : s.call caller fuel stale = some out) :
    s.Preferred ↔ out.current = s.current := by
  obtain ⟨⟨queue, ring, hc⟩, hsettled⟩ := h
  obtain ⟨queue', next, counts, houtcome, _, hqueue, hbest, hpos, hcounts⟩ :=
    hc.call_cases hsettled hrunnable hcall
  have henter := Frame.enter s caller
  have hsame := settle_same (s.enter caller)
  rw [houtcome.current]
  have hwalk : (s.task s.current).state = .running →
      trail (fun x => (s.list x).next) .rqHead (queue'.length + 1) =
        some (queue'.map .runList) := by
    intro hrunning
    have hlist : (s.enter caller).settle.list = s.list := by
      rw [settle_list_of_running, henter.list]
      rw [henter.current, henter.state, hrunning]
    rw [← hlist]
    exact hqueue.trail_next
  have hpriority : ∀ q ∈ queue', s.resetCounts ring q = defCounter +
    (s.task q).priority := by
    intro q hq
    have hin := hqueue.mem_ring hq
    have hbounds := hc.priority q (List.mem_cons_of_mem _ hin)
    refine resetCounts_of_mem hin (by omega) ?_
    simp only [defCounter]
    omega
  constructor
  · rintro ⟨hrunning, walked, ⟨_, hwalked⟩, hpreferred⟩
    obtain rfl : walked = queue' :=
      List.map_injective_iff.mpr runList_injective (trail_unique hwalked (hwalk hrunning))
    rcases hpreferred with ⟨hleft, hcurrent⟩ | ⟨hzero, hcurrent⟩
    · rcases hcounts with rfl | ⟨hzero, _⟩
      · exact hbest.unique hcurrent
      · have hnone := hzero _ hcurrent.mem
        omega
    · rcases hcounts with rfl | ⟨_, rfl⟩
      · have hnone := hzero _ hbest.mem
        simp only at hpos
        omega
      · exact hbest.unique ((hcurrent.shift defCounter).congr hpriority)
  · rintro rfl
    have hrunning : (s.task s.current).state = .running := by
      have hstate := ((hqueue.queued _).mp hbest.mem).2
      rw [hsame.1, henter.state] at hstate
      simpa using hstate
    refine ⟨hrunning, queue', ⟨_, hwalk hrunning⟩, ?_⟩
    rcases hcounts with rfl | ⟨hzero, rfl⟩
    · exact .inl ⟨hpos, hbest⟩
    · refine .inr ⟨hzero, ?_⟩
      have hshifted : Best (fun t => defCounter + (s.task t).priority) queue' s.current :=
        hbest.congr fun q hq => (hpriority q hq).symm
      refine (hshifted.shift (-defCounter)).congr fun q _ => ?_
      omega

theorem tick_caller (s : Sched) : s.tickHandlePeriodic.caller = s.caller := by
  unfold tickHandlePeriodic taskTickSimple
  simp only
  split <;> rfl

/-- `t` waits in a call of `schedule` for somebody to switch back. -/
structure Suspended (s : Sched) (t : TaskPtr) : Prop where
  member : s.Member t
  pc : (s.task t).cpuContext.pc = .afterSwitch
  caller : s.caller t = .schedule

section Outcome

variable {s out : Sched} {caller : Caller} {counts : TaskPtr → Int} {next : TaskPtr}

theorem Outcome.caller_eq (h : Outcome s caller counts next out) (t : TaskPtr) :
    out.caller t =
      if next ≠ s.current ∧ t = s.current then caller else s.caller t := by
  have hchosen := (chosen_untouched s caller counts).caller
  have hswitched : next ≠ s.current → (s.switched caller counts next).caller t =
      if next ≠ s.current ∧ t = s.current then caller else s.caller t := by
    intro hne
    change Function.update (s.chosen caller counts).caller s.current caller t = _
    rw [hchosen]
    by_cases ht : t = s.current
    · rw [if_pos ⟨hne, ht⟩, ht, Function.update_self]
    · rw [if_neg fun hboth => ht hboth.2, Function.update_of_ne ht]
  cases h with
  | same hsame =>
      rw [if_neg fun hboth => hboth.1 hsame, leave_field Sched.caller _ _ fun _ _ _ => rfl,
        hchosen]
  | fresh hne => exact hswitched hne
  | resumed hne =>
      rw [leave_field Sched.caller _ _ fun _ _ _ => rfl]
      exact hswitched hne

theorem Outcome.member (h : Outcome s caller counts next out) :
    out.Member t ↔ s.Member t := by
  unfold Member Forked
  rw [h.gTask]

end Outcome

namespace Suspended

variable {s s' : Sched} {t : TaskPtr} {pending pending' : Bool}

/-- What one task does leaves the suspended ones where they are. -/
theorem fork (h : s.Suspended t) (hc : Coherent s pending queue ring) (hne : s.current ≠ t)
    (cloneFlags fn arg : U64) : (s.doFork cloneFlags fn arg).2.Suspended t := by
  rcases doFork_cases cloneFlags fn arg s with
    ⟨_, heq⟩ | ⟨i, hfree, ⟨_, heq⟩ | ⟨pid, _, hslot, heq⟩⟩ <;> rw [heq]
  · exact h
  · exact ⟨h.member, h.pc, h.caller⟩
  · have hfresh := hc.page_notMem hfree
    have hmem := hc.member_iff.mp h.member
    have hpage : t ≠ .ofPage (pageAddr i) := fun heq => hfresh (heq ▸ hmem)
    refine ⟨((hc.failedFork i).forkChild hfresh rfl (by simp) hslot).member_iff.mpr ?_, ?_,
      h.caller⟩
    · rw [← List.cons_append]
      exact List.mem_append_left _ hmem
    · exact (congrArg (fun t => t.cpuContext.pc)
        (forkChild_task_of_ne hpage hne.symm)).trans h.pc

theorem step (h : s.Suspended t) (hsound : s.Sound pending) (hne : s.current ≠ t)
    (hstep : SchedStep Runnable s pending s' pending') : s'.Suspended t := by
  obtain ⟨⟨queue, ring, hc⟩, hsettled⟩ := hsound
  cases hstep with
  | fork => exact h.fork hc hne _ _ _
  | tick =>
      refine ⟨h.member.imp id (tick_frame s).forked.mpr, ?_, ?_⟩
      · rw [tick_of_ne s hne.symm]
        exact h.pc
      · rw [tick_caller]
        exact h.caller
  | call caller fuel stale hrunnable hsome =>
      obtain ⟨_, next, counts, houtcome, _⟩ := hc.call_cases hsettled hrunnable hsome
      refine ⟨houtcome.member.mpr h.member, ?_, ?_⟩
      · rw [houtcome.pc, if_neg fun hboth => hne hboth.2.symm]
        exact h.pc
      · rw [houtcome.caller_eq, if_neg fun hboth => hne hboth.2.symm]
        exact h.caller
  | block =>
      refine ⟨h.member, ?_, h.caller⟩
      rw [modify_task_of_ne _ _ hne.symm]
      exact h.pc
  | wake =>
      refine ⟨h.member, ?_, h.caller⟩
      rw [wakeUpProcess_task, modify_field TaskStruct.cpuContext _ rfl]
      exact h.pc

end Suspended

end Sched

theorem MaskStep.sound {s s' : Sched} (h : MaskStep s pending s' pending')
    (hsound : s.Sound pending) : s'.Sound pending' := by
  cases h with
  | sched hsched => exact hsound.step hsched
  | irq masked =>
      obtain ⟨⟨queue, ring, hc⟩, hsettled⟩ := hsound
      have hframe := Sched.Frame.irq s masked
      exact ⟨⟨queue, ring, hc.frame hframe⟩, hframe.settled hsettled⟩

theorem MaskRun.sound {s : Sched} (h : MaskRun s pending) : s.Sound pending := by
  induction h with
  | start hboot => exact ⟨⟨[], [], hboot.coherent⟩, hboot.settled⟩
  | step _ hstep ih => exact hstep.sound ih

/-- As long as it is away a task is suspended in `schedule`. -/
theorem Away.suspended {s s' : Sched} (h : Away s s' pending') (hsound : s.Sound pending) :
    s'.Sound pending' ∧ s'.current ≠ s.current ∧ s'.Suspended s.current := by
  induction h with
  | left hrunnable hsome hne =>
      refine ⟨hsound.step (.call _ _ _ hrunnable hsome), hne, ?_⟩
      obtain ⟨⟨queue, ring, hc⟩, hsettled⟩ := hsound
      obtain ⟨_, next, counts, houtcome, _⟩ := hc.call_cases hsettled hrunnable hsome
      rw [houtcome.current] at hne
      refine ⟨houtcome.member.mpr (hc.member_iff.mpr hc.current), ?_, ?_⟩
      · rw [houtcome.pc, if_pos ⟨hne, rfl⟩]
      · rw [houtcome.caller_eq, if_pos ⟨hne, rfl⟩]
  | step _ hstep hne ih =>
      obtain ⟨hsound', haway, hsuspended⟩ := ih
      refine ⟨hstep.sound hsound', hne, ?_⟩
      cases hstep with
      | sched hsched => exact hsuspended.step hsound' haway hsched
      | irq masked => exact ⟨hsuspended.member, hsuspended.pc, hsuspended.caller⟩

theorem Away.not_preferred {s s' : Sched} (h : Away s s' pending')
    (hsound : s.Sound pending) : ¬ s.Preferred := by
  induction h with
  | left hrunnable hsome hne =>
      rw [hsound.preferred_iff hrunnable hsome]
      exact hne
  | step _ _ _ ih => exact ih

/-- In every run whose calls all find a runnable task, a call of `schedule` returns with
interrupts unmasked exactly when it has not chosen its own task: `schedule_tail` runs
behind a switch only. -/
theorem returns_unmasked_iff {s out : Sched} (h : MaskRun s pending)
    (hreturns : Returns s out) :
    out.irqMasked = false ↔ ¬ s.Preferred := by
  have hsound := h.sound
  obtain ⟨⟨queue, ring, hc⟩, hsettled⟩ := h.sound
  cases hreturns with
  | atOnce hrunnable hsome hcurrent =>
      rw [hsound.preferred_iff hrunnable hsome]
      refine iff_of_false ?_ (not_not.mpr hcurrent)
      obtain ⟨_, next, counts, houtcome, _⟩ := hc.call_cases hsettled hrunnable hsome
      rw [houtcome.current] at hcurrent
      cases houtcome with
      | same =>
          change ¬ (s.chosen .schedule counts).irqMasked = false
          rw [Sched.chosen_irqMasked]
          simp
      | fresh hne => exact absurd hcurrent hne
      | resumed hne => exact absurd hcurrent hne
  | later haway hrunnable hsome hcurrent =>
      have hpreferred := haway.not_preferred hsound
      refine iff_of_true ?_ hpreferred
      obtain ⟨hsound', hne', hsuspended⟩ := haway.suspended hsound
      obtain ⟨⟨queue', ring', hc'⟩, hsettled'⟩ := hsound'
      obtain ⟨_, next, counts, houtcome, _⟩ := hc'.call_cases hsettled' hrunnable hsome
      rw [houtcome.current] at hcurrent
      subst hcurrent
      cases houtcome with
      | same hsame => exact absurd hsame.symm hne'
      | fresh _ hpc =>
          rw [hsuspended.pc] at hpc
          exact absurd hpc (by simp)
      | resumed =>
          rw [hsuspended.caller]
          rfl

/-- A thread that is alone calls `schedule`, and goes on with interrupts masked. -/
theorem lonelyCall : ∃ s out, MaskRun s false ∧ s.irqMasked = false ∧ s.preemptCount = 0 ∧
    Returns s out ∧ out.irqMasked = true := by
  have hruns : ((firstFork.schedule 4 firstTask).bind fun s =>
      (s.schedule 4 firstTask).map fun out =>
        ((s.current, (s.task firstTask).state, s.gTask ⟨1, by decide⟩),
          (s.irqMasked, s.preemptCount), (out.current, out.irqMasked))) =
      some ((firstTask, .running, some firstTask), (false, 0), (firstTask, true)) := by
    decide +kernel
  simp only [Option.bind_eq_some_iff, Option.map_eq_some_iff, Prod.mk.injEq] at hruns
  obtain ⟨s, hfirst, out, hsecond, ⟨hcurrent, hstate, hslot⟩, ⟨hmasked, hcount⟩, hout,
    houtMasked⟩ := hruns
  have hforked : MaskRun firstFork false := .step (.start bootKernel_boot) (.sched .fork)
  have hrun : MaskRun s false :=
    .step hforked (.sched (.call _ _ _ firstFork_runnable hfirst))
  have hrunnable : s.Runnable := ⟨firstTask, ⟨by simp [firstTask], _, hslot⟩, hstate⟩
  exact ⟨s, out, hrun, hmasked, hcount,
    .atOnce hrunnable hsecond (hout.trans hcurrent.symm), houtMasked⟩

theorem not_returns_unmasked :
    ¬ ∀ s out pending, MaskRun s pending → s.irqMasked = false → s.preemptCount = 0 →
      Returns s out → out.irqMasked = false := by
  intro hall
  obtain ⟨s, out, hrun, hmasked, hcount, hreturns, hout⟩ := lonelyCall
  have hunmasked := hall s out false hrun hmasked hcount hreturns
  rw [hout] at hunmasked
  exact absurd hunmasked (by simp)

theorem returns_unmasked_iff_lonelyCall :
    ∃ s out, MaskRun s false ∧ Returns s out ∧ s.Preferred := by
  obtain ⟨s, out, hrun, _, _, hreturns, hout⟩ := lonelyCall
  refine ⟨s, out, hrun, hreturns, ?_⟩
  by_contra hnot
  have hunmasked := (returns_unmasked_iff hrun hreturns).mpr hnot
  rw [hout] at hunmasked
  exact absurd hunmasked (by simp)

end YiOS
