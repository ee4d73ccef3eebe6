import YiOS.Sched.Queue

namespace YiOS

open YiOS.Library

/-! What a call of `schedule` or `preempt_schedule_irq` does to the invariant. -/

namespace Sched

/-- Some forked task can run. -/
def Runnable (s : Sched) : Prop := ∃ p, s.Forked p ∧ (s.task p).state = .running

theorem Frame.runnable (h : Frame s s') : s'.Runnable ↔ s.Runnable := by
  unfold Runnable
  simp only [h.forked, h.state]

theorem settle_same (s : Sched) : s.settle.task = s.task ∧
    s.settle.current = s.current ∧ s.settle.gTask = s.gTask := by
  unfold settle scheduleDebug
  simp only
  split <;> split <;> exact ⟨rfl, rfl, rfl⟩

theorem settle_runnable (s : Sched) : s.settle.Runnable ↔ s.Runnable := by
  unfold Runnable Forked
  rw [(settle_same s).1, (settle_same s).2.2]

theorem cpuSwitchTo_task (s : Sched) (prev next : TaskPtr) :
    (s.cpuSwitchTo prev next).task = (s.modify prev fun t =>
      { t with cpuContext := { s.regs with pc := .afterSwitch } }).task := rfl

theorem cpuSwitchTo_field {α : Type} (field : TaskStruct → α) (s : Sched)
    (h : ∀ t context, field { t with cpuContext := context } = field t)
    (prev next u : TaskPtr) :
    field ((s.cpuSwitchTo prev next).task u) = field (s.task u) := by
  rw [cpuSwitchTo_task]
  exact modify_field field s (h _ _) u

theorem cpuSwitchTo_task_of_ne (s : Sched) (h : u ≠ prev) :
    (s.cpuSwitchTo prev next).task u = s.task u := by
  rw [cpuSwitchTo_task]
  exact modify_task_of_ne s _ h

theorem wakeUpProcess_task (s : Sched) (p : TaskPtr) :
    (s.wakeUpProcess p).task = (s.modify p fun t => { t with state := .running }).task := rfl

theorem call_mono {s : Sched} {caller : Caller} (h : s.call caller fuel stale = some out)
    (hle : fuel ≤ fuel') : s.call caller fuel' stale = some out := by
  unfold call __schedule at h ⊢
  simp only [Option.bind_eq_some_iff] at h ⊢
  obtain ⟨chosen, hchoose, hrest⟩ := h
  exact ⟨chosen, pickNextTaskSimple_mono hchoose hle, hrest⟩

namespace Coherent

variable {s s' : Sched} {pending : Bool} {queue ring : List TaskPtr} {next : TaskPtr}

theorem settle (h : Coherent s pending queue ring) (hsettled : Settled s pending) :
    ∃ queue', Coherent s.settle false queue' ring := by
  have hframe : Frame s (s.scheduleDebug s.current).rawLocalIrqDisable :=
    (Frame.scheduleDebug s s.current).trans (Frame.irq _ true)
  have hmasked := h.frame hframe
  have hstill := hframe.settled hsettled
  have hsettle : s.settle =
      let masked := (s.scheduleDebug s.current).rawLocalIrqDisable
      if (masked.task masked.current).state ≠ .running then
        masked.dequeueTaskSimple masked.current
      else
        masked := by
    simp only [hframe.current]
    rfl
  rw [hsettle]
  simp only
  split
  · next hblocked =>
    obtain rfl : pending = true := hstill.mpr hblocked
    exact ⟨_, hmasked.dequeue hblocked⟩
  · next hrunning =>
    have hfalse : pending = false := by
      rw [← Bool.not_eq_true]
      exact fun htrue => hrunning (hstill.mp htrue)
    exact ⟨queue, hfalse ▸ hmasked⟩

theorem queue_ne_nil_iff (h : Coherent s false queue ring) :
    queue ≠ [] ↔ s.Runnable := by
  constructor
  · intro hne
    obtain ⟨p, hp⟩ := List.exists_mem_of_ne_nil queue hne
    obtain ⟨hring, hstate⟩ := (h.queued p).mp hp
    exact ⟨p, (h.forked p).mp hring, by simpa using hstate⟩
  · rintro ⟨p, hforked, hstate⟩
    exact List.ne_nil_of_mem ((h.queued p).mpr ⟨(h.forked p).mpr hforked, .inl hstate⟩)

theorem resetCounts (h : Coherent s pending queue ring) :
    ∀ p ∈ .initTask :: ring, 0 ≤ s.resetCounts ring p ∧
      s.resetCounts ring p ≤ defCounter + (s.task p).priority := by
  intro p hp
  have hpriority := h.priority p hp
  have hcounts := h.counts p hp
  by_cases hring : p ∈ ring
  · have hsum : defCounter + (s.task p).priority < 2 ^ 31 := by
      simp only [defCounter]
      omega
    rw [resetCounts_of_mem hring (by omega) hsum]
    simp only [defCounter]
    omega
  · rw [Sched.resetCounts, if_neg hring]
    exact hcounts

theorem pick (h : Coherent s false queue ring) (hne : queue ≠ []) :
    ∃ p counts, pickNextTaskSimple 67 none s =
        some (some p, s.recount counts) ∧
      Best counts queue p ∧ 0 < counts p ∧ Coherent (s.recount counts) false queue ring ∧
      ((counts = fun t => (s.task t).count) ∨
        (∀ q ∈ queue, (s.task q).count = 0) ∧ counts = s.resetCounts ring) := by
  have hring := h.ring_length
  have hqueue := h.queue_length
  simp only [nrTask] at hring
  obtain ⟨p, counts, hpick, hbest, hpos, hcounts⟩ :=
    pickNextTaskSimple_best h.runQueue h.taskRing
      (fun q hq => h.mem_ring hq) hne
      (fun q hq => by
        have hcount := h.counts q (List.mem_cons_of_mem _ (h.mem_ring hq))
        have hpriority := h.priority q (List.mem_cons_of_mem _ (h.mem_ring hq))
        simp only [defCounter] at hcount
        omega)
      (fun q hq => by
        have hpriority := h.priority q (List.mem_cons_of_mem _ (h.mem_ring hq))
        simp only [defCounter]
        omega)
      none 65 (by omega) (by omega)
  refine ⟨p, counts, hpick, hbest, hpos, h.recount ?_, hcounts⟩
  rcases hcounts with rfl | ⟨_, rfl⟩
  · exact h.counts
  · exact h.resetCounts

/-- `cpu_switch_to` only moves `current`. -/
theorem cpuSwitchTo (h : Coherent s false queue ring) (hnext : next ∈ .initTask :: ring) :
    Coherent (s.cpuSwitchTo s.current next) false queue ring :=
  { h with
    current := hnext
    initState := by
      rw [cpuSwitchTo_field TaskStruct.state s fun _ _ => rfl]
      exact h.initState
    counts := fun p hp => by
      rw [cpuSwitchTo_field TaskStruct.count s fun _ _ => rfl,
        cpuSwitchTo_field TaskStruct.priority s fun _ _ => rfl]
      exact h.counts p hp
    priority := fun p hp => by
      rw [cpuSwitchTo_field TaskStruct.priority s fun _ _ => rfl]
      exact h.priority p hp
    resumable := fun p hp _ => by
      by_cases hprev : p = s.current
      · subst hprev
        exact .inr (by simp [Sched.cpuSwitchTo])
      · rw [cpuSwitchTo_task_of_ne s hprev]
        exact h.resumable p hp hprev
    queued := fun p => by
      rw [cpuSwitchTo_field TaskStruct.state s fun _ _ => rfl]
      simpa using h.queued p }

end Coherent

/-- The task that is switched to comes back to a place outside `__schedule`. -/
theorem resume_frame {s : Sched} (hpc : s.regs.pc.Known) :
    ∃ s', s.resume = some s' ∧ Frame s s' := by
  unfold resume
  rcases hpc with hfork | hswitch
  · rw [hfork]
    exact ⟨_, rfl, Frame.irq s false⟩
  · rw [hswitch]
    refine ⟨_, rfl, Frame.trans ?_ ((Frame.irq _ false).trans (Frame.leave _ _))⟩
    exact Frame.of_task rfl rfl rfl rfl rfl rfl rfl

namespace Coherent

variable {s s' : Sched} {pending : Bool} {queue ring : List TaskPtr} {next : TaskPtr}

/-- With a definite choice `__schedule` ends in the chosen task, whatever the
variable held before. -/
theorem schedule_of_choose (h : Coherent s' false queue ring)
    (hchoose : s.choose fuel = some (some next, s')) (hcurrent : s'.current = s.current)
    (hnext : next ∈ .initTask :: ring) (caller : Caller) :
    ∃ out, (∀ stale, s.__schedule caller fuel stale = some out) ∧
      Coherent out false queue ring ∧ out.current = next ∧
      (out.task next).state = (s'.task next).state := by
  unfold Sched.__schedule
  simp only [hchoose, Option.bind_some, Option.getD_some]
  have hframe := Frame.clearTaskResched s' s.current
  have hclear := h.frame hframe
  by_cases hne : next = s.current
  · refine ⟨_, fun _ => if_neg (not_not.mpr hne),
      hclear.frame (Frame.leave _ caller), ?_, ?_⟩
    · rw [(Frame.leave _ caller).current, hframe.current, hcurrent, hne]
    · rw [(Frame.leave _ caller).state, hframe.state]
  · let saved : Sched :=
      { s'.clearTaskResched s.current with
        caller := Function.update (s'.clearTaskResched s.current).caller s.current caller }
    have hsaved : Frame s' saved :=
      hframe.trans (Frame.of_task rfl rfl rfl rfl rfl rfl rfl)
    have hprev : saved.current = s.current := hcurrent
    have hswitch := (h.frame hsaved).cpuSwitchTo hnext
    rw [hprev] at hswitch
    have hpc : (saved.cpuSwitchTo s.current next).regs.pc.Known := by
      change ((saved.cpuSwitchTo s.current next).task next).cpuContext.pc.Known
      rw [cpuSwitchTo_task_of_ne _ hne]
      exact (h.frame hsaved).resumable next hnext (by rw [hprev]; exact hne)
    obtain ⟨out, hresume, hout⟩ := resume_frame hpc
    refine ⟨out, fun _ => (if_pos hne).trans hresume, hswitch.frame hout, ?_, ?_⟩
    · exact hout.current
    · rw [hout.state, cpuSwitchTo_field TaskStruct.state _ fun _ _ => rfl, hsaved.state]

/-- From a settled state with a runnable task a call returns, into a settled state. -/
theorem call (h : Coherent s pending queue ring) (hsettled : Settled s pending)
    (hrunnable : s.Runnable) (caller : Caller) :
    ∃ out queue', (∀ stale, s.call caller 67 stale = some out) ∧
      Coherent out false queue' ring ∧ Settled out false := by
  have henter := Frame.enter s caller
  have hentered := h.frame henter
  obtain ⟨queue', hqueue⟩ := hentered.settle (henter.settled hsettled)
  have hne : queue' ≠ [] := by
    rw [hqueue.queue_ne_nil_iff, settle_runnable, henter.runnable]
    exact hrunnable
  obtain ⟨next, counts, hpick, hbest, _, hcounted, _⟩ := hqueue.pick hne
  obtain ⟨out, hout, hcoherent, hcurrent, hstate⟩ :=
    hcounted.schedule_of_choose hpick (settle_same _).2.1
      (List.mem_cons_of_mem _ (hcounted.mem_ring hbest.mem)) caller
  refine ⟨out, queue', hout, hcoherent, ?_⟩
  have hrunning := ((hcounted.queued next).mp hbest.mem).2
  unfold Settled
  rw [hcurrent, hstate]
  simpa using hrunning

end Coherent

end Sched

end YiOS
