import YiOS.Sched.Births
import YiOS.Sched.Moves

namespace YiOS

open YiOS.Library

/-! `preempt_count` counts the activations of `__schedule`, under any interruption. -/

namespace Kernel

open Sched

/-- A task that does not run, and where a switch to it comes to. -/
def Parked (k : Kernel) (t : TaskPtr) : Prop :=
  k.control t = ⟨.fresh, []⟩ ∧ (k.sched.task t).cpuContext.pc = .retFromFork ∨
    (k.control t).activity ≠ .fresh ∧
      (∃ caller rest, (k.control t).stack = .sched caller .away :: rest) ∧
      (k.sched.task t).cpuContext.pc = .afterSwitch

structure Nested (k : Kernel) : Prop where
  live : k.Live k.sched.current
  notFresh : k.own.activity ≠ .fresh
  counted : ∀ t, k.Live t → (k.sched.task t).preemptCount = depth (k.control t).stack
  once : ∀ t, k.Live t → depth (k.control t).stack ≤ 1
  parked : ∀ t, k.Live t → t ≠ k.sched.current → k.Parked t
  quiet : ∀ message ∈ k.sched.console, Harmless message

theorem depth_cons (top : Activation) (rest : List Activation) :
    depth (top :: rest) = depth [top] + depth rest := by
  rw [depth, List.countP_cons, depth, List.countP_singleton, Nat.add_comm, depth]

theorem depth_append (top rest : List Activation) :
    depth (top ++ rest) = depth top + depth rest := List.countP_append ..

theorem depth_pos_iff {stack : List Activation} :
    0 < depth stack ↔ ∃ caller point, .sched caller point ∈ stack := by
  rw [depth, List.countP_pos_iff]
  constructor
  · rintro ⟨top, hmem, hsched⟩
    cases top with
    | sched caller point => exact ⟨caller, point, hmem⟩
    | irq => simp [Activation.isSched] at hsched
  · rintro ⟨caller, point, hmem⟩
    exact ⟨_, hmem, rfl⟩

theorem Nested.nestedOnce {k : Kernel} (h : k.Nested) : k.NestedOnce where
  inside := by
    intro t ht hinside
    have hpos := depth_pos_iff.mpr hinside
    have hcounted := h.counted t ht
    have honce := h.once t ht
    omega
  outside := by
    intro t ht houtside
    have hpos := mt depth_pos_iff.mp houtside
    have hcounted := h.counted t ht
    omega
  once := h.once
  suspended := by
    intro t ht hcurrent
    exact (h.parked t ht hcurrent).imp And.left fun haway => haway.2.1
  running := ⟨h.live, h.notFresh⟩
  quiet := h.quiet


section Steps

variable {k : Kernel} {queued linked : TaskPtr → Prop} {caller : Caller}

theorem step_preemptCount {top : Activation} {s s' : Sched}
    (h : top.step s = some (top', s')) :
    (s'.task s.current).preemptCount + depth [top] =
        (s.task s.current).preemptCount + depth top' ∧
      (depth top' ≤ depth [top] ∨ (s.task s.current).preemptCount = 0 ∧
        depth top' = 1) := by
  cases top with
  | sched caller point =>
      cases point with
      | unmask | mask | account | tail | remask =>
          obtain ⟨rfl, rfl⟩ := Prod.mk.inj (Option.some.inj h)
          exact ⟨rfl, .inl le_rfl⟩
      | debug =>
          obtain ⟨rfl, rfl⟩ := Prod.mk.inj (Option.some.inj h)
          refine ⟨?_, .inl le_rfl⟩
          unfold scheduleDebug
          split <;> rfl
      | enable =>
          obtain ⟨rfl, rfl⟩ := Prod.mk.inj (Option.some.inj h)
          refine ⟨?_, .inl (Nat.zero_le _)⟩
          simp [preemptEnable, depth, Activation.isSched]
      | pick | away => simp [Activation.step] at h
  | irq point =>
      cases point with
      | doIrq =>
          obtain ⟨rfl, rfl⟩ := Prod.mk.inj (Option.some.inj h)
          exact ⟨rfl, .inl le_rfl⟩
      | check =>
          simp only [Activation.step] at h
          split at h
          · obtain ⟨rfl, rfl⟩ := Prod.mk.inj (Option.some.inj h)
            exact ⟨rfl, .inl le_rfl⟩
          · next hready =>
            obtain ⟨rfl, rfl⟩ := Prod.mk.inj (Option.some.inj h)
            have hzero : s.preemptCount = 0 := by simpa using (not_or.mp hready).1
            refine ⟨?_, .inr ⟨hzero, rfl⟩⟩
            simp [enterPreempt, hzero, preemptDisable, depth, List.countP_cons,
              Activation.isSched]
      | exit =>
          obtain ⟨rfl, rfl⟩ := Prod.mk.inj (Option.some.inj h)
          exact ⟨rfl, .inl le_rfl⟩

/-- Inside `__schedule` with a count of 1 and at `el1_irq` there is nothing to complain
of. -/
theorem step_console {top : Activation} {s s' : Sched} (h : top.step s = some (top', s'))
    (hcount : top.isSched → s.preemptCount = 1) :
    ∀ message ∈ s'.console, message ∈ s.console ∨ Harmless message := by
  cases top with
  | sched caller point =>
      cases point with
      | unmask | mask | account | tail | remask | enable =>
          obtain ⟨_, rfl⟩ := Prod.mk.inj (Option.some.inj h)
          exact fun _ => .inl
      | debug =>
          obtain ⟨_, rfl⟩ := Prod.mk.inj (Option.some.inj h)
          rw [scheduleDebug, if_neg (not_not.mpr (hcount rfl))]
          exact fun _ => .inl
      | pick | away => simp [Activation.step] at h
  | irq point =>
      cases point with
      | doIrq =>
          obtain ⟨_, rfl⟩ := Prod.mk.inj (Option.some.inj h)
          exact fun _ => .inl
      | check =>
          simp only [Activation.step] at h
          split at h
          · obtain ⟨_, rfl⟩ := Prod.mk.inj (Option.some.inj h)
            exact fun _ => .inl
          · next hready =>
            obtain ⟨_, rfl⟩ := Prod.mk.inj (Option.some.inj h)
            have hzero : ¬ s.preemptCount ≠ 0 := (not_or.mp hready).1
            rw [enterPreempt, if_neg hzero]
            exact fun _ => .inl
      | exit =>
          obtain ⟨_, rfl⟩ := Prod.mk.inj (Option.some.inj h)
          exact fun _ => .inl

theorem tick_console (s : Sched) :
    ∀ message ∈ s.tickHandlePeriodic.console, message ∈ s.console ∨ Harmless message := by
  unfold tickHandlePeriodic taskTickSimple
  simp only
  split
  · intro message hmessage
    rcases List.mem_cons.mp hmessage with rfl | hold
    · exact .inr trivial
    · exact .inl hold
  · exact fun _ => .inl

/-- The current task goes on, and the other tasks are as they were. -/
theorem Nested.go {control : Control} {s : Sched} (h : k.Nested)
    (hcurrent : s.current = k.sched.current)
    (hothers : ∀ t, t ≠ k.sched.current →
      (s.task t).preemptCount = (k.sched.task t).preemptCount ∧
        (s.task t).cpuContext = (k.sched.task t).cpuContext)
    (hactivity : control.activity ≠ .absent ∧ control.activity ≠ .fresh)
    (hcounted : (s.task k.sched.current).preemptCount = depth control.stack)
    (honce : depth control.stack ≤ 1)
    (hquiet : ∀ message ∈ s.console, message ∈ k.sched.console ∨ Harmless message) :
    (k.go s control).Nested where
  live := by
    refine (go_live s control hactivity.1 h.live _).mpr ?_
    exact hcurrent.symm ▸ h.live
  notFresh := by
    have hself := go_control_self k s control
    rw [← hcurrent] at hself
    rw [own, show (k.go s control).sched = s from rfl, hself]
    exact hactivity.2
  counted := by
    intro t ht
    by_cases hself : t = k.sched.current
    · subst hself
      rw [go_control_self]
      exact hcounted
    · rw [go_control_of_ne k s control hself]
      exact (hothers t hself).1.trans
        (h.counted t ((go_live s control hactivity.1 h.live t).mp ht))
  once := by
    intro t ht
    by_cases hself : t = k.sched.current
    · subst hself
      rw [go_control_self]
      exact honce
    · rw [go_control_of_ne k s control hself]
      exact h.once t ((go_live s control hactivity.1 h.live t).mp ht)
  parked := by
    intro t ht hother
    have hne : t ≠ k.sched.current := fun heq => hother (heq.trans hcurrent.symm)
    have hparked := h.parked t ((go_live s control hactivity.1 h.live t).mp ht) hne
    unfold Parked at hparked ⊢
    rw [go_control_of_ne k s control hne]
    simpa only [Kernel.go, (hothers t hne).2] using hparked
  quiet := by
    intro message hmessage
    rcases hquiet message hmessage with hold | hnew
    · exact h.quiet message hold
    · exact hnew

theorem Nested.tick (h : k.Nested) : (k.go k.sched.tickHandlePeriodic k.own).Nested := by
  have hquiet := Quiet.tickHandlePeriodic k.sched
  refine h.go hquiet.current (fun t ht => ?_) ⟨h.live, h.notFresh⟩ ?_ (h.once _ h.live)
    (tick_console k.sched)
  · rw [hquiet.task t ht]
    exact ⟨rfl, rfl⟩
  · rw [tick_current]
    exact h.counted _ h.live

theorem Nested.inner {top : Activation} (h : k.Nested) (hstack : k.own.stack = top :: rest)
    (hstep : top.step k.sched = some (top', s)) :
    (k.go s ⟨k.own.activity, top' ++ rest⟩).Nested := by
  have hquiet := Activation.step_quiet hstep
  obtain ⟨hpreemptCount, hdepth⟩ := step_preemptCount hstep
  have hcounted : (k.sched.task k.sched.current).preemptCount = depth k.own.stack :=
    h.counted _ h.live
  have honce : depth k.own.stack ≤ 1 := h.once _ h.live
  rw [hstack, depth_cons] at hcounted honce
  refine h.go hquiet.current (fun t ht => ?_) ⟨h.live, h.notFresh⟩ ?_ ?_ ?_
  · rw [hquiet.task t ht]
    exact ⟨rfl, rfl⟩
  · simp only [depth_append]
    omega
  · simp only [depth_append]
    omega
  · refine step_console hstep fun hsched => ?_
    have hone : depth [top] = 1 := by
      simp [depth, hsched]
    have hpreempt : k.sched.preemptCount = _ := hcounted
    omega

/-- A step that leaves the stack. -/
theorem Nested.calm {control : Control} {s : Sched} (h : k.Nested)
    (hcurrent : s.current = k.sched.current)
    (htask : ∀ t, (s.task t).preemptCount = (k.sched.task t).preemptCount ∧
      (s.task t).cpuContext = (k.sched.task t).cpuContext)
    (hactivity : control.activity ≠ .absent ∧ control.activity ≠ .fresh)
    (hdepth : depth control.stack = depth k.own.stack)
    (hconsole : s.console = k.sched.console) : (k.go s control).Nested := by
  refine h.go hcurrent (fun t _ => htask t) hactivity ?_ ?_ fun _ hmessage => .inl ?_
  · rw [(htask _).1, hdepth]
    exact h.counted _ h.live
  · rw [hdepth]
    exact h.once _ h.live
  · rwa [← hconsole]

theorem Nested.picked (h : k.Nested) (hpicked : Picked queued linked k.sched next s)
    (hstack : k.own.stack = .sched caller .pick :: rest) :
    (k.go s ⟨k.own.activity, .sched caller caller.leaving :: rest⟩).Nested := by
  refine h.calm hpicked.current (fun t => ⟨hpicked.preemptCount t, hpicked.cpuContext t⟩)
    ⟨h.live, h.notFresh⟩ ?_ hpicked.console
  rw [hstack, depth_cons, depth_cons (.sched caller .pick)]
  rfl

theorem Nested.switched {control : Control} (h : k.Nested)
    (hnext : k.Live next) (hpicked : Picked queued linked k.sched next s)
    (hstack : k.own.stack = .sched caller .pick :: rest) (hne : next ≠ k.sched.current)
    (hwakes : k.Wakes next control.activity) (hfresh : control.activity ≠ .fresh)
    (hdepth : depth control.stack = depth (k.control next).stack) :
    (k.switched s caller rest next control).Nested := by
  have hlive : ∀ t, (k.switched s caller rest next control).Live t ↔ k.Live t :=
    switched_live hnext hwakes
  have hnextControl : (k.switched s caller rest next control).control next = control :=
    Function.update_self ..
  have hcurrentControl : (k.switched s caller rest next control).control k.sched.current =
      ⟨k.own.activity, .sched caller .away :: rest⟩ := by
    simp [Kernel.switched, hne.symm]
  have hotherControl : ∀ t, t ≠ next → t ≠ k.sched.current →
      (k.switched s caller rest next control).control t = k.control t := by
    intro t ht hcurrent
    simp [Kernel.switched, ht, hcurrent]
  have hstackDepth : ∀ t, depth ((k.switched s caller rest next control).control t).stack =
      depth (k.control t).stack := by
    intro t
    by_cases ht : t = next
    · rw [ht, hnextControl, hdepth]
    · by_cases hcurrent : t = k.sched.current
      · rw [hcurrent, hcurrentControl, show (k.control k.sched.current).stack = _ from hstack,
          depth_cons, depth_cons (.sched caller .pick)]
        rfl
      · rw [hotherControl t ht hcurrent]
  refine ⟨(hlive _).mpr hnext, ?_, fun t ht => ?_, fun t ht => ?_, fun t ht hother => ?_, ?_⟩
  · rw [own, show (k.switched s caller rest next control).sched.current = next from rfl,
      hnextControl]
    exact hfresh
  · rw [hstackDepth]
    have hcount := switchTo_field TaskStruct.preemptCount s caller next (fun _ _ => rfl) t
    exact hcount.trans ((hpicked.preemptCount t).trans (h.counted t ((hlive t).mp ht)))
  · rw [hstackDepth]
    exact h.once t ((hlive t).mp ht)
  · have hnotNext : t ≠ next := hother
    unfold Parked
    by_cases hcurrent : t = k.sched.current
    · subst hcurrent
      rw [hcurrentControl]
      refine .inr ⟨h.notFresh, ⟨caller, rest, rfl⟩, ?_⟩
      simp [Kernel.switched, switchTo, Sched.cpuSwitchTo, hpicked.current]
    · have hparked := h.parked t ((hlive t).mp ht) hcurrent
      have htask : ((k.switched s caller rest next control).sched.task t).cpuContext =
          (k.sched.task t).cpuContext := by
        rw [← hpicked.cpuContext t]
        exact congrArg TaskStruct.cpuContext
          (switchTo_task_of_ne s caller next (by rwa [hpicked.current]))
      rw [hotherControl t hnotNext hcurrent, htask]
      exact hparked
  · rw [show (k.switched s caller rest next control).sched.console = s.console from rfl,
      hpicked.console]
    exact h.quiet

theorem forkStep_same {args : ForkArgs} {s s' : Sched}
    (h : s.forkStep args point = (point', s')) :
    s'.current = s.current ∧ s'.console = s.console ∧
      ∀ t, (∀ page, point.unborn = some page → t ≠ .ofPage page) →
        (s'.task t).preemptCount = (s.task t).preemptCount ∧
          (s'.task t).cpuContext = (s.task t).cpuContext := by
  cases point with
  | scan i =>
      simp only [forkStep] at h
      split at h
      · split at h <;>
          obtain ⟨_, rfl⟩ := Prod.mk.inj h <;> exact ⟨rfl, rfl, fun _ _ => ⟨rfl, rfl⟩⟩
      · obtain ⟨_, rfl⟩ := Prod.mk.inj h
        exact ⟨rfl, rfl, fun _ _ => ⟨rfl, rfl⟩⟩
  | find page i =>
      simp only [forkStep] at h
      split at h
      · split at h <;>
          obtain ⟨_, rfl⟩ := Prod.mk.inj h <;> exact ⟨rfl, rfl, fun _ _ => ⟨rfl, rfl⟩⟩
      · obtain ⟨_, rfl⟩ := Prod.mk.inj h
        exact ⟨rfl, rfl, fun _ _ => ⟨rfl, rfl⟩⟩
  | claim | done =>
      obtain ⟨_, rfl⟩ := Prod.mk.inj h
      exact ⟨rfl, rfl, fun _ _ => ⟨rfl, rfl⟩⟩
  | store page pid stage =>
      cases stage with
      | copyThread | fields | count | clear =>
          obtain ⟨_, rfl⟩ := Prod.mk.inj h
          refine ⟨rfl, rfl, fun t ht => ?_⟩
          have htask : ∀ task, Function.update s.task (.ofPage page) task t = s.task t :=
            fun task => Function.update_of_ne (ht page rfl) task s.task
          exact ⟨congrArg TaskStruct.preemptCount (htask _),
            congrArg TaskStruct.cpuContext (htask _)⟩
      | halve | wake =>
          obtain ⟨_, rfl⟩ := Prod.mk.inj h
          refine ⟨rfl, rfl, fun t _ => ⟨?_, ?_⟩⟩
          · exact modify_field TaskStruct.preemptCount s rfl t
          · exact modify_field TaskStruct.cpuContext s rfl t
      | gTask | nextTask | prevTask | lastTask | initTask | load | nextPrev | newNext | newPrev
      | headNext | nrRunning =>
          obtain ⟨_, rfl⟩ := Prod.mk.inj h
          exact ⟨rfl, rfl, fun _ _ => ⟨rfl, rfl⟩⟩

/-- The child is born with a count of 0 behind `ret_from_fork`. -/
theorem forkStep_born {args : ForkArgs} (hpoint : k.InOrder queued linked point)
    (hborn : point.born = some t) (h : k.sched.forkStep args point = (point', s)) :
    (s.task t).preemptCount = 0 ∧ (s.task t).cpuContext.pc = .retFromFork := by
  cases point with
  | scan | claim | find | done => simp [ForkPoint.born] at hborn
  | store page pid stage =>
      cases stage with
      | clear =>
          obtain rfl := Option.some.inj hborn
          obtain ⟨_, rfl⟩ := Prod.mk.inj h
          rw [modify_task_self]
          exact ⟨rfl, hpoint.2.1⟩
      | _ => simp [ForkPoint.born] at hborn

theorem Nested.fork {args : ForkArgs} (h : k.Nested) (htidy : k.Tidy queued linked)
    (hown : k.own = ⟨.forking args point, []⟩)
    (hstep : k.sched.forkStep args point = (point', s)) :
    (k.forked args point point' s).Nested := by
  have hpoint : k.forkPoint k.sched.current = some point := by
    rw [forkPoint, show k.control k.sched.current = _ from hown]
  have hin := htidy.points _ _ hpoint
  obtain ⟨hcurrent, hconsole, hsame⟩ := forkStep_same hstep
  have hold : ∀ t, k.Live t → (s.task t).preemptCount = (k.sched.task t).preemptCount ∧
      (s.task t).cpuContext = (k.sched.task t).cpuContext := by
    intro t ht
    refine hsame t fun page hpage heq => ?_
    exact (hin.unborn hpage).2 (heq ▸ ht)
  have hselfBorn : point.born ≠ some k.sched.current := by
    intro hborn
    obtain ⟨page, heq, hpage⟩ := ForkPoint.unborn_of_born hborn
    exact (hin.unborn hpage).2 (heq ▸ h.live)
  refine ⟨?_, ?_, fun t ht => ?_, fun t ht => ?_, fun t ht hother => ?_, ?_⟩
  · rw [show (k.forked args point point' s).sched.current = s.current from rfl, hcurrent]
    exact forked_live_of h.live h.live
  · rw [own, show (k.forked args point point' s).sched.current = s.current from rfl, hcurrent,
      forked_control_self]
    exact (forkActivity_ne args point').2
  · by_cases hself : t = k.sched.current
    · subst hself
      rw [forked_control_self]
      refine (hold _ h.live).1.trans ((h.counted _ h.live).trans ?_)
      rw [show k.control k.sched.current = _ from hown]
    · rw [forked_control_of_ne hself]
      split
      · next hborn => exact (forkStep_born hin hborn hstep).1
      · next hborn =>
        have hlive := ((forked_live h.live t).mp ht).resolve_right hborn
        exact (hold t hlive).1.trans (h.counted t hlive)
  · by_cases hself : t = k.sched.current
    · subst hself
      rw [forked_control_self]
      exact Nat.zero_le 1
    · rw [forked_control_of_ne hself]
      split
      · exact Nat.zero_le 1
      · next hborn => exact h.once t (((forked_live h.live t).mp ht).resolve_right hborn)
  · have hself : t ≠ k.sched.current := fun heq => hother (heq.trans hcurrent.symm)
    unfold Parked
    rw [forked_control_of_ne hself]
    split
    · next hborn => exact .inl ⟨rfl, (forkStep_born hin hborn hstep).2⟩
    · next hborn =>
      have hlive := ((forked_live h.live t).mp ht).resolve_right hborn
      rw [show ((k.forked args point point' s).sched.task t).cpuContext = _ from (hold t hlive).2]
      exact h.parked t hlive hself
  · rw [show (k.forked args point point' s).sched.console = s.console from rfl, hconsole]
    exact h.quiet

/-- The invariant: the counts are right and the structures are tidy. -/
def Orderly (k : Kernel) : Prop :=
  k.Nested ∧ ∃ queued linked, k.Tidy queued linked

theorem Nested.resumed (h : k.Nested) (hnext : k.Live next) (hne : next ≠ k.sched.current)
    (hpc : (k.sched.task next).cpuContext.pc = .retFromFork) :
    k.control next = ⟨.fresh, []⟩ := by
  rcases h.parked next hnext hne with hfresh | ⟨_, _, haway⟩
  · exact hfresh.1
  · simp [haway] at hpc

theorem switchTo_pc (s : Sched) (caller : Caller) (hne : next ≠ s.current) :
    (switchTo s caller next).regs = (s.task next).cpuContext :=
  congrArg TaskStruct.cpuContext (Function.update_of_ne hne ..)

theorem Orderly.step (h : k.Orderly) (hguarded : k.Guarded) (hstep : KernelStep k k') :
    k'.Orderly := by
  obtain ⟨hnested, queued, linked, htidy⟩ := h
  have hlive := hnested.live
  have hcounted := hnested.counted _ hlive
  have honce := hnested.once _ hlive
  have hcontinues : k.Continues k.own.activity := .refl hlive
  cases hstep with
  | irq =>
      have hquiet : k.sched.Quiet { k.sched with irqMasked := true } :=
        .of_task rfl rfl rfl rfl rfl
      refine ⟨hnested.calm rfl (fun _ => ⟨rfl, rfl⟩) ⟨hlive, hnested.notFresh⟩ ?_ rfl,
        queued, linked, htidy.quiet hlive ⟨_, _⟩ hcontinues hquiet⟩
      rw [depth_cons]
      exact Nat.zero_add _
  | tick =>
      exact ⟨hnested.tick, queued, linked,
        htidy.quiet hlive _ hcontinues (.tickHandlePeriodic _)⟩
  | inner hstack htop =>
      exact ⟨hnested.inner hstack htop, queued, linked,
        htidy.quiet hlive ⟨_, _⟩ hcontinues (Activation.step_quiet htop)⟩
  | same hstack hpick =>
      have hpicked := htidy.picked (hguarded.1 _ _ hstack) hpick
      exact ⟨hnested.picked hpicked hstack, queued, linked, htidy.same hlive hpicked _⟩
  | @first rest caller fuel stale next s hstack hpick hne hpc =>
      have hpicked := htidy.picked (hguarded.1 _ _ hstack) hpick
      have hnext := htidy.queuedLive _ hpicked.next
      rw [switchTo_pc s caller (by rwa [hpicked.current]), hpicked.cpuContext] at hpc
      have hfresh := hnested.resumed hnext hne hpc
      refine ⟨hnested.switched hnext hpicked hstack hne (.inl rfl) (by simp) ?_,
        queued, linked,
        htidy.switched hlive hpicked (.inl rfl) _ _⟩
      rw [hfresh]
  | @resumed rest caller fuel stale next s activity caller' rest' hstack hpick hne hpc haway =>
      have hpicked := htidy.picked (hguarded.1 _ _ hstack) hpick
      have hnext := htidy.queuedLive _ hpicked.next
      have hwakes : k.Wakes next activity := .inr (by rw [haway])
      have hfresh : activity ≠ .fresh := by
        rcases hnested.parked next hnext hne with hfresh | ⟨hfresh, _⟩
        · simp [hfresh.1] at haway
        · rwa [haway] at hfresh
      refine ⟨hnested.switched hnext hpicked hstack hne hwakes hfresh ?_, queued, linked,
        htidy.switched hlive hpicked hwakes _ _⟩
      rw [haway, depth_cons, depth_cons (.sched caller' .away)]
      rfl
  | start hown =>
      have hquiet : k.sched.Quiet k.sched.scheduleTail := .of_task rfl rfl rfl rfl rfl
      refine ⟨hnested.calm rfl (fun _ => ⟨rfl, rfl⟩) (by simp) (by rw [hown]) rfl,
        queued, linked, htidy.quiet hlive _ ⟨by simp, by simp⟩ hquiet⟩
  | call hown =>
      have hzero : (k.sched.task k.sched.current).preemptCount = 0 := by
        rw [hcounted, show k.control k.sched.current = _ from hown]
        rfl
      refine ⟨hnested.go rfl (fun t ht => ?_) (by simp) ?_ le_rfl fun _ => .inl, queued,
        linked, htidy.quiet hlive _ ⟨by simp, by simp⟩ (.preemptDisable _)⟩
      · rw [(Quiet.preemptDisable k.sched).task t ht]
        exact ⟨rfl, rfl⟩
      · simp only [preemptDisable, modify_task_self, hzero]
        rfl
  | beginFork args hown =>
      refine ⟨hnested.calm rfl (fun _ => ⟨rfl, rfl⟩) (by simp) (by rw [hown]) rfl,
        queued, linked, htidy.quiet hlive _ ⟨by simp, ?_⟩ (.refl _)⟩
      intro args' point heq
      exact .inr (Activity.forking.inj heq).2.symm
  | @fork args point point' s hown hfork =>
      have hpoint : k.forkPoint k.sched.current = some point := by
        rw [forkPoint, show k.control k.sched.current = _ from hown]
      refine ⟨hnested.fork htidy hown hfork, htidy.forkStep hlive hpoint ?_ hfork⟩
      rintro i rfl
      exact hguarded.2 args i hown
  | block state hown hinit =>
      refine ⟨hnested.calm rfl (fun t => ⟨?_, ?_⟩) ⟨hlive, hnested.notFresh⟩ rfl rfl, queued,
        linked, htidy.block hlive hinit state⟩
      · exact modify_field TaskStruct.preemptCount k.sched rfl t
      · exact modify_field TaskStruct.cpuContext k.sched rfl t
  | @wake p hown hp hinit =>
      refine ⟨hnested.calm rfl (fun t => ⟨?_, ?_⟩) ⟨hlive, hnested.notFresh⟩ rfl rfl, _,
        linked, htidy.wake hlive hp hinit⟩
      · rw [wakeUpProcess_task]
        exact modify_field TaskStruct.preemptCount k.sched rfl t
      · rw [wakeUpProcess_task]
        exact modify_field TaskStruct.cpuContext k.sched rfl t

end Steps

theorem start_live {s : Sched} : (start s).Live t ↔ t = .initTask := by
  unfold Live start
  by_cases ht : t = .initTask
  · simp [ht]
  · simp [ht]

theorem start_forkPoint (s : Sched) (t : TaskPtr) : (start s).forkPoint t = none := by
  unfold forkPoint start
  by_cases ht : t = .initTask
  · simp [ht]
  · simp [ht]

theorem start_orderly {s : Sched} (h : s.Boot) (hconsole : s.console = []) :
    (start s).Orderly := by
  have hcurrent : (start s).sched.current = .initTask := h.current
  have htask : (start s).sched.task .initTask = initTaskStruct := h.initTask
  have hcontrol : (start s).control .initTask = ⟨.idle, []⟩ := by
    simp [start]
  have hlinks : (start s).sched.links .initTask = ⟨.initTask, .initTask⟩ := h.links
  refine ⟨⟨?_, ?_, fun t ht => ?_, fun t ht => ?_, fun t ht hother => ?_, ?_⟩,
    fun _ => False, fun t => t = .initTask, ?_⟩
  · exact start_live.mpr hcurrent
  · rw [own, hcurrent, hcontrol]
    simp
  · obtain rfl := start_live.mp ht
    rw [htask, hcontrol]
    rfl
  · obtain rfl := start_live.mp ht
    rw [hcontrol]
    exact Nat.zero_le 1
  · exact absurd ((start_live.mp ht).trans hcurrent.symm) hother
  · rw [show (start s).sched.console = s.console from rfl, hconsole]
    simp
  · refine ⟨rfl, fun t ht => ht.elim, fun t ht => start_live.mpr ht,
      fun t ht => .inl (start_live.mp ht), fun t ht => ?_, ?_, .inl hcurrent, ?_,
      fun t ht => ht.elim, ?_, fun t ht => ?_, fun t point hpoint => ?_,
      fun t t' point point' page hpoint => ?_⟩
    · obtain rfl := start_live.mp ht
      rw [htask]
      exact ⟨by decide, by decide, by decide⟩
    · rw [htask]
      rfl
    · simp [start, schedInit, initListHead, Heap.setNext_next, QueueNode]
    · rw [hlinks]
    · rw [ht, hlinks]
    · simp [start_forkPoint] at hpoint
    · simp [start_forkPoint] at hpoint

end Kernel

theorem KernelRun.orderly {k : Kernel} (h : KernelRun Kernel.Guarded k) : k.Orderly := by
  induction h with
  | start hboot hconsole => exact Kernel.start_orderly hboot hconsole
  | step _ hguarded hstep ih => exact ih.step hguarded hstep

/-- In every run that never picks from an empty queue and never takes a page that another
fork has taken since the test, `preempt_count` tells in every task whether it is in
`__schedule`. -/
theorem kernelRun_nestedOnce {k : Kernel} (h : KernelRun Kernel.Guarded k) : k.NestedOnce :=
  h.orderly.1.nestedOnce

theorem kernelRun_nestedOnce_handover :
    ∃ k, KernelRun Kernel.Guarded k ∧ k.own = ⟨.idle, []⟩ ∧ k.sched.current = firstTask ∧
      k.sched.nrSwitches = 1 ∧ k.NestedOnce := by
  have hmoves : ((Kernel.start bootKernel).moves Kernel.Guarded Move.handover).map
      (fun k => (k.own, k.sched.current, k.sched.nrSwitches)) =
        some (⟨.idle, []⟩, firstTask, 1) := by decide +kernel
  simp only [Option.map_eq_some_iff, Prod.mk.injEq] at hmoves
  obtain ⟨k, hmoves, hown, hcurrent, hswitches⟩ := hmoves
  have hrun := (KernelRun.start bootKernel_boot rfl).moves Move.handover hmoves
  exact ⟨k, hrun, hown, hcurrent, hswitches, kernelRun_nestedOnce hrun⟩

/-- Memory above `LOW_MEMORY` holds a task of an earlier boot, which was in its first call
of `schedule`. -/
def staleTask : TaskStruct where
  state := .running
  flags := pfKthread.setWidth 32
  count := defCounter
  priority := 2
  pid := 1
  cpuContext := { CpuContext.zero with pc := .retFromFork }
  needResched := 0
  preemptCount := 1

def staleKernel : Sched :=
  { bootKernel with task := fun t => if t = .initTask then initTaskStruct else staleTask }

theorem staleKernel_boot : staleKernel.Boot := ⟨rfl, rfl, rfl, rfl⟩

/-- Nothing has been forked; the variable that is not assigned points there. -/
theorem kernelRun_not_nestedOnce :
    ¬ ∀ k, KernelRun (fun _ => True) k → k.NestedOnce := by
  intro hall
  have hswitch : ((Kernel.start staleKernel).moves (fun _ => True)
      [.call, .inner, .inner, .pick 2 firstTask]).map
        (fun k => (k.sched.preemptCount, k.own)) = some (1, ⟨.starting, []⟩) := by
    decide +kernel
  simp only [Option.map_eq_some_iff, Prod.mk.injEq] at hswitch
  obtain ⟨k, hmoves, hcount, hown⟩ := hswitch
  have hnested := hall k ((KernelRun.start staleKernel_boot rfl).moves _ hmoves)
  have houtside := hnested.outside k.sched.current hnested.running.1
  rw [show k.control k.sched.current = _ from hown] at houtside
  have hzero : k.sched.preemptCount = 0 := houtside (by simp)
  rw [hcount] at hzero
  exact absurd hzero (by decide)

end YiOS
