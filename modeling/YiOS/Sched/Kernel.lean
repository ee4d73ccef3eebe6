import YiOS.Sched.ForkSteps

namespace YiOS

open YiOS.Library

/-! The kernel between any two of its steps: what every task is in the middle of, and the
interrupts that can be taken there. -/

/-- Where an activation of `schedule` or `preempt_schedule_irq` is, from behind its
`preempt_disable` on. -/
inductive SchedPoint where
  | unmask
  | debug
  | mask
  | pick
  | away
  | account
  | tail
  | remask
  | enable
  deriving DecidableEq, Repr

/-- Where an activation of `el1_irq` is. -/
inductive IrqPoint where
  | doIrq
  | check
  | exit
  deriving DecidableEq, Repr

inductive Activation where
  | sched (caller : Caller) (point : SchedPoint)
  | irq (point : IrqPoint)
  deriving DecidableEq, Repr

def Activation.isSched : Activation → Bool
  | .sched _ _ => true
  | .irq _ => false

/-- What a task does below all activations: no task at all, forked and never run, in
`ret_from_fork`, code of its own, or `do_fork`. -/
inductive Activity where
  | absent
  | fresh
  | starting
  | idle
  | forking (args : ForkArgs) (point : ForkPoint)
  deriving DecidableEq, Repr

/-- The stack of a task, innermost activation first. -/
structure Control where
  activity : Activity
  stack : List Activation
  deriving DecidableEq, Repr

structure Kernel where
  sched : Sched
  control : TaskPtr → Control

namespace Sched

/-- The part of `__schedule` between masking interrupts and picking. -/
def retire (s : Sched) : Sched :=
  if (s.task s.current).state ≠ .running then s.dequeueTaskSimple s.current else s

/-- What is left of `settle`. -/
theorem settle_eq (s : Sched) :
    s.settle = (s.scheduleDebug s.current).rawLocalIrqDisable.retire := by
  have hcurrent : (s.scheduleDebug s.current).current = s.current := by
    unfold scheduleDebug
    split <;> rfl
  unfold settle retire
  simp only [rawLocalIrqDisable, hcurrent]

/-- The first lines of `preempt_schedule_irq`. -/
def enterPreempt (s : Sched) : Sched :=
  (if s.preemptCount ≠ 0 then s.printk (.incorrectPreemptCount s.preemptCount)
    else s).preemptDisable

end Sched

/-- Behind `schedule_tail`, or behind the choice of the same task. -/
def Caller.leaving : Caller → SchedPoint
  | .schedule => .enable
  | .preemptScheduleIrq => .remask

/-- One step of the innermost activation that stays in the task. -/
def Activation.step (s : Sched) : Activation → Option (List Activation × Sched)
  | .sched caller .unmask => some ([.sched caller .debug], s.rawLocalIrqEnable)
  | .sched caller .debug => some ([.sched caller .mask], s.scheduleDebug s.current)
  | .sched caller .mask => some ([.sched caller .pick], s.rawLocalIrqDisable)
  | .sched caller .account =>
      some ([.sched caller .tail],
        { s with nrSwitches := s.nrSwitches + 1, curr := some s.current })
  | .sched caller .tail => some ([.sched caller caller.leaving], s.scheduleTail)
  | .sched caller .remask => some ([.sched caller .enable], s.rawLocalIrqDisable)
  | .sched _ .enable => some ([], s.preemptEnable)
  | .sched _ .pick => none
  | .sched _ .away => none
  | .irq .doIrq => some ([.irq .check], s)
  | .irq .check =>
      if s.preemptCount ≠ 0 ∨ (s.task s.current).needResched = 0 then
        some ([.irq .exit], s)
      else
        some ([.sched .preemptScheduleIrq .unmask, .irq .exit], s.enterPreempt)
  | .irq .exit => some ([], { s with irqMasked := false })

namespace Kernel

def own (k : Kernel) : Control := k.control k.sched.current

def Live (k : Kernel) (t : TaskPtr) : Prop := (k.control t).activity ≠ .absent

/-- The current task goes on with another stack in another state. -/
def go (k : Kernel) (s : Sched) (control : Control) : Kernel where
  sched := s
  control := Function.update k.control k.sched.current control

/-- A fork that has written all of its child lets it count as a task. -/
def birth (k : Kernel) : ForkPoint → Kernel
  | .store page _ .clear =>
      { k with control := Function.update k.control (.ofPage page) ⟨.fresh, []⟩ }
  | _ => k

/-- `do_fork` has returned, or goes on. -/
def forkActivity (args : ForkArgs) : ForkPoint → Activity
  | .done _ _ => .idle
  | point => .forking args point

/-- `pick_next_task` and `clear_task_resched`. -/
def picked (k : Kernel) (fuel : Nat) (stale : TaskPtr) : Option (TaskPtr × Sched) :=
  (Sched.pickNextTaskSimple fuel none k.sched.retire).map fun (next, s) =>
    (next.getD stale, s.clearTaskResched k.sched.current)

def switchTo (s : Sched) (caller : Caller) (next : TaskPtr) : Sched :=
  { s with caller := Function.update s.caller s.current caller }.cpuSwitchTo s.current next

/-- `switch_to` has come to another task, which goes on with the stack it has. -/
def switched (k : Kernel) (s : Sched) (caller : Caller) (rest : List Activation)
    (next : TaskPtr) (control : Control) : Kernel where
  sched := switchTo s caller next
  control := Function.update (Function.update k.control k.sched.current
    ⟨k.own.activity, .sched caller .away :: rest⟩) next control

end Kernel

/-- The steps of the kernel.  An interrupt can be taken wherever interrupts are unmasked;
everything else is done by the current task.  The handler of the timer interrupt does not
call `tick_handle_periodic`, nor does anything else: without the step `tick` no task is
preempted. -/
inductive KernelStep (k : Kernel) : Kernel → Prop
  | irq : k.sched.irqMasked = false →
      KernelStep k (k.go { k.sched with irqMasked := true }
        ⟨k.own.activity, .irq .doIrq :: k.own.stack⟩)
  | tick : k.own.stack = .irq .doIrq :: rest →
      KernelStep k (k.go k.sched.tickHandlePeriodic k.own)
  | inner : k.own.stack = top :: rest → top.step k.sched = some (top', s) →
      KernelStep k (k.go s ⟨k.own.activity, top' ++ rest⟩)
  | same : k.own.stack = .sched caller .pick :: rest →
      k.picked fuel stale = some (next, s) → next = k.sched.current →
      KernelStep k (k.go s ⟨k.own.activity, .sched caller caller.leaving :: rest⟩)
  | first : k.own.stack = .sched caller .pick :: rest →
      k.picked fuel stale = some (next, s) → next ≠ k.sched.current →
      (Kernel.switchTo s caller next).regs.pc = .retFromFork →
      KernelStep k (k.switched s caller rest next ⟨.starting, []⟩)
  | resumed : k.own.stack = .sched caller .pick :: rest →
      k.picked fuel stale = some (next, s) → next ≠ k.sched.current →
      (Kernel.switchTo s caller next).regs.pc = .afterSwitch →
      k.control next = ⟨activity, .sched caller' .away :: rest'⟩ →
      KernelStep k
        (k.switched s caller rest next ⟨activity, .sched caller' .account :: rest'⟩)
  | start : k.own = ⟨.starting, []⟩ →
      KernelStep k (k.go k.sched.scheduleTail ⟨.idle, []⟩)
  | call : k.own = ⟨.idle, []⟩ →
      KernelStep k (k.go k.sched.preemptDisable ⟨.idle, [.sched .schedule .debug]⟩)
  | beginFork (args : ForkArgs) : k.own = ⟨.idle, []⟩ →
      KernelStep k (k.go k.sched ⟨.forking args (.scan 0), []⟩)
  | fork : k.own = ⟨.forking args point, []⟩ →
      k.sched.forkStep args point = (point', s) →
      KernelStep k ((k.birth point).go s ⟨Kernel.forkActivity args point', []⟩)
  | block (state : TaskState) : k.own = ⟨.idle, []⟩ → k.sched.current ≠ .initTask →
      KernelStep k
        (k.go (k.sched.modify k.sched.current fun t => { t with state := state }) k.own)
  | wake : k.own = ⟨.idle, []⟩ → k.Live p → p ≠ .initTask →
      KernelStep k (k.go (k.sched.wakeUpProcess p) k.own)

namespace Kernel

/-- The kernel behind `sched_init`: one task, which runs. -/
def start (s : Sched) : Kernel where
  sched := s.schedInit
  control := fun t => if t = .initTask then ⟨.idle, []⟩ else ⟨.absent, []⟩

/-- The next step of the current task does not come upon a defect: it does not pick from an
empty run queue, and it does not take a page that another fork has taken since the test. -/
def Guarded (k : Kernel) : Prop :=
  (∀ caller rest, k.own.stack = .sched caller .pick :: rest →
    (k.sched.retire.list .rqHead).next ≠ .rqHead) ∧
  ∀ args i, k.own = ⟨.forking args (.claim i), []⟩ → k.sched.memMap i = 0

end Kernel

/-- Runs from `sched_init` whose steps are all made in a kernel that meets `ok`. -/
inductive KernelRun (ok : Kernel → Prop) : Kernel → Prop
  | start {s : Sched} : s.Boot → s.console = [] → KernelRun ok (.start s)
  | step : KernelRun ok k → ok k → KernelStep k k' → KernelRun ok k'

namespace Kernel

/-- The number of activations of `__schedule` that a task is in. -/
def depth (stack : List Activation) : Nat := stack.countP Activation.isSched

/-- The messages that the scheduler prints when nothing is wrong. -/
def Harmless : Message → Prop
  | .needResched _ => True
  | _ => False

/-- `preempt_count` is 1 in a task that is in `__schedule` and 0 in every other task; no
task is in it twice; a task that does not run has never run or is suspended in it; and
nobody has complained. -/
structure NestedOnce (k : Kernel) : Prop where
  inside : ∀ t, k.Live t → (∃ caller point, .sched caller point ∈ (k.control t).stack) →
    (k.sched.task t).preemptCount = 1
  outside : ∀ t, k.Live t → (¬ ∃ caller point, .sched caller point ∈ (k.control t).stack) →
    (k.sched.task t).preemptCount = 0
  once : ∀ t, k.Live t → depth (k.control t).stack ≤ 1
  suspended : ∀ t, k.Live t → t ≠ k.sched.current →
    k.control t = ⟨.fresh, []⟩ ∨
      ∃ caller rest, (k.control t).stack = .sched caller .away :: rest
  running : k.Live k.sched.current ∧ k.own.activity ≠ .fresh
  quiet : ∀ message ∈ k.sched.console, Harmless message

end Kernel

end YiOS
