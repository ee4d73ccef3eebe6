import YiOS.Sched.Simple

namespace YiOS

open YiOS.Library

/-! `sched.c` and the context switch of `entry.S`. -/

namespace Sched

def scheduleTail (s : Sched) : Sched := s.rawLocalIrqEnable

def tickHandlePeriodic (s : Sched) : Sched := s.taskTickSimple s.current

def scheduleDebug (s : Sched) (p : TaskPtr) : Sched :=
  if s.preemptCount ≠ 1 then
    s.printk (.schedulingWhileAtomic (s.task p).pid s.preemptCount)
  else
    s

/-- The registers of `prev` are saved with the return address into `__schedule`,
those of `next` are loaded, and `sp_el0` becomes `next`. -/
def cpuSwitchTo (s : Sched) (prev next : TaskPtr) : Sched :=
  let s := s.modify prev fun t => { t with cpuContext := { s.regs with pc := .afterSwitch } }
  { s with regs := (s.task next).cpuContext, current := next }

/-- What a caller of `__schedule` does when it returns. -/
def leave (s : Sched) : Caller → Sched
  | .schedule => s.preemptEnable
  | .preemptScheduleIrq => s.rawLocalIrqDisable.preemptEnable

/-- Where the task that was switched to goes on: `ret_from_fork`, or behind its own
`cpu_switch_to` and up through its own caller.  The value `cpu_switch_to` returns
there is the task that was left, which is not null. -/
def resume (s : Sched) : Option Sched :=
  match s.regs.pc with
  | .retFromFork => some s.scheduleTail
  | .afterSwitch =>
      let s := { s with nrSwitches := s.nrSwitches + 1, curr := some s.current }
      some (s.scheduleTail.leave (s.caller s.current))
  | .raw _ => none

/-- `__schedule` before it chooses. -/
def settle (s : Sched) : Sched :=
  let prev := s.current
  let s := s.scheduleDebug prev
  let s := s.rawLocalIrqDisable
  if (s.task prev).state ≠ .running then s.dequeueTaskSimple prev else s

/-- `next = pick_next_task(rq, prev)`. -/
def choose (fuel : Nat) (s : Sched) : Option (Option TaskPtr × Sched) :=
  pickNextTaskSimple fuel none s.settle

/-- `__schedule` and the rest of its caller.  `stale` is what the variable `next` of
`pick_next_task_simple` holds when it has not been assigned. -/
def __schedule (caller : Caller) (fuel : Nat) (stale : TaskPtr) (s : Sched) :
    Option Sched :=
  let prev := s.current
  (s.choose fuel).bind fun (next, s) =>
    let next := next.getD stale
    let s := s.clearTaskResched prev
    if next ≠ prev then
      let s := { s with caller := Function.update s.caller prev caller }
      (s.cpuSwitchTo prev next).resume
    else
      some (s.leave caller)

/-- What a caller of `__schedule` does first. -/
def enter (s : Sched) : Caller → Sched
  | .schedule => s.preemptDisable
  | .preemptScheduleIrq =>
      let s := if s.preemptCount ≠ 0 then
          s.printk (.incorrectPreemptCount s.preemptCount)
        else
          s
      s.preemptDisable.rawLocalIrqEnable

def call (caller : Caller) (fuel : Nat) (stale : TaskPtr) (s : Sched) : Option Sched :=
  (s.enter caller).__schedule caller fuel stale

def schedule (fuel : Nat) (stale : TaskPtr) (s : Sched) : Option Sched :=
  s.call .schedule fuel stale

def preemptScheduleIrq (fuel : Nat) (stale : TaskPtr) (s : Sched) : Option Sched :=
  s.call .preemptScheduleIrq fuel stale

def wakeUpProcess (s : Sched) (p : TaskPtr) : Sched :=
  let s := s.modify p fun t => { t with state := .running }
  s.enqueueTaskSimple p

def schedInit (s : Sched) : Sched :=
  { s with
    list := initListHead s.list .rqHead
    nrRunning := 0
    nrSwitches := 0
    curr := none }

end Sched

end YiOS
