import YiOS.Sched.Task

namespace YiOS

open YiOS.Library

/-! `sched_simple.c`: the only scheduling class. -/

namespace Sched

def dequeueTaskSimple (s : Sched) (p : TaskPtr) : Sched :=
  { s with
    nrRunning := s.nrRunning - 1
    list := listDel s.list (.runList p) }

def enqueueTaskSimple (s : Sched) (p : TaskPtr) : Sched :=
  { s with
    list := listAdd s.list (.runList p) .rqHead
    nrRunning := s.nrRunning + 1 }

/-- The `long` count narrowed to an `int`. -/
def goodness (s : Sched) (p : TaskPtr) : Int :=
  Int.bmod (s.task p).count (2 ^ 32)

/-- The sum is an `int`. -/
def resetOne (p : TaskPtr) (s : Sched) : Sched :=
  s.modify p fun t => { t with count := Int.bmod (defCounter + t.priority) (2 ^ 32) }

/-- `for_each_task` starts behind `init_task`. -/
def resetScore (fuel : Nat) (s : Sched) : Option Sched :=
  forEach (fun s p => (s.links p).next) (fun p s => some (resetOne p s)) .initTask fuel
    (s.links .initTask).next s

/-- The locals of `pick_next_task_simple` that outlive a round of its loop.
`next` is `none` as long as it has not been assigned. -/
structure Pick where
  c : Int
  next : Option TaskPtr
  deriving DecidableEq, Repr

def Pick.consider (s : Sched) (p : TaskPtr) (pick : Pick) : Pick :=
  if s.goodness p > pick.c then ⟨s.goodness p, some p⟩ else pick

def scanQueue (s : Sched) (fuel : Nat) (pick : Pick) : Option Pick :=
  forEach (fun _ tmp => (s.list tmp).next)
    (fun tmp pick => (listEntry tmp).map fun p => pick.consider s p) .rqHead fuel
    (s.list .rqHead).next pick

/-- `fuel` bounds the rounds of every loop and the jumps to `repeat`. -/
def pickNextTaskSimple : Nat → Option TaskPtr → Sched → Option (Option TaskPtr × Sched)
  | 0, _, _ => none
  | fuel + 1, next, s =>
      (s.scanQueue fuel ⟨-1000, next⟩).bind fun pick =>
        if pick.c = 0 then
          (s.resetScore fuel).bind fun s => pickNextTaskSimple fuel pick.next s
        else
          some (pick.next, s)

def taskTickSimple (s : Sched) (p : TaskPtr) : Sched :=
  let s := s.modify p fun t => { t with count := t.count - 1 }
  if (s.task p).count ≤ 0 then
    let s := s.modify p fun t => { t with count := 0 }
    let s := s.modify p fun t => { t with needResched := 1 }
    s.printk (.needResched (s.task p).pid)
  else
    s

end Sched

end YiOS
