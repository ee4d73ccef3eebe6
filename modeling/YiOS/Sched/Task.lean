import YiOS.Library.Cycle
import YiOS.PageAlloc

namespace YiOS

open YiOS.Library

/-! `sched.h`, `list.h` and `processor.h`: tasks, the run queue and their links. -/

/-- A `struct task_struct *`: the static one, or the page `do_fork` took. -/
inductive TaskPtr where
  | initTask
  | ofPage (page : U64)
  deriving DecidableEq, Repr

/-- A `struct list_head *`: the head of the run queue, the `run_list` of a task,
or any other address. -/
inductive ListPtr where
  | rqHead
  | runList (task : TaskPtr)
  | raw (address : U64)
  deriving DecidableEq, Repr

inductive TaskState where
  | running
  | interruptible
  | uninterruptible
  | zombie
  | stopped
  deriving DecidableEq, Repr

/-- Where `cpu_switch_to` returns to: the two places the kernel stores in a
`cpu_context`, or any other address. -/
inductive CodePtr where
  | retFromFork
  | afterSwitch
  | raw (address : U64)
  deriving DecidableEq, Repr

structure CpuContext where
  x19 : U64
  x20 : U64
  x21 : U64
  x22 : U64
  x23 : U64
  x24 : U64
  x25 : U64
  x26 : U64
  x27 : U64
  x28 : U64
  fp : U64
  sp : U64
  pc : CodePtr
  deriving DecidableEq, Repr

structure PtRegs where
  regs : Fin 31 → U64
  sp : U64
  pc : U64
  pstate : U64

/-- `struct task_struct` without its links, which `Sched` keeps as heaps. -/
structure TaskStruct where
  state : TaskState
  flags : BitVec 32
  count : Int
  priority : Int
  pid : Int
  cpuContext : CpuContext
  needResched : Int
  preemptCount : Int

/-- The lines the scheduler prints. -/
inductive Message where
  | needResched (pid : Int)
  | schedulingWhileAtomic (pid preemptCount : Int)
  | incorrectPreemptCount (preemptCount : Int)
  deriving DecidableEq, Repr

/-- The two callers of `__schedule`. -/
inductive Caller where
  | schedule
  | preemptScheduleIrq
  deriving DecidableEq, Repr

def nrTask : Nat := 64

/-- `HZ / 10`. -/
def defCounter : Int := 250 / 10

def listPoison1 : ListPtr := .raw (0x00100100 + 0xdead000000000000)

def listPoison2 : ListPtr := .raw (0x00200200 + 0xdead000000000000)

/-- The kernel as the scheduler sees it.  `list` holds the `list_head`s and
`links` the `next_task` and `prev_task` of every task; `caller` is the part of a
suspended task's stack that says which activation it is in. -/
structure Sched where
  task : TaskPtr → TaskStruct
  ptRegs : TaskPtr → PtRegs
  list : Heap ListPtr
  links : Heap TaskPtr
  nrRunning : BitVec 32
  nrSwitches : U64
  curr : Option TaskPtr
  gTask : Fin nrTask → Option TaskPtr
  memMap : MemMap
  current : TaskPtr
  regs : CpuContext
  irqMasked : Bool
  caller : TaskPtr → Caller
  console : List Message

/-! The stores of `list.h`, in the order of the source. -/

def initListHead (heap : Heap ListPtr) (list : ListPtr) : Heap ListPtr :=
  (heap.setNext list list).setPrev list list

def __listAdd (heap : Heap ListPtr) (new prev next : ListPtr) : Heap ListPtr :=
  (((heap.setPrev next new).setNext new next).setPrev new prev).setNext prev new

def listAdd (heap : Heap ListPtr) (new head : ListPtr) : Heap ListPtr :=
  __listAdd heap new head (heap head).next

def __listDel (heap : Heap ListPtr) (prev next : ListPtr) : Heap ListPtr :=
  (heap.setPrev next prev).setNext prev next

def listDel (heap : Heap ListPtr) (entry : ListPtr) : Heap ListPtr :=
  ((__listDel heap (heap entry).prev (heap entry).next).setNext entry
    listPoison1).setPrev entry listPoison2

/-- `list_entry` for `run_list`; there is no task around any other node. -/
def listEntry : ListPtr → Option TaskPtr
  | .runList t => some t
  | _ => none

theorem initListHead_cycle (heap : Heap ListPtr) (list : ListPtr) :
    Cycle (initListHead heap list) list [] where
  segment := by
    constructor <;> simp [initListHead, Heap.setNext_next, Heap.setPrev_prev]
  nodup := List.nodup_singleton list

theorem listAdd_inserted (heap : Heap ListPtr) {new head : ListPtr}
    (hhead : new ≠ head) (hnext : new ≠ (heap head).next) :
    Inserted heap (listAdd heap new head) new head (heap head).next where
  before := by
    constructor <;> simp [listAdd, __listAdd, Heap.setNext_next, Heap.setPrev_prev]
  after := by
    constructor
    · simp [listAdd, __listAdd, Heap.setNext_next, hhead]
    · simp [listAdd, __listAdd, Heap.setPrev_prev, hnext.symm]
  next := by
    intro c hc hnew
    simp [listAdd, __listAdd, Heap.setNext_next, hc, hnew]
  prev := by
    intro d hd hnew
    simp [listAdd, __listAdd, Heap.setPrev_prev, hd, hnew]

theorem listDel_removed (heap : Heap ListPtr) {entry : ListPtr}
    (hprev : (heap entry).prev ≠ entry) (hnext : (heap entry).next ≠ entry) :
    Removed heap (listDel heap entry) entry (heap entry).prev (heap entry).next where
  joined := by
    constructor
    · simp [listDel, __listDel, Heap.setNext_next, hprev]
    · simp [listDel, __listDel, Heap.setPrev_prev, hnext]
  next := by
    intro c hc hentry
    simp [listDel, __listDel, Heap.setNext_next, hc, hentry]
  prev := by
    intro d hd hentry
    simp [listDel, __listDel, Heap.setPrev_prev, hd, hentry]

@[simp] theorem listDel_next (heap : Heap ListPtr) (entry : ListPtr) :
    (listDel heap entry entry).next = listPoison1 := by
  simp [listDel, Heap.setNext_next]

/-- `SET_LINKS`: in front of `init_task`. -/
def setLinks (p : TaskPtr) (links : Heap TaskPtr) : Heap TaskPtr :=
  let links := links.setNext p .initTask
  let links := links.setPrev p (links .initTask).prev
  let links := links.setNext (links .initTask).prev p
  links.setPrev .initTask p

theorem setLinks_inserted (links : Heap TaskPtr) {p : TaskPtr}
    (hinit : p ≠ .initTask) (hlast : p ≠ (links .initTask).prev) :
    Inserted links (setLinks p links) p (links .initTask).prev .initTask where
  before := by
    constructor <;>
      simp [setLinks, Heap.setNext_next, Heap.setPrev_prev, hinit, hinit.symm]
  after := by
    constructor
    · simp [setLinks, Heap.setNext_next, Heap.setPrev_prev, hinit.symm, hlast]
    · simp [setLinks, Heap.setPrev_prev]
  next := by
    intro c hc hp
    simp [setLinks, Heap.setNext_next, Heap.setPrev_prev, hinit.symm, hc, hp]
  prev := by
    intro d hd hp
    simp [setLinks, Heap.setPrev_prev, hd, hp]

namespace Sched

/-- A store to some fields of one task. -/
def modify (s : Sched) (t : TaskPtr) (f : TaskStruct → TaskStruct) : Sched :=
  { s with task := Function.update s.task t (f (s.task t)) }

@[simp] theorem modify_task_self (s : Sched) (t : TaskPtr) (f : TaskStruct → TaskStruct) :
    (s.modify t f).task t = f (s.task t) := Function.update_self ..

theorem modify_task_of_ne (s : Sched) (f : TaskStruct → TaskStruct) (h : u ≠ t) :
    (s.modify t f).task u = s.task u := Function.update_of_ne h ..

/-- A store leaves the fields it does not write. -/
theorem modify_field {α : Type} (field : TaskStruct → α) (s : Sched)
    {f : TaskStruct → TaskStruct} (h : field (f (s.task t)) = field (s.task t))
    (u : TaskPtr) : field ((s.modify t f).task u) = field (s.task u) := by
  by_cases hu : u = t
  · rw [hu, modify_task_self, h]
  · rw [modify_task_of_ne s f hu]

def preemptCount (s : Sched) : Int := (s.task s.current).preemptCount

def preemptDisable (s : Sched) : Sched :=
  s.modify s.current fun t => { t with preemptCount := t.preemptCount + 1 }

def preemptEnable (s : Sched) : Sched :=
  s.modify s.current fun t => { t with preemptCount := t.preemptCount - 1 }

def clearTaskResched (s : Sched) (p : TaskPtr) : Sched :=
  s.modify p fun t => { t with needResched := 0 }

def rawLocalIrqEnable (s : Sched) : Sched := { s with irqMasked := false }

def rawLocalIrqDisable (s : Sched) : Sched := { s with irqMasked := true }

def printk (s : Sched) (message : Message) : Sched :=
  { s with console := message :: s.console }

end Sched

end YiOS
