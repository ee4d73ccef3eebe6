import YiOS.Library.Cpu
import YiOS.Page

namespace YiOS

open YiOS.Library

/-! The code of `entry.S` that moves registers, and the offsets of `asm-offsets.c`. -/

/-- `sizeof(struct pt_regs)`. -/
def stackFrameSize : U64 := 272

/-- `offsetof(struct pt_regs, regs[30])`. -/
def sLr : U64 := 8 * 30

/-- `offsetof(struct pt_regs, pc)`. -/
def sPc : U64 := 8 * 32

/-- `offsetof(struct task_struct, cpu_context)`. -/
def threadCpuContext : U64 := 24

/-- `sizeof(struct task_struct)`. -/
def taskStructSize : Nat := 168

def trapEntry : List Instr :=
  [.sub .sp .sp stackFrameSize,
    .stp (.x 0) (.x 1) .sp (16 * 0),
    .stp (.x 2) (.x 3) .sp (16 * 1),
    .stp (.x 4) (.x 5) .sp (16 * 2),
    .stp (.x 6) (.x 7) .sp (16 * 3),
    .stp (.x 8) (.x 9) .sp (16 * 4),
    .stp (.x 10) (.x 11) .sp (16 * 5),
    .stp (.x 12) (.x 13) .sp (16 * 6),
    .stp (.x 14) (.x 15) .sp (16 * 7),
    .stp (.x 16) (.x 17) .sp (16 * 8),
    .stp (.x 18) (.x 19) .sp (16 * 9),
    .stp (.x 20) (.x 21) .sp (16 * 10),
    .stp (.x 22) (.x 23) .sp (16 * 11),
    .stp (.x 24) (.x 25) .sp (16 * 12),
    .stp (.x 26) (.x 27) .sp (16 * 13),
    .stp (.x 28) (.x 29) .sp (16 * 14),
    .add (.x 21) .sp stackFrameSize,
    .mrs (.x 22) .elrEl1,
    .mrs (.x 23) .spsrEl1,
    .stp (.x 30) (.x 21) .sp sLr,
    .stp (.x 22) (.x 23) .sp sPc]

def trapExit : List Instr :=
  [.ldp (.x 21) (.x 22) .sp sPc,
    .msr .elrEl1 (.x 21),
    .msr .spsrEl1 (.x 22),
    .ldp (.x 0) (.x 1) .sp (16 * 0),
    .ldp (.x 2) (.x 3) .sp (16 * 1),
    .ldp (.x 4) (.x 5) .sp (16 * 2),
    .ldp (.x 6) (.x 7) .sp (16 * 3),
    .ldp (.x 8) (.x 9) .sp (16 * 4),
    .ldp (.x 10) (.x 11) .sp (16 * 5),
    .ldp (.x 12) (.x 13) .sp (16 * 6),
    .ldp (.x 14) (.x 15) .sp (16 * 7),
    .ldp (.x 16) (.x 17) .sp (16 * 8),
    .ldp (.x 18) (.x 19) .sp (16 * 9),
    .ldp (.x 20) (.x 21) .sp (16 * 10),
    .ldp (.x 22) (.x 23) .sp (16 * 11),
    .ldp (.x 24) (.x 25) .sp (16 * 12),
    .ldp (.x 26) (.x 27) .sp (16 * 13),
    .ldp (.x 28) (.x 29) .sp (16 * 14),
    .ldr (.x 30) .sp sLr,
    .add .sp .sp stackFrameSize]

/-- `cpu_switch_to` up to the load of the new context. -/
def saveContext : List Instr :=
  [.add (.x 8) (.x 0) threadCpuContext,
    .mov (.x 9) .sp,
    .stpPost (.x 19) (.x 20) (.x 8) 16,
    .stpPost (.x 21) (.x 22) (.x 8) 16,
    .stpPost (.x 23) (.x 24) (.x 8) 16,
    .stpPost (.x 25) (.x 26) (.x 8) 16,
    .stpPost (.x 27) (.x 28) (.x 8) 16,
    .stpPost (.x 29) (.x 9) (.x 8) 16,
    .str (.x 30) (.x 8) 0]

def loadContext : List Instr :=
  [.add (.x 8) (.x 1) threadCpuContext,
    .ldpPost (.x 19) (.x 20) (.x 8) 16,
    .ldpPost (.x 21) (.x 22) (.x 8) 16,
    .ldpPost (.x 23) (.x 24) (.x 8) 16,
    .ldpPost (.x 25) (.x 26) (.x 8) 16,
    .ldpPost (.x 27) (.x 28) (.x 8) 16,
    .ldpPost (.x 29) (.x 9) (.x 8) 16,
    .ldr (.x 30) (.x 8) 0,
    .mov .sp (.x 9),
    .msr .spEl0 (.x 1)]

/-- Prev is in `x0` and next in `x1`. -/
def cpuSwitchTo (c : Cpu) : Cpu := (c.run (saveContext ++ loadContext)).ret

/-- `scheduleTail` is the call, from its first instruction to its return. -/
def retFromFork (scheduleTail : Cpu → Cpu) (scheduleTailAddr retToUser : U64)
    (c : Cpu) : Cpu :=
  let c := scheduleTail (c.bl scheduleTailAddr)
  if c.x 19 = 0 then
    c.b retToUser
  else
    (c.exec (.mov (.x 0) (.x 20))).blr 19

/-- The interrupt is taken, to the handler at `vector`. -/
def takeIrq (vector pstate : U64) (c : Cpu) : Cpu :=
  { c with elrEl1 := c.pc, spsrEl1 := c.pstate, pc := vector, pstate := pstate }

section TakeIrq

variable (vector pstate : U64) (c : Cpu)

@[simp] theorem takeIrq_x : (takeIrq vector pstate c).x = c.x := rfl

@[simp] theorem takeIrq_sp : (takeIrq vector pstate c).sp = c.sp := rfl

@[simp] theorem takeIrq_mem : (takeIrq vector pstate c).mem = c.mem := rfl

@[simp] theorem takeIrq_elrEl1 : (takeIrq vector pstate c).getSys .elrEl1 = c.pc := rfl

@[simp] theorem takeIrq_spsrEl1 : (takeIrq vector pstate c).getSys .spsrEl1 = c.pstate :=
  rfl

end TakeIrq

/-- `el1_irq` up to its handler. -/
def el1IrqEntry (vector pstate : U64) (c : Cpu) : Cpu :=
  (takeIrq vector pstate c).run trapEntry

/-- `el1_irq` behind its handler. -/
def el1IrqExit (c : Cpu) : Cpu := (c.run trapExit).eret

def kernelCpu : Cpu where
  x := fun i => i.val
  sp := 0x402000
  pc := 0x80000
  pstate := 5
  spEl0 := 0x401000
  elrEl1 := 0
  spsrEl1 := 0
  mem := fun _ => 0

end YiOS
