import YiOS.Library.Memory

namespace YiOS.Library

/-! A 64-bit processor at exception level 1: the registers and the instructions that move
words between them and memory. -/

instance neZero_registers : NeZero 31 := ⟨by decide⟩

/-- A general register by its number (30 is the link register), or the stack pointer. -/
inductive Reg where
  | x (i : Fin 31)
  | sp
  deriving DecidableEq, Repr

inductive SysReg where
  | spEl0
  | elrEl1
  | spsrEl1
  deriving DecidableEq, Repr

structure Cpu where
  x : Fin 31 → BitVec 64
  sp : BitVec 64
  pc : BitVec 64
  pstate : BitVec 64
  spEl0 : BitVec 64
  elrEl1 : BitVec 64
  spsrEl1 : BitVec 64
  mem : Memory

/-- `stp` and `ldp` are `[rn, #offset]`; `stpPost` and `ldpPost` are `[rn], #step`. -/
inductive Instr where
  | add (rd rn : Reg) (imm : BitVec 64)
  | sub (rd rn : Reg) (imm : BitVec 64)
  | mov (rd rn : Reg)
  | str (rt rn : Reg) (offset : BitVec 64)
  | ldr (rt rn : Reg) (offset : BitVec 64)
  | stp (rt rt' rn : Reg) (offset : BitVec 64)
  | ldp (rt rt' rn : Reg) (offset : BitVec 64)
  | stpPost (rt rt' rn : Reg) (step : BitVec 64)
  | ldpPost (rt rt' rn : Reg) (step : BitVec 64)
  | mrs (rt : Reg) (source : SysReg)
  | msr (target : SysReg) (rt : Reg)
  deriving DecidableEq, Repr

namespace Cpu

def get (c : Cpu) : Reg → BitVec 64
  | .x i => c.x i
  | .sp => c.sp

def set (c : Cpu) (v : BitVec 64) : Reg → Cpu
  | .x i => { c with x := Function.update c.x i v }
  | .sp => { c with sp := v }

def getSys (c : Cpu) : SysReg → BitVec 64
  | .spEl0 => c.spEl0
  | .elrEl1 => c.elrEl1
  | .spsrEl1 => c.spsrEl1

def setSys (c : Cpu) (v : BitVec 64) : SysReg → Cpu
  | .spEl0 => { c with spEl0 := v }
  | .elrEl1 => { c with elrEl1 := v }
  | .spsrEl1 => { c with spsrEl1 := v }

def storePair (c : Cpu) (a v v' : BitVec 64) : Cpu :=
  { c with mem := (c.mem.store64 a v).store64 (a + 8) v' }

def loadPair (c : Cpu) (a : BitVec 64) (rt rt' : Reg) : Cpu :=
  (c.set (c.mem.load64 a) rt).set (c.mem.load64 (a + 8)) rt'

def act (c : Cpu) : Instr → Cpu
  | .add rd rn imm => c.set (c.get rn + imm) rd
  | .sub rd rn imm => c.set (c.get rn - imm) rd
  | .mov rd rn => c.set (c.get rn) rd
  | .str rt rn offset => { c with mem := c.mem.store64 (c.get rn + offset) (c.get rt) }
  | .ldr rt rn offset => c.set (c.mem.load64 (c.get rn + offset)) rt
  | .stp rt rt' rn offset => c.storePair (c.get rn + offset) (c.get rt) (c.get rt')
  | .ldp rt rt' rn offset => c.loadPair (c.get rn + offset) rt rt'
  | .stpPost rt rt' rn step =>
      (c.storePair (c.get rn) (c.get rt) (c.get rt')).set (c.get rn + step) rn
  | .ldpPost rt rt' rn step => (c.loadPair (c.get rn) rt rt').set (c.get rn + step) rn
  | .mrs rt source => c.set (c.getSys source) rt
  | .msr target rt => c.setSys (c.get rt) target

def advance (c : Cpu) : Cpu := { c with pc := c.pc + 4 }

def exec (c : Cpu) (instr : Instr) : Cpu := (c.act instr).advance

/-- Straight-line code. -/
def run (c : Cpu) (code : List Instr) : Cpu := code.foldl exec c

def b (c : Cpu) (target : BitVec 64) : Cpu := { c with pc := target }

def bl (c : Cpu) (target : BitVec 64) : Cpu :=
  { c with x := Function.update c.x 30 (c.pc + 4), pc := target }

def blr (c : Cpu) (i : Fin 31) : Cpu := c.bl (c.x i)

def ret (c : Cpu) : Cpu := c.b (c.x 30)

def eret (c : Cpu) : Cpu := { c with pc := c.elrEl1, pstate := c.spsrEl1 }

/-! What the parts of an instruction do to the registers and the memory, for `simp` to run
code field by field. -/

section Fields

variable (c : Cpu) (v v' a : BitVec 64) (r r' : Reg) (s : SysReg) (i j : Fin 31)

@[simp] theorem get_x : c.get (.x i) = c.x i := by simp only [get]

@[simp] theorem get_sp : c.get .sp = c.sp := by simp only [get]

theorem getSys_spEl0 : c.getSys .spEl0 = c.spEl0 := rfl

@[simp] theorem set_x_x : (c.set v (.x i)).x = Function.update c.x i v := rfl

@[simp] theorem set_x_sp : (c.set v (.x i)).sp = c.sp := rfl

@[simp] theorem set_sp_x : (c.set v .sp).x = c.x := rfl

@[simp] theorem set_sp_sp : (c.set v .sp).sp = v := rfl

@[simp] theorem set_mem : (c.set v r).mem = c.mem := by cases r <;> rfl

@[simp] theorem set_getSys : (c.set v r).getSys s = c.getSys s := by
  cases r <;> cases s <;> rfl

@[simp] theorem setSys_x : (c.setSys v s).x = c.x := by cases s <;> rfl

@[simp] theorem setSys_sp : (c.setSys v s).sp = c.sp := by cases s <;> rfl

@[simp] theorem setSys_mem : (c.setSys v s).mem = c.mem := by cases s <;> rfl

@[simp] theorem setSys_getSys_self : (c.setSys v s).getSys s = v := by cases s <;> rfl

theorem setSys_getSys_of_ne (h : s' ≠ s) : (c.setSys v s).getSys s' = c.getSys s' := by
  cases s <;> cases s' <;> first | rfl | exact absurd rfl h

@[simp] theorem storePair_x : (c.storePair a v v').x = c.x := rfl

@[simp] theorem storePair_sp : (c.storePair a v v').sp = c.sp := rfl

@[simp] theorem storePair_getSys : (c.storePair a v v').getSys s = c.getSys s := by
  cases s <;> rfl

@[simp] theorem storePair_mem :
    (c.storePair a v v').mem = (c.mem.store64 a v).store64 (a + 8) v' := rfl

@[simp] theorem loadPair_x : (c.loadPair a (.x i) (.x j)).x =
    Function.update (Function.update c.x i (c.mem.load64 a)) j (c.mem.load64 (a + 8)) := rfl

@[simp] theorem loadPair_sp : (c.loadPair a (.x i) (.x j)).sp = c.sp := rfl

@[simp] theorem loadPair_getSys : (c.loadPair a r r').getSys s = c.getSys s := by
  simp [loadPair]

@[simp] theorem loadPair_mem : (c.loadPair a r r').mem = c.mem := by
  simp [loadPair]

@[simp] theorem b_x : (c.b v).x = c.x := rfl

@[simp] theorem b_pc : (c.b v).pc = v := rfl

@[simp] theorem b_sp : (c.b v).sp = c.sp := rfl

@[simp] theorem b_getSys : (c.b v).getSys s = c.getSys s := by cases s <;> rfl

@[simp] theorem b_mem : (c.b v).mem = c.mem := rfl

@[simp] theorem bl_x : (c.bl v).x = Function.update c.x 30 (c.pc + 4) := rfl

@[simp] theorem bl_pc : (c.bl v).pc = v := rfl

@[simp] theorem advance_x : c.advance.x = c.x := rfl

@[simp] theorem advance_sp : c.advance.sp = c.sp := rfl

@[simp] theorem advance_getSys : c.advance.getSys s = c.getSys s := by cases s <;> rfl

@[simp] theorem advance_mem : c.advance.mem = c.mem := rfl

end Fields

section Exec

variable (c : Cpu) (rt rt' rn : Reg) (offset : BitVec 64) (s : SysReg) (i : Fin 31)

@[simp] theorem run_nil : c.run [] = c := List.foldl_nil

@[simp] theorem run_cons (instr : Instr) (code : List Instr) :
    c.run (instr :: code) = (c.exec instr).run code := List.foldl_cons ..

theorem run_append (code code' : List Instr) :
    c.run (code ++ code') = (c.run code).run code' := List.foldl_append ..

@[simp] theorem exec_add :
    c.exec (.add rt rn offset) = (c.set (c.get rn + offset) rt).advance := by
  simp only [exec, act]

@[simp] theorem exec_sub :
    c.exec (.sub rt rn offset) = (c.set (c.get rn - offset) rt).advance := by
  simp only [exec, act]

@[simp] theorem exec_mov : c.exec (.mov rt rn) = (c.set (c.get rn) rt).advance := by
  simp only [exec, act]

@[simp] theorem exec_str_x : (c.exec (.str (.x i) rn offset)).x = c.x := by
  simp [exec, act]

@[simp] theorem exec_str_mem : (c.exec (.str (.x i) rn offset)).mem =
    c.mem.store64 (c.get rn + offset) (c.x i) := by
  simp [exec, act]

@[simp] theorem exec_ldr : c.exec (.ldr rt rn offset) =
    (c.set (c.mem.load64 (c.get rn + offset)) rt).advance := by
  simp only [exec, act]

@[simp] theorem exec_stp : c.exec (.stp rt rt' rn offset) =
    (c.storePair (c.get rn + offset) (c.get rt) (c.get rt')).advance := by
  simp only [exec, act]

@[simp] theorem exec_ldp : c.exec (.ldp rt rt' rn offset) =
    (c.loadPair (c.get rn + offset) rt rt').advance := by
  simp only [exec, act]

@[simp] theorem exec_stpPost : c.exec (.stpPost rt rt' rn offset) =
    ((c.storePair (c.get rn) (c.get rt) (c.get rt')).set (c.get rn + offset) rn).advance := by
  simp only [exec, act]

@[simp] theorem exec_ldpPost : c.exec (.ldpPost rt rt' rn offset) =
    ((c.loadPair (c.get rn) rt rt').set (c.get rn + offset) rn).advance := by
  simp only [exec, act]

@[simp] theorem exec_mrs : c.exec (.mrs rt s) = (c.set (c.getSys s) rt).advance := by
  simp only [exec, act]

@[simp] theorem exec_msr : c.exec (.msr s rt) = (c.setSys (c.get rt) s).advance := by
  simp only [exec, act]

end Exec

end Cpu

end YiOS.Library
