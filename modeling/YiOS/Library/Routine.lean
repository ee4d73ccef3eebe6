import Mathlib.Computability.StateTransition
import YiOS.Library.Cpu

namespace YiOS.Library

/-! Code with branches: a routine lies at an address, and the program counter says which of
its lines is next. -/

/-- The condition flags of `pstate`. -/
structure Flags where
  n : Bool
  z : Bool
  c : Bool
  v : Bool

namespace Flags

def bits (f : Flags) : BitVec 4 :=
  BitVec.ofBool f.n ++ BitVec.ofBool f.z ++ BitVec.ofBool f.c ++ BitVec.ofBool f.v

/-- `a + b + carry`, as the adder of the processor has it for words and their low halves. -/
def ofAdd (a b : BitVec w) (carry : Bool) : Flags :=
  let sum := a + b + (BitVec.ofBool carry).setWidth w
  { n := sum.msb
    z := sum == 0
    c := decide (2 ^ w ≤ a.toNat + b.toNat + carry.toNat)
    v := a.msb == b.msb && sum.msb != a.msb }

def ofSub (a b : BitVec w) : Flags := ofAdd a (~~~ b) true

/-- The adder subtracts. -/
theorem add_not_add_carry (a b : BitVec w) :
    a + ~~~ b + (BitVec.ofBool true).setWidth w = a - b := by
  have hcarry : (BitVec.ofBool true).setWidth w = 1#w := by
    cases w with
    | zero => exact BitVec.of_length_zero
    | succ w =>
        apply BitVec.eq_of_toNat_eq
        simp
  rw [hcarry, BitVec.add_assoc, ← BitVec.neg_eq_not_add, BitVec.sub_eq_add_neg]

theorem ofSub_n (a b : BitVec w) : (ofSub a b).n = (a - b).msb :=
  congrArg BitVec.msb (add_not_add_carry a b)

theorem ofSub_z (a b : BitVec w) : (ofSub a b).z = decide (a = b) := by
  rw [ofSub, ofAdd, add_not_add_carry]
  exact decide_eq_decide.mpr sub_eq_zero

end Flags

inductive Cond where
  | mi
  | pl
  | eq
  | ne
  deriving DecidableEq, Repr

/-- An instruction that goes on to the next one. `w` registers are the low halves; a `store`
is of the low `bytes` of `rt`, at `rn`, which it then moves on. -/
inductive Op where
  | plain (instr : Instr)
  | andw (rd rn : Fin 31) (imm : BitVec 32)
  | orrw (rd rn rm : Fin 31) (lsl : Nat)
  | orr (rd rn rm : Fin 31) (lsl : Nat)
  | adds (rd rn : Fin 31) (imm : BitVec 64)
  | subs (rd rn : Fin 31) (imm : BitVec 64)
  | store (bytes : Nat) (rt rn : Fin 31) (step : BitVec 64)
  deriving DecidableEq, Repr

/-- A branch names the line it goes to by its number. -/
inductive Line where
  | op (op : Op)
  | b (cond : Cond) (target : Nat)
  | ret
  deriving DecidableEq, Repr

/-- Apart from memory and the flags it changes none but the registers `clobbered`. -/
def Op.spares (clobbered : List (Fin 31)) : Op → Bool
  | .plain (.add (.x rd) _ _) => clobbered.contains rd
  | .plain (.sub (.x rd) _ _) => clobbered.contains rd
  | .plain (.mov (.x rd) _) => clobbered.contains rd
  | .plain _ => false
  | .andw rd _ _ => clobbered.contains rd
  | .orrw rd _ _ _ => clobbered.contains rd
  | .orr rd _ _ _ => clobbered.contains rd
  | .adds rd _ _ => clobbered.contains rd
  | .subs rd _ _ => clobbered.contains rd
  | .store _ _ rn _ => clobbered.contains rn

def Line.spares (clobbered : List (Fin 31)) : Line → Bool
  | .op o => o.spares clobbered
  | .b _ _ => true
  | .ret => true

namespace Memory

/-- The low `n` bytes of a word. -/
def storeLow (m : Memory) (a : BitVec 64) (n : Nat) (v : BitVec 64) : Memory := fun b =>
  if Within a n b then v.extractLsb' (8 * (b - a).toNat) 8 else m b

def fill (m : Memory) (a : BitVec 64) (n : Nat) (v : BitVec 8) : Memory := fun b =>
  if Within a n b then v else m b

@[simp] theorem fill_zero (m : Memory) (a : BitVec 64) (v : BitVec 8) :
    m.fill a 0 v = m := by
  funext b
  exact if_neg (Nat.not_lt_zero _)

theorem clear_eq_fill (m : Memory) (a : BitVec 64) (n : Nat) : m.clear a n = m.fill a n 0 :=
  rfl

/-- One region behind another. -/
theorem fill_fill (m : Memory) (a : BitVec 64) {n k : Nat} (v : BitVec 8)
    (h : n + k ≤ 2 ^ 64) :
    (m.fill a n v).fill (a + BitVec.ofNat 64 n) k v = m.fill a (n + k) v := by
  funext b
  cases k with
  | zero => simp
  | succ k =>
      have hlt := (b - a).isLt
      have hoffset : (b - (a + BitVec.ofNat 64 n)).toNat =
          if n ≤ (b - a).toNat then (b - a).toNat - n else 2 ^ 64 + (b - a).toNat - n := by
        simp only [BitVec.toNat_sub, BitVec.toNat_add, BitVec.toNat_ofNat]
        split_ifs <;> omega
      simp only [fill, Within, hoffset]
      grind

/-- Every byte of the word is the same. -/
theorem storeLow_eq_fill {v : BitVec 64} {byte : BitVec 8} (m : Memory)
    (a : BitVec 64) {n : Nat}
    (hbytes : ∀ i < 8, v.extractLsb' (8 * i) 8 = byte) (hn : n ≤ 8) :
    m.storeLow a n v = m.fill a n byte := by
  funext b
  by_cases h : Within a n b
  · rw [storeLow, fill, if_pos h, if_pos h]
    exact hbytes _ (lt_of_lt_of_le h hn)
  · rw [storeLow, fill, if_neg h, if_neg h]

end Memory

namespace Cpu

/-- A `w` register. -/
def getw (c : Cpu) (i : Fin 31) : BitVec 32 := (c.x i).setWidth 32

def setw (c : Cpu) (v : BitVec 32) (i : Fin 31) : Cpu := c.set (v.setWidth 64) (.x i)

def setFlags (c : Cpu) (f : Flags) : Cpu :=
  { c with pstate := c.pstate.extractLsb' 32 32 ++ f.bits ++ c.pstate.extractLsb' 0 28 }

def perform (c : Cpu) : Op → Cpu
  | .plain instr => c.act instr
  | .andw rd rn imm => c.setw (c.getw rn &&& imm) rd
  | .orrw rd rn rm lsl => c.setw (c.getw rn ||| c.getw rm <<< lsl) rd
  | .orr rd rn rm lsl => c.set (c.x rn ||| c.x rm <<< lsl) (.x rd)
  | .adds rd rn imm => (c.set (c.x rn + imm) (.x rd)).setFlags
      (Flags.ofAdd (c.x rn) imm false)
  | .subs rd rn imm => (c.set (c.x rn - imm) (.x rd)).setFlags (Flags.ofSub (c.x rn) imm)
  | .store bytes rt rn step =>
      ({ c with mem := c.mem.storeLow (c.x rn) bytes (c.x rt) } : Cpu).set
        (c.x rn + step) (.x rn)

/-- One instruction behind another. -/
def performs (c : Cpu) (ops : List Op) : Cpu :=
  ops.foldl (fun c op => (c.perform op).advance) c

def holds (c : Cpu) : Cond → Bool
  | .mi => c.pstate.getLsbD 31
  | .pl => !c.pstate.getLsbD 31
  | .eq => c.pstate.getLsbD 30
  | .ne => !c.pstate.getLsbD 30

section Fields

variable (c : Cpu) (f : Flags) (op : Op) (instr : Instr) (i rd rn rm : Fin 31)
    (v imm : BitVec 64)

@[simp] theorem performs_nil : c.performs [] = c := List.foldl_nil

@[simp] theorem performs_cons (ops : List Op) :
    c.performs (op :: ops) = (c.perform op).advance.performs ops := List.foldl_cons ..

@[simp] theorem setFlags_x : (c.setFlags f).x = c.x := rfl

@[simp] theorem setFlags_pc : (c.setFlags f).pc = c.pc := rfl

@[simp] theorem setFlags_sp : (c.setFlags f).sp = c.sp := rfl

@[simp] theorem setFlags_mem : (c.setFlags f).mem = c.mem := rfl

@[simp] theorem setFlags_getSys (s : SysReg) : (c.setFlags f).getSys s = c.getSys s := by
  cases s <;> rfl

@[simp] theorem set_pc (r : Reg) : (c.set v r).pc = c.pc := by cases r <;> rfl

@[simp] theorem set_pstate (r : Reg) : (c.set v r).pstate = c.pstate := by cases r <;> rfl

@[simp] theorem advance_pc : c.advance.pc = c.pc + 4 := rfl

@[simp] theorem advance_pstate : c.advance.pstate = c.pstate := rfl

@[simp] theorem b_pstate : (c.b v).pstate = c.pstate := rfl

theorem setFlags_negative : (c.setFlags f).pstate.getLsbD 31 = f.n := by
  simp only [setFlags, Flags.bits, BitVec.getLsbD_append]
  simp

theorem setFlags_zero : (c.setFlags f).pstate.getLsbD 30 = f.z := by
  simp only [setFlags, Flags.bits, BitVec.getLsbD_append]
  simp

theorem setFlags_holds_ne : (c.setFlags f).holds .ne = !f.z :=
  congrArg (!·) (setFlags_zero c f)

theorem setFlags_holds_eq : (c.setFlags f).holds .eq = f.z := setFlags_zero c f

theorem adds_negative :
    (c.perform (.adds rd rn imm)).pstate.getLsbD 31 = (c.x rn + imm).msb := by
  rw [perform, setFlags_negative]
  simp [Flags.ofAdd]

theorem subs_negative :
    (c.perform (.subs rd rn imm)).pstate.getLsbD 31 = (c.x rn - imm).msb := by
  rw [perform, setFlags_negative, Flags.ofSub_n]

/-- Only the flags change. -/
theorem setFlags_other {j : Nat} (h : ¬ (28 ≤ j ∧ j < 32)) :
    (c.setFlags f).pstate.getLsbD j = c.pstate.getLsbD j := by
  have hhigh : 64 ≤ j → c.pstate.getLsbD j = false := BitVec.getLsbD_of_ge _ _
  simp only [setFlags, BitVec.getLsbD_append, BitVec.getLsbD_extractLsb']
  grind

theorem act_pc : (c.act instr).pc = c.pc := by
  cases instr <;> simp [act, storePair, loadPair]
  case msr s _ => cases s <;> rfl

theorem perform_pc : (c.perform op).pc = c.pc := by
  cases op <;> simp [perform, setw, act_pc]

theorem act_pstate : (c.act instr).pstate = c.pstate := by
  cases instr <;> simp [act, storePair, loadPair]
  case msr s _ => cases s <;> rfl

theorem perform_pstate {j : Nat} (h : ¬ (28 ≤ j ∧ j < 32)) :
    (c.perform op).pstate.getLsbD j = c.pstate.getLsbD j := by
  cases op with
  | plain instr => rw [perform, act_pstate]
  | adds | subs => exact setFlags_other _ _ h
  | andw | orrw | orr | store => rfl

end Fields

/-- What a caller finds as it was, the registers `clobbered`, the flags and memory aside. -/
structure Kept (clobbered : List (Fin 31)) (c c' : Cpu) : Prop where
  x : ∀ i, i ∉ clobbered → c'.x i = c.x i
  sp : c'.sp = c.sp
  sys : ∀ s, c'.getSys s = c.getSys s
  pstate : ∀ j, ¬ (28 ≤ j ∧ j < 32) → c'.pstate.getLsbD j = c.pstate.getLsbD j

namespace Kept

variable {clobbered : List (Fin 31)} {c c' c'' : Cpu}

theorem refl (c : Cpu) : Kept clobbered c c :=
  ⟨fun _ _ => rfl, rfl, fun _ => rfl, fun _ _ => rfl⟩

theorem trans (h : Kept clobbered c c') (h' : Kept clobbered c' c'') : Kept clobbered c c'' where
  x := fun i hi => (h'.x i hi).trans (h.x i hi)
  sp := h'.sp.trans h.sp
  sys := fun s => (h'.sys s).trans (h.sys s)
  pstate := fun j hj => (h'.pstate j hj).trans (h.pstate j hj)

theorem set (v : BitVec 64) (hi : i ∈ clobbered) : Kept clobbered c (c.set v (.x i)) where
  x := fun _ hj => Function.update_of_ne (ne_of_mem_of_not_mem hi hj).symm _ _
  sp := rfl
  sys := fun s => set_getSys c v (.x i) s
  pstate := fun _ _ => rfl

theorem setFlags (f : Flags) : Kept clobbered c (c.setFlags f) where
  x := fun _ _ => rfl
  sp := rfl
  sys := setFlags_getSys c f
  pstate := fun _ hj => setFlags_other c f hj

theorem store (m : Memory) : Kept clobbered c { c with mem := m } where
  x := fun _ _ => rfl
  sp := rfl
  sys := fun s => by cases s <;> rfl
  pstate := fun _ _ => rfl

theorem jump (pc : BitVec 64) : Kept clobbered c (c.b pc) where
  x := fun _ _ => rfl
  sp := rfl
  sys := b_getSys c pc
  pstate := fun _ _ => rfl

theorem perform (h : op.spares clobbered = true) : Kept clobbered c (c.perform op) := by
  cases op with
  | plain instr =>
      cases instr with
      | add rd | sub rd | mov rd =>
          cases rd with
          | x i => exact set _ (List.contains_iff_mem.mp h)
          | sp => exact absurd h Bool.false_ne_true
      | str | ldr | stp | ldp | stpPost | ldpPost | mrs | msr =>
          exact absurd h Bool.false_ne_true
  | andw | orrw | orr => exact set _ (List.contains_iff_mem.mp h)
  | adds | subs => exact (set _ (List.contains_iff_mem.mp h)).trans (setFlags _)
  | store => exact (store _).trans (set _ (List.contains_iff_mem.mp h))

end Kept

end Cpu

/-- Lines of code at an address. -/
structure Listing (ι : Type) where
  base : BitVec 64
  code : List ι

namespace Listing

variable (r : Listing ι)

/-- The address of a line. -/
def label (i : Nat) : BitVec 64 := r.base + BitVec.ofNat 64 (4 * i)

def fetch (pc : BitVec 64) : Option ι :=
  if (pc - r.base).toNat % 4 = 0 then r.code[(pc - r.base).toNat / 4]? else none

variable {r : Listing ι} {i : Nat}

theorem label_succ (i : Nat) : r.label i + 4 = r.label (i + 1) := by
  rw [label, label, Nat.mul_add, BitVec.ofNat_add, BitVec.add_assoc]
  rfl

theorem fetch_label (hi : 4 * i < 2 ^ 64) : r.fetch (r.label i) = r.code[i]? := by
  have hoffset : (r.label i - r.base).toNat = 4 * i := by
    rw [label, BitVec.add_comm, BitVec.add_sub_cancel, BitVec.toNat_ofNat,
      Nat.mod_eq_of_lt hi]
  rw [fetch, hoffset, if_pos (Nat.mul_mod_right 4 i), Nat.mul_div_cancel_left i (by decide)]

theorem fetch_mem (h : r.fetch pc = some line) : line ∈ r.code := by
  unfold fetch at h
  split at h
  · exact List.mem_of_getElem? h
  · exact absurd h (by simp)

end Listing

abbrev Routine := Listing Line

/-- A loop that comes back to its invariant with a smaller measure, or is left. -/
theorem reaches_loop {σ : Type} {step : σ → Option σ} {I Q : σ → Prop} {c : σ}
    (measure : σ → Nat)
    (hbody : ∀ c, I c → ∃ c', StateTransition.Reaches step c c' ∧
      (Q c' ∨ I c' ∧ measure c' < measure c))
    (h : I c) : ∃ c', StateTransition.Reaches step c c' ∧ Q c' := by
  induction hn : measure c using Nat.strong_induction_on generalizing c with
  | _ n ih =>
      obtain ⟨c', hreaches, hleft | ⟨hagain, hlt⟩⟩ := hbody c h
      · exact ⟨c', hreaches, hleft⟩
      · obtain ⟨c'', hreaches', hleft⟩ := ih _ (hn ▸ hlt) hagain rfl
        exact ⟨c'', hreaches.trans hreaches', hleft⟩

namespace Routine

variable (r : Routine)

/-- Outside of the routine there is no next step. -/
def step (c : Cpu) : Option Cpu :=
  match r.fetch c.pc with
  | none => none
  | some (.op op) => some (c.perform op).advance
  | some (.b cond target) => some (if c.holds cond then c.b (r.label target) else c.advance)
  | some .ret => some c.ret

abbrev Reaches : Cpu → Cpu → Prop := StateTransition.Reaches r.step

section Rules

variable {r : Routine} {c c' : Cpu} {i target : Nat} {cond : Cond}
  {clobbered : List (Fin 31)}

/-- Lines without a branch, one behind another. -/
theorem reaches_ops (ops : List Op) (hpc : c.pc = r.label i)
    (hcode : (r.code.drop i).take ops.length = ops.map .op)
    (hi : 4 * (i + ops.length) < 2 ^ 64) :
    r.Reaches c (c.performs ops) ∧ (c.performs ops).pc = r.label (i + ops.length) := by
  induction ops generalizing c i with
  | nil => exact ⟨.refl, hpc⟩
  | cons op ops ih =>
      rw [List.length_cons] at hcode hi
      cases hdrop : r.code.drop i with
      | nil => simp [hdrop] at hcode
      | cons line rest =>
          rw [hdrop, List.take_succ_cons, List.map_cons, List.cons.injEq] at hcode
          have hline : r.code[i]? = some (.op op) := by
            rw [← hcode.1, ← List.head?_drop, hdrop, List.head?_cons]
          have hrest : r.code.drop (i + 1) = rest := by
            rw [← List.drop_drop, hdrop]
            rfl
          have hstep : (c.perform op).advance ∈ r.step c := by
            rw [step, hpc, Listing.fetch_label (by omega), hline]
            rfl
          have hnext : (c.perform op).advance.pc = r.label (i + 1) := by
            rw [Cpu.advance_pc, Cpu.perform_pc, hpc, Listing.label_succ]
          have htail := ih hnext (by rw [hrest]; exact hcode.2) (by omega)
          refine ⟨.head hstep htail.1, ?_⟩
          rw [Cpu.performs_cons, htail.2, List.length_cons, Nat.add_right_comm,
            Nat.add_assoc i]

theorem reaches_b (hpc : c.pc = r.label i) (hline : r.code[i]? = some (.b cond target))
    (hi : 4 * i < 2 ^ 64) :
    r.Reaches c (c.b (r.label (if c.holds cond then target else i + 1))) := by
  refine .single ?_
  rw [step, hpc, Listing.fetch_label hi, hline]
  cases hholds : c.holds cond with
  | true => simp [hholds]
  | false =>
      have hnext : c.pc + 4 = r.label (i + 1) := by rw [hpc, Listing.label_succ]
      simp [hholds, Cpu.advance, Cpu.b, ← hnext]

theorem reaches_ret (hpc : c.pc = r.label i) (hline : r.code[i]? = some .ret)
    (hi : 4 * i < 2 ^ 64) : r.Reaches c c.ret := by
  refine .single ?_
  rw [step, hpc, Listing.fetch_label hi, hline]
  rfl

theorem kept_step (hcode : r.code.all (Line.spares clobbered) = true) (h : c' ∈ r.step c) :
    c.Kept clobbered c' := by
  rw [step] at h
  cases hline : r.fetch c.pc with
  | none => simp [hline] at h
  | some line =>
      have hspares := List.all_eq_true.mp hcode line (Listing.fetch_mem hline)
      rw [hline] at h
      cases line with
      | op o => exact Option.some.inj h ▸ (Cpu.Kept.perform hspares).trans (.jump _)
      | b cond target =>
          rw [← Option.some.inj h]
          split
          · exact .jump _
          · exact .jump _
      | ret => exact Option.some.inj h ▸ .jump _

theorem Reaches.kept (hcode : r.code.all (Line.spares clobbered) = true)
    (h : r.Reaches c c') :
    c.Kept clobbered c' := by
  induction h with
  | refl => exact .refl c
  | tail _ hstep ih => exact ih.trans (kept_step hcode hstep)

end Rules

end Routine

end YiOS.Library
