import YiOS.Library.Routine

namespace YiOS.Library

/-! A core at any exception level, before a device, and the code of several routines that
call one another. -/

/-- Registers with which a level sets itself, or one below it, up. -/
inductive CtlReg where
  | mpidrEl1
  | vbarEl1
  | sctlrEl1
  | hcrEl2
  | spsrEl2
  | elrEl2
  | spsrEl3
  | elrEl3
  deriving DecidableEq, Repr

/-- The lowest level that may use it. -/
def CtlReg.level : CtlReg → Nat
  | .mpidrEl1 | .vbarEl1 | .sctlrEl1 => 1
  | .hcrEl2 | .spsrEl2 | .elrEl2 => 2
  | .spsrEl3 | .elrEl3 => 3

/-- An instruction that goes on to the next one. `movi` is `mov`, `adr` or `ldr` of a value
that is known when the code is linked; `ldrw` and `strw` are words of a device, `ldrb` a
byte of memory. -/
inductive Basic where
  | op (op : Op)
  | movi (rd : Fin 31) (imm : BitVec 64)
  | movsp (imm : BitVec 64)
  | addr (rd rn rm : Fin 31)
  | subr (rd rn rm : Fin 31)
  | andi (rd rn : Fin 31) (imm : BitVec 64)
  | orrwi (rd rn : Fin 31) (imm : BitVec 32)
  | lsr (rd rn : Fin 31) (shift : Nat)
  | cmp (rn : Fin 31) (imm : BitVec 64)
  | cmpw (rn : Fin 31) (imm : BitVec 32)
  | ldrb (rt rn : Fin 31)
  | ldrw (rt rn : Fin 31)
  | strw (rt rn : Fin 31)
  | strwzr (rn : Fin 31)
  | currentEl (rt : Fin 31)
  | daifset (imm : BitVec 4)
  | mrs (rt : Fin 31) (source : CtlReg)
  | msr (target : CtlReg) (rt : Fin 31)
  | hint
  deriving DecidableEq, Repr

/-- `b`, `bcond` and `cbz` go to a line of their own listing, `bl` to an address. -/
inductive Code where
  | basic (b : Basic)
  | bcond (cond : Cond) (target : Nat)
  | b (target : Nat)
  | cbz (rt : Fin 31) (target : Nat)
  | bl (address : BitVec 64)
  | ret
  | eret
  deriving DecidableEq, Repr

/-- A line of a routine that knows nothing of the levels. -/
def Line.code : Line → Code
  | .op o => .basic (.op o)
  | .b cond target => .bcond cond target
  | .ret => .ret

def Basic.level : Basic → Nat
  | .op (.plain (.mrs _ _)) | .op (.plain (.msr _ _)) | .currentEl _ | .daifset _ => 1
  | .mrs _ s | .msr s _ => s.level
  | _ => 0

theorem Basic.level_op {o : Op} (clobbered : List (Fin 31))
    (h : o.spares clobbered = true) :
    (Basic.op o).level = 0 := by
  cases o with
  | plain instr =>
      cases instr with
      | mrs | msr => exact absurd h Bool.false_ne_true
      | add | sub | mov | str | ldr | stp | ldp | stpPost | ldpPost => rfl
  | andw | orrw | orr | adds | subs | store => rfl

def Basic.spares (clobbered : List (Fin 31)) : Basic → Bool
  | .op o => o.spares clobbered
  | .movi rd _ | .addr rd _ _ | .subr rd _ _ | .andi rd _ _ | .orrwi rd _ _ | .lsr rd _ _
  | .ldrb rd _ | .ldrw rd _ | .currentEl rd | .mrs rd _ => clobbered.contains rd
  | .cmp _ _ | .cmpw _ _ | .strw _ _ | .strwzr _ | .hint => true
  | .movsp _ | .daifset _ | .msr _ _ => false

/-- It neither writes to memory nor turns to the device. -/
def Basic.silent : Basic → Bool
  | .op (.plain (.str _ _ _)) | .op (.plain (.stp _ _ _ _)) => false
  | .op (.plain (.stpPost _ _ _ _)) => false
  | .op (.store _ _ _ _) | .ldrw _ _ | .strw _ _ | .strwzr _ => false
  | _ => true

structure Core where
  cpu : Cpu
  ctl : CtlReg → BitVec 64
  /-- The stack pointers of the levels that it is not at. -/
  spx : Nat → BitVec 64

structure Device (δ : Type) where
  read : BitVec 64 → δ → BitVec 32 × δ
  write : BitVec 64 → BitVec 32 → δ → δ

structure Platform (δ : Type) extends Core where
  dev : δ

/-- The exception level that a `pstate` is of. -/
def levelOf (pstate : BitVec 64) : Nat := (pstate.extractLsb' 2 2).toNat

namespace Platform

variable {δ : Type} (device : Device δ) (n : Platform δ)

def on (c : Cpu) : Platform δ := { n with cpu := c }

def level : Nat := levelOf n.cpu.pstate

def perform : Basic → Platform δ
  | .op op => n.on (n.cpu.perform op)
  | .movi rd imm => n.on (n.cpu.set imm (.x rd))
  | .movsp imm => n.on (n.cpu.set imm .sp)
  | .addr rd rn rm => n.on (n.cpu.set (n.cpu.x rn + n.cpu.x rm) (.x rd))
  | .subr rd rn rm => n.on (n.cpu.set (n.cpu.x rn - n.cpu.x rm) (.x rd))
  | .andi rd rn imm => n.on (n.cpu.set (n.cpu.x rn &&& imm) (.x rd))
  | .orrwi rd rn imm => n.on (n.cpu.setw (n.cpu.getw rn ||| imm) rd)
  | .lsr rd rn shift => n.on (n.cpu.set (n.cpu.x rn >>> shift) (.x rd))
  | .cmp rn imm => n.on (n.cpu.setFlags (Flags.ofSub (n.cpu.x rn) imm))
  | .cmpw rn imm => n.on (n.cpu.setFlags (Flags.ofSub (n.cpu.getw rn) imm))
  | .ldrb rt rn => n.on (n.cpu.set ((n.cpu.mem (n.cpu.x rn)).setWidth 64) (.x rt))
  | .ldrw rt rn =>
      let r := device.read (n.cpu.x rn) n.dev
      { n with cpu := n.cpu.setw r.1 rt, dev := r.2 }
  | .strw rt rn => { n with dev := device.write (n.cpu.x rn) (n.cpu.getw rt) n.dev }
  | .strwzr rn => { n with dev := device.write (n.cpu.x rn) 0 n.dev }
  | .currentEl rt => n.on (n.cpu.set (n.cpu.pstate &&& 0xc) (.x rt))
  | .daifset imm => n.on { n.cpu with pstate := n.cpu.pstate ||| imm.setWidth 64 <<< 6 }
  | .mrs rt source => n.on (n.cpu.set (n.ctl source) (.x rt))
  | .msr target rt => { n with ctl := Function.update n.ctl target (n.cpu.x rt) }
  | .hint => n

def performs (bs : List Basic) : Platform δ :=
  bs.foldl (fun n b => (n.perform device b).on (n.perform device b).cpu.advance) n

/-- Where an exception of this level came from. -/
def link : BitVec 64 × BitVec 64 :=
  if n.level = 3 then
    (n.ctl .elrEl3, n.ctl .spsrEl3)
  else if n.level = 2 then
    (n.ctl .elrEl2, n.ctl .spsrEl2)
  else
    (n.cpu.elrEl1, n.cpu.spsrEl1)

/-- To a level with a stack pointer of its own, and not to a higher one. -/
def eret : Option (Platform δ) :=
  let pstate := n.link.2
  if 0 < levelOf pstate ∧ levelOf pstate ≤ n.level ∧ pstate.getLsbD 0 = true then
    let spx := Function.update n.spx n.level n.cpu.sp
    some { n with cpu := { n.cpu with pc := n.link.1, pstate, sp := spx (levelOf pstate) }, spx }
  else
    none

def exec (label : Nat → BitVec 64) : Code → Option (Platform δ)
  | .basic b =>
      if b.level ≤ n.level then some ((n.perform device b).on (n.perform device b).cpu.advance)
      else none
  | .bcond cond target =>
      some (n.on (if n.cpu.holds cond then n.cpu.b (label target) else n.cpu.advance))
  | .b target => some (n.on (n.cpu.b (label target)))
  | .cbz rt target =>
      some (n.on (if n.cpu.x rt = 0 then n.cpu.b (label target) else n.cpu.advance))
  | .bl address => some (n.on (n.cpu.bl address))
  | .ret => some (n.on n.cpu.ret)
  | .eret => n.eret

end Platform

abbrev Program := List (Listing Code)

namespace Program

variable {δ : Type} (device : Device δ) (p : Program)

def fetch (pc : BitVec 64) : Option (Listing Code × Code) :=
  p.findSome? fun r => (r.fetch pc).map fun code => (r, code)

/-- No two listings have an address in common, and none goes round the end of memory. -/
structure Placed : Prop where
  apart : p.Pairwise fun r r' => Apart r.base (4 * r.code.length) r'.base
    (4 * r'.code.length)
  fits : ∀ r ∈ p, 4 * r.code.length ≤ 2 ^ 64

/-- Outside of the code there is no next step. -/
def step (n : Platform δ) : Option (Platform δ) :=
  (p.fetch n.cpu.pc).bind fun line => n.exec device line.1.label line.2

abbrev Reaches : Platform δ → Platform δ → Prop := StateTransition.Reaches (step device p)

end Program

namespace Platform

variable {δ : Type} {device : Device δ} {n n' n'' : Platform δ} {clobbered : List (Fin 31)}

section Fields

variable (device : Device δ) (n : Platform δ) (b : Basic) (c : Cpu)

@[simp] theorem on_cpu : (n.on c).cpu = c := rfl

@[simp] theorem on_ctl : (n.on c).ctl = n.ctl := rfl

@[simp] theorem on_spx : (n.on c).spx = n.spx := rfl

@[simp] theorem on_dev : (n.on c).dev = n.dev := rfl

@[simp] theorem performs_nil : n.performs device [] = n := List.foldl_nil

@[simp] theorem performs_cons (bs : List Basic) : n.performs device (b :: bs) =
    ((n.perform device b).on (n.perform device b).cpu.advance).performs device bs :=
  List.foldl_cons ..

theorem perform_pc : (n.perform device b).cpu.pc = n.cpu.pc := by
  cases b <;> simp [perform, Cpu.setw, Cpu.perform_pc]

end Fields

/-- What a caller finds as it was, the registers `clobbered`, the flags, memory and the
device aside. -/
structure Kept (clobbered : List (Fin 31)) (n n' : Platform δ) : Prop where
  cpu : n.cpu.Kept clobbered n'.cpu
  ctl : n'.ctl = n.ctl
  spx : n'.spx = n.spx

theorem levelOf_congr {pstate pstate' : BitVec 64}
    (h : ∀ j, ¬ (28 ≤ j ∧ j < 32) → pstate'.getLsbD j = pstate.getLsbD j) :
    levelOf pstate' = levelOf pstate := by
  have hbits : pstate'.extractLsb' 2 2 = pstate.extractLsb' 2 2 := by
    apply BitVec.eq_of_getLsbD_eq
    intro i hi
    simp only [BitVec.getLsbD_extractLsb', h (2 + i) (by omega)]
  rw [levelOf, hbits, levelOf]

namespace Kept

theorem refl (n : Platform δ) : Kept clobbered n n := ⟨.refl _, rfl, rfl⟩

theorem trans (h : Kept clobbered n n') (h' : Kept clobbered n' n'') : Kept clobbered n n'' :=
  ⟨h.cpu.trans h'.cpu, h'.ctl.trans h.ctl, h'.spx.trans h.spx⟩

theorem level (h : Kept clobbered n n') : n'.level = n.level := levelOf_congr h.cpu.pstate

theorem mono {more : List (Fin 31)} (h : Kept clobbered n n') (hmore : clobbered ⊆ more) :
    Kept more n n' where
  cpu := ⟨fun i hi => h.cpu.x i fun hmem => hi (hmore hmem), h.cpu.sp, h.cpu.sys,
    h.cpu.pstate⟩
  ctl := h.ctl
  spx := h.spx

theorem on {c : Cpu} (h : n.cpu.Kept clobbered c) : Kept clobbered n (n.on c) :=
  ⟨h, rfl, rfl⟩

theorem perform {b : Basic} (h : b.spares clobbered = true) :
    Kept clobbered n (n.perform device b) := by
  cases b with
  | op o => exact .on (.perform h)
  | movi | addr | subr | andi | orrwi | lsr | ldrb | currentEl | mrs =>
      exact .on (.set _ (List.contains_iff_mem.mp h))
  | ldrw => exact ⟨.set _ (List.contains_iff_mem.mp h), rfl, rfl⟩
  | cmp | cmpw => exact .on (.setFlags _)
  | strw | strwzr | hint => exact ⟨.refl _, rfl, rfl⟩
  | movsp | daifset | msr => exact absurd h Bool.false_ne_true

theorem performs {bs : List Basic} (h : bs.all (Basic.spares clobbered) = true) :
    Kept clobbered n (n.performs device bs) := by
  induction bs generalizing n with
  | nil => exact .refl n
  | cons b bs ih =>
      rw [List.all_cons, Bool.and_eq_true] at h
      rw [performs_cons]
      exact ((Kept.perform h.1).trans (.on (.jump _))).trans (ih h.2)

end Kept

end Platform

namespace Platform

variable {δ : Type} (device : Device δ) (n : Platform δ)

theorem perform_level (b : Basic) : (n.perform device b).level = n.level := by
  have hop : ∀ o, levelOf (n.cpu.perform o).pstate = levelOf n.cpu.pstate :=
    fun o => levelOf_congr fun j hj => Cpu.perform_pstate n.cpu o hj
  cases b with
  | op o => exact hop o
  | cmp | cmpw => exact levelOf_congr fun j hj => Cpu.setFlags_other n.cpu _ hj
  | daifset imm =>
      have hlow : ((n.cpu.pstate ||| imm.setWidth 64 <<< 6).extractLsb' 2 2) =
          n.cpu.pstate.extractLsb' 2 2 := by
        apply BitVec.eq_of_getLsbD_eq
        intro i hi
        have hshift : (imm.setWidth 64 <<< 6).getLsbD (2 + i) = false := by
          rw [BitVec.getLsbD_shiftLeft, decide_eq_true (by omega : 2 + i < 6)]
          simp
        rw [BitVec.getLsbD_extractLsb', BitVec.getLsbD_or, hshift, Bool.or_false,
          BitVec.getLsbD_extractLsb']
      exact congrArg BitVec.toNat hlow
  | movi | movsp | addr | subr | andi | orrwi | lsr | ldrb | ldrw | strw | strwzr | currentEl
  | mrs | msr | hint => rfl

theorem perform_silent {b : Basic} (h : b.silent = true) :
    (n.perform device b).cpu.mem = n.cpu.mem ∧ (n.perform device b).dev = n.dev := by
  cases b with
  | op o =>
      cases o with
      | plain instr =>
          cases instr with
          | str | stp | stpPost => exact absurd h Bool.false_ne_true
          | add | sub | mov | ldr | ldp | ldpPost | mrs | msr =>
              simp [perform, Cpu.perform, Cpu.act]
      | store => exact absurd h Bool.false_ne_true
      | andw | orrw | orr | adds | subs => exact ⟨rfl, rfl⟩
  | ldrw | strw | strwzr => exact absurd h Bool.false_ne_true
  | movi | movsp | addr | subr | andi | orrwi | lsr | cmp | cmpw | ldrb | currentEl | daifset | mrs
  | msr | hint => exact ⟨rfl, rfl⟩

theorem performs_silent (bs : List Basic) (h : bs.all Basic.silent = true) :
    (n.performs device bs).cpu.mem = n.cpu.mem ∧ (n.performs device bs).dev = n.dev := by
  induction bs generalizing n with
  | nil => exact ⟨rfl, rfl⟩
  | cons b bs ih =>
      rw [List.all_cons, Bool.and_eq_true] at h
      obtain ⟨hmem, hdev⟩ :=
        ih ((n.perform device b).on (n.perform device b).cpu.advance) h.2
      obtain ⟨hmem', hdev'⟩ := perform_silent device n h.1
      rw [performs_cons]
      exact ⟨hmem.trans hmem', hdev.trans hdev'⟩

theorem performs_level (bs : List Basic) : (n.performs device bs).level = n.level := by
  induction bs generalizing n with
  | nil => rfl
  | cons b bs ih =>
      rw [performs_cons, ih]
      exact perform_level device n b

end Platform

theorem Listing.fetch_within {r : Listing ι} (h : r.fetch pc = some line) :
    Within r.base (4 * r.code.length) pc := by
  unfold Listing.fetch at h
  split at h
  · have hlt := (List.getElem?_eq_some_iff.mp h).1
    unfold Within
    omega
  · exact absurd h (by simp)

namespace Program

section Rules

variable {δ : Type} (device : Device δ) {p : Program} {r : Listing Code}
  {n : Platform δ} {i : Nat}
  {cond : Cond}

theorem fetch_of_mem (hp : p.Placed) (hr : r ∈ p) (h : r.fetch pc = some code) :
    p.fetch pc = some (r, code) := by
  have hapart := hp.apart
  clear hp
  induction p with
  | nil => exact absurd hr List.not_mem_nil
  | cons a p ih =>
      rw [List.pairwise_cons] at hapart
      rw [fetch, List.findSome?_cons]
      cases List.mem_cons.mp hr with
      | inl heq => rw [← heq, h, Option.map_some]
      | inr hmem =>
          cases hfetch : a.fetch pc with
          | none => exact ih hmem hapart.2
          | some line =>
              exact absurd (Listing.fetch_within h)
                (hapart.1 r hmem _ (Listing.fetch_within hfetch))

theorem step_eq (hp : p.Placed) (hr : r ∈ p) (hpc : n.cpu.pc = r.label i)
    (hline : r.code[i]? = some code) : p.step device n = n.exec device r.label code := by
  have hi : i < r.code.length := (List.getElem?_eq_some_iff.mp hline).1
  have hfits := hp.fits r hr
  have hfetch := fetch_of_mem hp hr ((Listing.fetch_label (by omega)).trans hline)
  rw [step, hpc, hfetch, Option.bind_some]

/-- A step at a line without a branch. -/
theorem step_basic {b : Basic} {n' : Platform δ} (hp : p.Placed) (hr : r ∈ p)
    (hpc : n.cpu.pc = r.label i) (hline : r.code[i]? = some (.basic b))
    (h : p.step device n = some n') :
    n' = (n.perform device b).on (n.perform device b).cpu.advance ∧
      n'.cpu.pc = r.label (i + 1) := by
  rw [step_eq device hp hr hpc hline, Platform.exec] at h
  split at h
  · rw [Option.some.injEq] at h
    refine ⟨h.symm, ?_⟩
    rw [← h, Platform.on_cpu, Cpu.advance_pc, Platform.perform_pc, hpc, Listing.label_succ]
  · exact absurd h (by simp)

theorem step_outside (h : ∀ r ∈ p, ¬ Within r.base (4 * r.code.length) n.cpu.pc) :
    p.step device n = none := by
  have hnone : p.fetch n.cpu.pc = none := by
    rw [fetch, List.findSome?_eq_none_iff]
    intro r hr
    cases hfetch : r.fetch n.cpu.pc with
    | none => rfl
    | some line => exact absurd (Listing.fetch_within hfetch) (h r hr)
  rw [step, hnone, Option.bind_none]

/-- Lines without a branch, one behind another. -/
theorem reaches_basics (hp : p.Placed) (hr : r ∈ p) (bs : List Basic)
    (hpc : n.cpu.pc = r.label i)
    (hcode : (r.code.drop i).take bs.length = bs.map .basic)
    (hlevel : ∀ b ∈ bs, b.level ≤ n.level) :
    p.Reaches device n (n.performs device bs) ∧
      (n.performs device bs).cpu.pc = r.label (i + bs.length) := by
  induction bs generalizing n i with
  | nil => exact ⟨.refl, hpc⟩
  | cons b bs ih =>
      rw [List.length_cons] at hcode
      cases hdrop : r.code.drop i with
      | nil => simp [hdrop] at hcode
      | cons line rest =>
          rw [hdrop, List.take_succ_cons, List.map_cons, List.cons.injEq] at hcode
          have hline : r.code[i]? = some (.basic b) := by
            rw [← hcode.1, ← List.head?_drop, hdrop, List.head?_cons]
          have hrest : r.code.drop (i + 1) = rest := by
            rw [← List.drop_drop, hdrop]
            rfl
          have hstep := step_eq device hp hr hpc hline
          rw [Platform.exec, if_pos (hlevel b List.mem_cons_self)] at hstep
          have hnext : ((n.perform device b).on (n.perform device b).cpu.advance).cpu.pc =
              r.label (i + 1) := by
            rw [Platform.on_cpu, Cpu.advance_pc, Platform.perform_pc, hpc,
              Listing.label_succ]
          have htail := ih hnext (by rw [hrest]; exact hcode.2) fun b' hb' => by
            refine le_of_le_of_eq (hlevel b' (List.mem_cons_of_mem b hb')) ?_
            exact (Platform.perform_level device n b).symm
          refine ⟨.head hstep htail.1, ?_⟩
          rw [Platform.performs_cons, htail.2, List.length_cons, Nat.add_right_comm,
            Nat.add_assoc i]

theorem reaches_bcond (hp : p.Placed) (hr : r ∈ p) (hpc : n.cpu.pc = r.label i)
    (hline : r.code[i]? = some (.bcond cond target)) : p.Reaches device n
      (n.on (n.cpu.b (r.label (if n.cpu.holds cond then target else i + 1)))) := by
  refine .single ?_
  rw [step_eq device hp hr hpc hline, Platform.exec]
  cases n.cpu.holds cond with
  | true => rfl
  | false =>
      have hnext : n.cpu.pc + 4 = r.label (i + 1) := by rw [hpc, Listing.label_succ]
      simp [Cpu.advance, Cpu.b, ← hnext]

theorem reaches_b (hp : p.Placed) (hr : r ∈ p) (hpc : n.cpu.pc = r.label i)
    (hline : r.code[i]? = some (.b target)) :
    p.Reaches device n (n.on (n.cpu.b (r.label target))) :=
  .single (step_eq device hp hr hpc hline)

theorem reaches_cbz (hp : p.Placed) (hr : r ∈ p) (hpc : n.cpu.pc = r.label i)
    (hline : r.code[i]? = some (.cbz rt target)) : p.Reaches device n
      (n.on (n.cpu.b (r.label (if n.cpu.x rt = 0 then target else i + 1)))) := by
  refine .single ?_
  rw [step_eq device hp hr hpc hline, Platform.exec]
  by_cases hzero : n.cpu.x rt = 0
  · rw [if_pos hzero, if_pos hzero]
    rfl
  · have hnext : n.cpu.pc + 4 = r.label (i + 1) := by rw [hpc, Listing.label_succ]
    rw [if_neg hzero, if_neg hzero, ← hnext]
    rfl

theorem reaches_bl (hp : p.Placed) (hr : r ∈ p) (hpc : n.cpu.pc = r.label i)
    (hline : r.code[i]? = some (.bl address)) :
    ∃ n', p.Reaches device n n' ∧ n'.cpu.pc = address ∧ n'.cpu.x 30 = r.label (i + 1) ∧
      n.Kept [30] n' ∧ n'.cpu.mem = n.cpu.mem ∧ n'.dev = n.dev := by
  refine ⟨_, .single (step_eq device hp hr hpc hline), rfl, ?_, .on ?_, rfl, rfl⟩
  · rw [← Listing.label_succ, ← hpc, Platform.on_cpu, Cpu.bl_x, Function.update_self]
  · exact (Cpu.Kept.set _ (List.mem_singleton.mpr rfl)).trans (.jump address)

theorem reaches_ret (hp : p.Placed) (hr : r ∈ p) (hpc : n.cpu.pc = r.label i)
    (hline : r.code[i]? = some .ret) : p.Reaches device n (n.on n.cpu.ret) :=
  .single (step_eq device hp hr hpc hline)

/-- From the second level to it or the first. -/
theorem reaches_eret (hp : p.Placed) (hr : r ∈ p) (hpc : n.cpu.pc = r.label i)
    (hline : r.code[i]? = some .eret) (hlevel : n.level = 2)
    (htarget : 0 < levelOf (n.ctl .spsrEl2) ∧ levelOf (n.ctl .spsrEl2) ≤ 2)
    (hown : (n.ctl .spsrEl2).getLsbD 0 = true) :
    ∃ n', p.Reaches device n n' ∧ n'.cpu.pc = n.ctl .elrEl2 ∧
      n'.cpu.pstate = n.ctl .spsrEl2 ∧
      n'.ctl = n.ctl ∧ n'.cpu.mem = n.cpu.mem ∧ n'.dev = n.dev := by
  have hlink : n.link = (n.ctl .elrEl2, n.ctl .spsrEl2) := by
    rw [Platform.link, hlevel, if_neg (by decide), if_pos rfl]
  have heret := step_eq device hp hr hpc hline
  rw [Platform.exec, Platform.eret, hlink, hlevel,
    if_pos ⟨htarget.1, htarget.2, hown⟩] at heret
  exact ⟨_, .single heret, rfl, rfl, rfl, rfl, rfl⟩

/-- A routine that knows nothing of the levels runs as it does by itself. -/
theorem reaches_routine {q : Routine} (clobbered : List (Fin 31)) {c : Cpu} (hp : p.Placed)
    (hq : ⟨q.base, q.code.map Line.code⟩ ∈ p)
    (hspares : q.code.all (Line.spares clobbered) = true) (h : q.Reaches n.cpu c) :
    p.Reaches device n (n.on c) ∧ n.Kept clobbered (n.on c) := by
  refine ⟨?_, .on (Routine.Reaches.kept hspares h)⟩
  induction h with
  | refl => exact .refl
  | @tail c c' hreaches hstep ih =>
      refine ih.tail ?_
      have hlevel : (n.on c).level = n.level :=
        Platform.Kept.level (.on (Routine.Reaches.kept hspares hreaches))
      rw [Routine.step] at hstep
      cases hfetch : q.fetch c.pc with
      | none => simp [hfetch] at hstep
      | some line =>
          rw [hfetch] at hstep
          have hline : p.fetch c.pc = some (⟨q.base, q.code.map Line.code⟩, line.code) := by
            refine fetch_of_mem hp hq ?_
            unfold Listing.fetch at hfetch ⊢
            split at hfetch
            · rename_i haligned
              rw [if_pos haligned, List.getElem?_map, hfetch, Option.map_some]
            · exact absurd hfetch (by simp)
          have hexec : p.step device (n.on c) =
              (n.on c).exec device (Listing.label ⟨q.base, q.code.map Line.code⟩) line.code := by
            rw [step, Platform.on_cpu, hline, Option.bind_some]
          rw [hexec]
          cases line with
          | op o =>
              have hlow : (Basic.op o).level = 0 := by
                refine Basic.level_op clobbered ?_
                exact List.all_eq_true.mp hspares _ (Listing.fetch_mem hfetch)
              rw [Line.code, Platform.exec, hlow, if_pos (Nat.zero_le _)]
              exact congrArg (fun c => some (n.on c)) (Option.some.inj hstep)
          | b cond target => exact congrArg (fun c => some (n.on c)) (Option.some.inj hstep)
          | ret => exact congrArg (fun c => some (n.on c)) (Option.some.inj hstep)

end Rules

end Program

end YiOS.Library
