import Mathlib.Tactic.IntervalCases
import YiOS.Library.Cores
import YiOS.Entry.Code
import YiOS.Lib.Memset
import YiOS.Start.EarlyUart

namespace YiOS.Start

open YiOS.Library YiOS.Uart

/-! `start.S`: from `_start` to `kernel_main`. -/

def hcrHostNvheFlags : U64 := 1 <<< 31

def sctlrValueMmuDisabled : U64 := 0

def spsrEl1 : U64 := 7 <<< 6 ||| 5 <<< 0

def currentElEl3 : U64 := 3 <<< 2

/-- Where the linker has put things. -/
structure Image where
  start : U64
  earlyUart : U64
  memset : U64
  kernelMain : U64
  vectorTable : U64
  elString1 : U64
  initTask : U64
  bss : U64
  ebss : U64

/-- `el_string1`. -/
def elText : List Byte := "Booting at EL".toList.map ch

/-- `boot_string`. -/
def bootText : List Byte := "- Switch to EL1 -".toList.map ch

namespace Image

variable (image : Image)

def bootString : U64 := image.elString1 + BitVec.ofNat 64 (elText.length + 1)

/-- What `adrp` gives. -/
def page (a : U64) : U64 := a &&& ~~~0xfff

/-- `:lo12:` of a symbol. -/
def lo12 (a : U64) : U64 := a &&& 0xfff

def startCode : List Code :=
  -- _start:
  [.basic (.daifset 2),
    .basic (.mrs 0 .mpidrEl1),
    .basic (.andi 0 0 0xFF),
    .cbz 0 7,
    .b 5,
    -- slave_hang:
    .basic .hint,
    .b 5,
    -- master:
    .bl (initUart image.earlyUart),
    .basic (.currentEl 5),
    .basic (.cmp 5 currentElEl3),
    .bcond .eq 43,
    .b 45,
    -- el1_entry:
    .basic (.movi 0 (page image.elString1)),
    .basic (.op (.plain (.add (.x 0) (.x 0) (lo12 image.bootString)))),
    .bl (putStringUart image.earlyUart),
    .basic (.movi 0 10),
    .bl (putUart image.earlyUart),
    .basic (.movi 5 image.vectorTable),
    .basic (.msr .vbarEl1 5),
    .basic .hint,
    .basic (.movi 0 image.bss),
    .basic (.movi 1 image.ebss),
    .basic (.subr 2 1 0),
    .basic (.movi 1 0),
    .bl image.memset,
    .basic (.movi 5 image.initTask),
    .basic (.op (.plain (.msr .spEl0 (.x 5)))),
    .basic (.movsp lowMemory),
    .bl image.kernelMain,
    .b 5,
    -- get_CurrentEL:
    .basic (.op (.plain (.mov (.x 10) (.x 30)))),
    .basic (.movi 0 (page image.elString1)),
    .basic (.op (.plain (.add (.x 0) (.x 0) (lo12 image.elString1)))),
    .bl (putStringUart image.earlyUart),
    .basic (.currentEl 5),
    .basic (.lsr 2 5 2),
    .basic (.movi 0 48),
    .basic (.addr 0 0 2),
    .bl (putUart image.earlyUart),
    .basic (.movi 0 10),
    .bl (putUart image.earlyUart),
    .basic (.op (.plain (.mov (.x 30) (.x 10)))),
    .ret,
    -- el3_entry:
    .bl (image.start + 4 * 30),
    .eret,
    -- el2_entry:
    .bl (image.start + 4 * 30),
    .basic (.movi 0 hcrHostNvheFlags),
    .basic (.msr .hcrEl2 0),
    .basic (.movi 0 sctlrValueMmuDisabled),
    .basic (.msr .sctlrEl1 0),
    .basic (.mrs 6 .sctlrEl1),
    .basic (.movi 0 spsrEl1),
    .basic (.msr .spsrEl2 0),
    .basic (.movi 0 (image.start + 4 * 12)),
    .basic (.msr .elrEl2 0),
    .eret]

def startS : Listing Code := ⟨image.start, image.startCode⟩

def linked : Program :=
  [image.startS, Start.earlyUart image.earlyUart, ⟨image.memset, memsetCode.map Line.code⟩]

/-- The two strings are in one page, since `el1_entry` takes the page of the first for the
second; `.bss` ends below the stack. -/
structure WellFormed : Prop where
  placed : image.linked.Placed
  kernelMain : ∀ r ∈ image.linked, ¬ Within r.base (4 * r.code.length) image.kernelMain
  strings : (lo12 image.elString1).toNat + (elText.length + 1) < 4096
  bss : image.bss.toNat ≤ image.ebss.toNat
  low : image.ebss.toNat ≤ lowMemory.toNat

end Image

/-- All that goes out on the way to `kernel_main`. -/
def bootTranscript : List Byte :=
  elText ++ [0] ++ [ch '2'] ++ [ch '\n'] ++ bootText ++ [0] ++ [ch '\n']

/-- At the first instruction of `kernel_main`, seen from `_start`. -/
structure AtKernelMain (image : Image) (n n' : Platform Devices) : Prop where
  pc : n'.cpu.pc = image.kernelMain
  /-- A return would lead to the loop of the other cores. -/
  link : n'.cpu.x 30 = image.startS.label 29
  pstate : ∀ j, ¬ (28 ≤ j ∧ j < 32) → n'.cpu.pstate.getLsbD j = spsrEl1.getLsbD j
  sp : n'.cpu.sp = lowMemory
  current : n'.cpu.spEl0 = image.initTask
  vectors : n'.ctl .vbarEl1 = image.vectorTable
  translation : n'.ctl .sctlrEl1 = sctlrValueMmuDisabled
  aarch64 : n'.ctl .hcrEl2 = hcrHostNvheFlags
  mem : n'.cpu.mem = n.cpu.mem.clear image.bss (image.ebss - image.bss).toNat
  line : n'.dev.uart.line ++ n'.dev.uart.txFifo =
    n.dev.uart.line ++ n.dev.uart.txFifo ++ mark 0 bootTranscript
  regs : Configured n.dev.regs n'.dev.regs
  /-- `uart_init`, the first call of `kernel_main`, has nothing left to do but the
  pull-downs. -/
  uartInit : Start.uartInit n'.dev.regs = Function.update n'.dev.regs gpioPupPdnCntrlReg0
    (n'.dev.regs gpioPupPdnCntrlReg0 ||| 0xa0000000)

theorem toNat_page (a : U64) : (Image.page a).toNat = a.toNat / 4096 * 4096 :=
  toNat_and_pageMask a

theorem toNat_lo12 (a : U64) : (Image.lo12 a).toNat = a.toNat % 4096 := by
  rw [Image.lo12, BitVec.toNat_and]
  exact Nat.and_two_pow_sub_one_eq_mod a.toNat 12

/-- A symbol behind another one in its page. -/
theorem page_add_lo12 {a : U64} {k : Nat} (h : (Image.lo12 a).toNat + k < 4096) :
    Image.page a + Image.lo12 (a + BitVec.ofNat 64 k) = a + BitVec.ofNat 64 k := by
  have hlt := a.isLt
  rw [toNat_lo12] at h
  apply BitVec.eq_of_toNat_eq
  rw [BitVec.toNat_add, toNat_page, toNat_lo12, BitVec.toNat_add, BitVec.toNat_ofNat]
  omega

theorem pstate_level {pstate : U64} (h : levelOf pstate = 2) : pstate &&& 0xc = 8 := by
  have hfield : pstate.extractLsb' 2 2 = 2 := BitVec.eq_of_toNat_eq h
  have hbits : ∀ i < 2, pstate.getLsbD (2 + i) = (2 : BitVec 2).getLsbD i := by
    intro i hi
    rw [← hfield, BitVec.getLsbD_extractLsb']
    simp [hi]
  have hlow := hbits 0 (by decide)
  have hhigh := hbits 1 (by decide)
  apply BitVec.eq_of_getLsbD_eq
  intro i hi
  rw [BitVec.getLsbD_and]
  interval_cases i <;> simp_all

section Run

variable {image : Image} {depth i : Nat} {looks : Nat → Nat} {n : Platform Devices}

theorem startS_mem (image : Image) : image.startS ∈ image.linked := List.mem_cons_self

theorem earlyUart_mem (image : Image) : earlyUart image.earlyUart ∈ image.linked :=
  List.mem_cons_of_mem _ List.mem_cons_self

theorem memset_mem (image : Image) :
    ⟨image.memset, memsetCode.map Line.code⟩ ∈ image.linked :=
  List.mem_cons_of_mem _ (List.mem_cons_of_mem _ List.mem_cons_self)

def startOps : List Basic := [.daifset 2, .mrs 0 .mpidrEl1, .andi 0 0 0xFF]

theorem startOps_x0 (device : Device Devices) (n : Platform Devices) :
    (n.performs device startOps).cpu.x 0 = n.ctl .mpidrEl1 &&& 0xff := by
  simp [startOps, Platform.perform]

/-- The address of the first string, behind the return address. -/
def elStringOps (image : Image) : List Basic :=
  [.op (.plain (.mov (.x 10) (.x 30))), .movi 0 (Image.page image.elString1),
    .op (.plain (.add (.x 0) (.x 0) (Image.lo12 image.elString1)))]

theorem elStringOps_args (hi : image.WellFormed) (device : Device Devices)
    (n : Platform Devices) :
    (n.performs device (elStringOps image)).cpu.x 10 = n.cpu.x 30 ∧
      (n.performs device (elStringOps image)).cpu.x 0 = image.elString1 := by
  have hstring := page_add_lo12 (a := image.elString1) (k := 0)
    (by have := hi.strings; omega)
  refine ⟨by simp [elStringOps, Platform.perform, Cpu.perform, Cpu.act], ?_⟩
  simpa [elStringOps, Platform.perform, Cpu.perform, Cpu.act] using hstring

def levelOps : List Basic := [.currentEl 5, .lsr 2 5 2, .movi 0 48, .addr 0 0 2]

theorem levelOps_x10 (device : Device Devices) (n : Platform Devices) :
    (n.performs device levelOps).cpu.x 10 = n.cpu.x 10 := by
  simp [levelOps, Platform.perform]

theorem levelOps_digit (device : Device Devices) (hlevel : n.level = 2) :
    ((n.performs device levelOps).cpu.x 0).setWidth 8 = ch '2' := by
  have hstate : n.cpu.pstate &&& 12#64 = 8#64 := pstate_level hlevel
  have hx0 : (n.performs device levelOps).cpu.x 0 = 50 := by
    simp [levelOps, Platform.perform, hstate]
  rw [hx0]
  rfl

theorem newline_char (device : Device Devices) (n : Platform Devices) :
    ((n.performs device [.movi 0 10]).cpu.x 0).setWidth 8 = ch '\n' := by
  have hx0 : (n.performs device [.movi 0 10]).cpu.x 0 = 10 := by
    simp [Platform.perform]
  rw [hx0]
  rfl

/-- `get_CurrentEL`, called at the second level. -/
theorem getCurrentEl_call (hi : image.WellFormed) (h : Drains depth looks)
    (hfits : n.dev.uart.txFifo.length ≤ depth) (hpc : n.cpu.pc = image.startS.label i)
    (hline : image.startS.code[i]? = some (.bl (image.start + 4 * 30)))
    (hlevel : n.level = 2)
    (htext : Loaded n.cpu.mem image.elString1 elText) :
    ∃ n', image.linked.Reaches (devices depth looks) n n' ∧
      n'.cpu.pc = image.startS.label (i + 1) ∧ Printed depth [0, 1, 2, 4, 5, 6, 10, 30]
        (elText ++ [0] ++ [ch '2'] ++ [ch '\n']) n n' := by
  have hp := hi.placed
  have hs := startS_mem image
  have hu := earlyUart_mem image
  obtain ⟨n₁, hbl, hpc₁, hx30, hkept₁, hmem₁, hdev₁⟩ :=
    Program.reaches_bl (devices depth looks) hp hs hpc hline
  have hprinted₁ : Printed depth [0, 1, 2, 4, 5, 6, 10, 30] [] n n₁ :=
    ⟨hkept₁.mono (by simp), hmem₁, by rw [hdev₁]; exact .refl hfits⟩
  have hpc₁' : n₁.cpu.pc = image.startS.label 30 := hpc₁
  have hlevel₁ : n₁.level = 2 := hkept₁.level.trans hlevel
  obtain ⟨hops₂, hpc₂, hprinted₂⟩ := silent_ops hp hs [0, 1, 2, 4, 5, 6, 10, 30]
    (devices depth looks) (elStringOps image) hpc₁' rfl (by simp [elStringOps, Basic.level])
    rfl rfl hprinted₁.fits
  obtain ⟨hx10₂, hx0₂⟩ := elStringOps_args hi (devices depth looks) n₁
  generalize n₁.performs (devices depth looks) (elStringOps image) = n₂ at *
  have htext₂ : Loaded n₂.cpu.mem (n₂.cpu.x 0) elText := by
    rw [hx0₂, hprinted₂.mem, hmem₁]
    exact htext
  obtain ⟨n₃, hcall₃, hpc₃, hprinted₃⟩ := putStringUart_call hp hu h hprinted₂.fits hs hpc₂
    rfl htext₂
  have hlevel₃ : n₃.level = 2 :=
    hprinted₃.kept.level.trans (hprinted₂.kept.level.trans hlevel₁)
  obtain ⟨hops₄, hpc₄, hprinted₄⟩ := silent_ops hp hs [0, 1, 2, 4, 5, 6, 10, 30]
    (devices depth looks) levelOps hpc₃ rfl (by simp [levelOps, Basic.level, hlevel₃]) rfl rfl
    hprinted₃.fits
  have hdigit := levelOps_digit (devices depth looks) hlevel₃
  have hx10₄ := levelOps_x10 (devices depth looks) n₃
  generalize n₃.performs (devices depth looks) levelOps = n₄ at *
  obtain ⟨n₅, hcall₅, hpc₅, hprinted₅⟩ := putUart_call hp hu h hprinted₄.fits hs hpc₄ rfl
  obtain ⟨hops₆, hpc₆, hprinted₆⟩ := silent_ops hp hs [0]
    (devices depth looks) [.movi 0 10] hpc₅ rfl (by simp [Basic.level]) rfl rfl hprinted₅.fits
  have hnewline := newline_char (devices depth looks) n₅
  generalize n₅.performs (devices depth looks) [.movi 0 10] = n₆ at *
  obtain ⟨n₇, hcall₇, hpc₇, hprinted₇⟩ := putUart_call hp hu h hprinted₆.fits hs hpc₆ rfl
  obtain ⟨hops₈, hpc₈, hprinted₈⟩ := silent_ops hp hs [30]
    (devices depth looks) [.op (.plain (.mov (.x 30) (.x 10)))] hpc₇ rfl (by simp [Basic.level])
    rfl rfl hprinted₇.fits
  have hret := Program.reaches_ret (devices depth looks) hp hs hpc₈ rfl
  have hx10 : n₇.cpu.x 10 = image.startS.label (i + 1) := by
    rw [hprinted₇.kept.cpu.x 10 (by decide), hprinted₆.kept.cpu.x 10 (by decide),
      hprinted₅.kept.cpu.x 10 (by decide), hx10₄, hprinted₃.kept.cpu.x 10 (by decide),
        hx10₂, hx30]
  refine ⟨_, ((((((((hbl.trans hops₂).trans hcall₃).trans hops₄).trans hcall₅).trans hops₆).trans
    hcall₇).trans hops₈).trans hret), ?_, ?_⟩
  · rw [← hx10]
    simp [Platform.perform, Cpu.perform, Cpu.act, Cpu.ret]
  · rw [hdigit] at hprinted₅
    rw [hnewline] at hprinted₇
    have hstring := (hprinted₁.trans hprinted₂).trans (hprinted₃.mono (by simp))
    have hlevels := (hstring.trans hprinted₄).trans (hprinted₅.mono (by simp))
    have hlines := (hlevels.trans (hprinted₆.mono (by simp))).trans
      (hprinted₇.mono (by simp))
    have hall := hlines.trans (hprinted₈.mono (by simp))
    simp only [List.nil_append, List.append_nil] at hall
    exact hall.jump _

def el3TestOps : List Basic := [.currentEl 5, .cmp 5 currentElEl3]

theorem el3TestOps_eq (device : Device Devices) (hlevel : n.level = 2) :
    (n.performs device el3TestOps).cpu.holds .eq = false := by
  have hflags : (n.performs device el3TestOps).cpu.holds .eq =
      (Flags.ofSub (n.cpu.pstate &&& 0xc) currentElEl3).z := Cpu.setFlags_holds_eq _ _
  rw [hflags, Flags.ofSub_z, pstate_level hlevel]
  rfl

/-- From `_start` on the first core to `el2_entry`. -/
theorem start_el2Entry (depth : Nat) (looks : Nat → Nat) (hi : image.WellFormed)
    (hpc : n.cpu.pc = image.startS.label 0)
    (hcore : n.ctl .mpidrEl1 &&& 0xff = 0) (hlevel : n.level = 2) :
    ∃ n', image.linked.Reaches (devices depth looks) n n' ∧
      n'.cpu.pc = image.startS.label 45 ∧ n'.level = 2 ∧ n'.cpu.mem = n.cpu.mem ∧
      n'.dev.uart = n.dev.uart ∧ Configured n.dev.regs n'.dev.regs := by
  have hp := hi.placed
  have hs := startS_mem image
  obtain ⟨hops₁, hpc₁⟩ := Program.reaches_basics (devices depth looks) hp hs
    startOps hpc rfl (by simp [startOps, Basic.level, CtlReg.level, hlevel])
  obtain ⟨hmem₁, hdev₁⟩ := Platform.performs_silent (devices depth looks) n startOps rfl
  have hlevel₁ := Platform.performs_level (devices depth looks) n startOps
  have hx0₁ := (startOps_x0 (devices depth looks) n).trans hcore
  generalize n.performs (devices depth looks) startOps = n₁ at *
  have hcbz := Program.reaches_cbz (devices depth looks) hp hs hpc₁ rfl
  rw [hx0₁, if_pos rfl] at hcbz
  obtain ⟨n₂, hcall₂, hpc₂, hkept₂, hmem₂, huart₂, hregs₂⟩ := initUart_call depth looks
    (n := n₁.on (n₁.cpu.b (image.startS.label 7))) hp (earlyUart_mem image) hs rfl rfl
  have hlevel₂ : n₂.level = 2 := hkept₂.level.trans (hlevel₁.trans hlevel)
  obtain ⟨hops₃, hpc₃⟩ :=
    Program.reaches_basics (devices depth looks) hp hs el3TestOps hpc₂ rfl
    (by simp [el3TestOps, Basic.level, hlevel₂])
  obtain ⟨hmem₃, hdev₃⟩ := Platform.performs_silent (devices depth looks) n₂ el3TestOps rfl
  have hlevel₃ := (Platform.performs_level (devices depth looks) n₂ el3TestOps).trans hlevel₂
  have heq := el3TestOps_eq (devices depth looks) hlevel₂
  generalize n₂.performs (devices depth looks) el3TestOps = n₃ at *
  have hbranch := Program.reaches_bcond (devices depth looks) hp hs hpc₃ rfl
  rw [heq] at hbranch
  have hb := Program.reaches_b (devices depth looks) hp hs (i := 11)
    (n := n₃.on (n₃.cpu.b (image.startS.label 11))) rfl rfl
  have hregs₃ : Configured n.dev.regs n₃.dev.regs := by
    rw [hdev₃, ← hdev₁]
    exact hregs₂
  refine ⟨_, ((((hops₁.trans hcbz).trans hcall₂).trans hops₃).trans hbranch).trans hb,
    rfl, hlevel₃,
    (hmem₃.trans hmem₂).trans hmem₁, ?_, hregs₃⟩
  exact (congrArg Devices.uart hdev₃).trans (huart₂.trans (congrArg Devices.uart hdev₁))

/-- What `el2_entry` sets up for the first level. -/
def descendOps (image : Image) : List Basic :=
  [.movi 0 hcrHostNvheFlags, .msr .hcrEl2 0, .movi 0 sctlrValueMmuDisabled,
    .msr .sctlrEl1 0,
    .mrs 6 .sctlrEl1, .movi 0 spsrEl1, .msr .spsrEl2 0, .movi 0 (image.start + 4 * 12),
    .msr .elrEl2 0]

theorem descendOps_ctl (image : Image) (device : Device Devices) (n : Platform Devices) :
    (n.performs device (descendOps image)).ctl =
      Function.update (Function.update (Function.update (Function.update n.ctl .hcrEl2
        hcrHostNvheFlags) .sctlrEl1 sctlrValueMmuDisabled) .spsrEl2 spsrEl1) .elrEl2
          (image.start + 4 * 12) := by
  simp [descendOps, Platform.perform]

/-- `el2_entry` goes down to the first level. -/
theorem el2Entry_el1Entry (hi : image.WellFormed) (h : Drains depth looks)
    (hfits : n.dev.uart.txFifo.length ≤ depth) (hpc : n.cpu.pc = image.startS.label 45)
    (hlevel : n.level = 2) (htext : Loaded n.cpu.mem image.elString1 elText) :
    ∃ n', image.linked.Reaches (devices depth looks) n n' ∧
      n'.cpu.pc = image.startS.label 12 ∧ n'.cpu.pstate = spsrEl1 ∧
      n'.ctl .sctlrEl1 = sctlrValueMmuDisabled ∧ n'.ctl .hcrEl2 = hcrHostNvheFlags ∧
      n'.cpu.mem = n.cpu.mem ∧
      Sent depth (elText ++ [0] ++ [ch '2'] ++ [ch '\n']) n.dev n'.dev := by
  have hp := hi.placed
  have hs := startS_mem image
  obtain ⟨n₁, hcall₁, hpc₁, hprinted₁⟩ := getCurrentEl_call hi h hfits hpc rfl hlevel htext
  have hlevel₁ : n₁.level = 2 := hprinted₁.kept.level.trans hlevel
  obtain ⟨hops₂, hpc₂⟩ :=
    Program.reaches_basics (devices depth looks) hp hs (descendOps image)
    hpc₁ rfl (by simp [descendOps, Basic.level, CtlReg.level, hlevel₁])
  have hctl₂ := descendOps_ctl image (devices depth looks) n₁
  have hlevel₂ : (n₁.performs (devices depth looks) (descendOps image)).level = 2 :=
    (Platform.performs_level _ _ _).trans hlevel₁
  obtain ⟨hmem₂, hdev₂⟩ :=
    Platform.performs_silent (devices depth looks) n₁ (descendOps image) rfl
  generalize n₁.performs (devices depth looks) (descendOps image) = n₂ at *
  have hspsr : n₂.ctl .spsrEl2 = spsrEl1 := by rw [hctl₂]; rfl
  obtain ⟨n₃, heret, hpc₃, hpstate₃, hctl₃, hmem₃, hdev₃⟩ := Program.reaches_eret
    (devices depth looks) hp hs hpc₂ rfl hlevel₂ (by rw [hspsr]; decide)
    (by rw [hspsr]; decide)
  refine ⟨n₃, (hcall₁.trans hops₂).trans heret, ?_, hpstate₃.trans hspsr, ?_, ?_, ?_, ?_⟩
  · rw [hpc₃, hctl₂]
    rfl
  · rw [hctl₃, hctl₂]
    rfl
  · rw [hctl₃, hctl₂]
    rfl
  · exact hmem₃.trans (hmem₂.trans hprinted₁.mem)
  · rw [hdev₃, hdev₂]
    exact hprinted₁.sent

theorem memset_call (depth : Nat) (looks : Nat → Nat) (hi : image.WellFormed)
    (hpc : n.cpu.pc = image.startS.label i)
    (hline : image.startS.code[i]? = some (.bl image.memset)) (hx1 : n.cpu.x 1 = 0)
    (hsize : (n.cpu.x 2).toNat < 2 ^ 63) :
    ∃ n', image.linked.Reaches (devices depth looks) n n' ∧
      n'.cpu.pc = image.startS.label (i + 1) ∧ n.Kept [1, 2, 4, 30] n' ∧
      n'.cpu.mem = n.cpu.mem.clear (n.cpu.x 0) (n.cpu.x 2).toNat ∧ n'.dev = n.dev := by
  have hp := hi.placed
  have hbl : image.linked.Reaches (devices depth looks) n (n.on (n.cpu.bl image.memset)) :=
    .single (Program.step_eq _ hp (startS_mem image) hpc hline)
  obtain ⟨c, hreaches, hpc', hmem⟩ := memset_clears image.memset n.cpu hx1 hsize
  obtain ⟨hroutine, hkept⟩ := Program.reaches_routine (devices depth looks)
    (q := memset image.memset) (n := n.on (n.cpu.bl image.memset)) [1, 2, 4] hp
    (memset_mem image) rfl hreaches
  refine ⟨_, hbl.trans hroutine, ?_, ?_, hmem, rfl⟩
  · rw [← Listing.label_succ, ← hpc]
    exact hpc'
  · have hcalled : n.Kept [1, 2, 4, 30] (n.on (n.cpu.bl image.memset)) :=
      .on ((Cpu.Kept.set _ (by decide)).trans (.jump _))
    exact hcalled.trans (hkept.mono (by simp))

/-- The address of the second string, from the page of the first. -/
def bootStringOps (image : Image) : List Basic :=
  [.movi 0 (Image.page image.elString1),
    .op (.plain (.add (.x 0) (.x 0) (Image.lo12 image.bootString)))]

theorem bootStringOps_x0 (hi : image.WellFormed) (device : Device Devices)
    (n : Platform Devices) :
    (n.performs device (bootStringOps image)).cpu.x 0 = image.bootString := by
  have hstring : Image.page image.elString1 + Image.lo12 image.bootString =
    image.bootString :=
    page_add_lo12 hi.strings
  simpa [bootStringOps, Platform.perform, Cpu.perform, Cpu.act] using hstring

/-- The vectors, and the arguments of `memset`. -/
def bssOps (image : Image) : List Basic :=
  [.movi 5 image.vectorTable, .msr .vbarEl1 5, .hint, .movi 0 image.bss, .movi 1 image.ebss,
    .subr 2 1 0, .movi 1 0]

theorem bssOps_ctl (image : Image) (device : Device Devices) (n : Platform Devices) :
    (n.performs device (bssOps image)).ctl =
      Function.update n.ctl .vbarEl1 image.vectorTable := by
  simp [bssOps, Platform.perform]

theorem bssOps_pstate (image : Image) (device : Device Devices) (n : Platform Devices) :
    (n.performs device (bssOps image)).cpu.pstate = n.cpu.pstate := by
  simp [bssOps, Platform.perform]

theorem bssOps_args (image : Image) (device : Device Devices) (n : Platform Devices) :
    (n.performs device (bssOps image)).cpu.x 0 = image.bss ∧
      (n.performs device (bssOps image)).cpu.x 1 = 0 ∧
      (n.performs device (bssOps image)).cpu.x 2 = image.ebss - image.bss := by
  simp [bssOps, Platform.perform]

/-- From `el1_entry` to `kernel_main`. -/
theorem el1Entry_kernelMain (hi : image.WellFormed) (h : Drains depth looks)
    (hfits : n.dev.uart.txFifo.length ≤ depth) (hpc : n.cpu.pc = image.startS.label 12)
    (hlevel : n.level = 1) (htext : Loaded n.cpu.mem image.bootString bootText) :
    ∃ n', image.linked.Reaches (devices depth looks) n n' ∧ n'.cpu.pc = image.kernelMain ∧
      n'.cpu.x 30 = image.startS.label 29 ∧
      (∀ j, ¬ (28 ≤ j ∧ j < 32) → n'.cpu.pstate.getLsbD j = n.cpu.pstate.getLsbD j) ∧
      n'.cpu.sp = lowMemory ∧ n'.cpu.spEl0 = image.initTask ∧
      n'.ctl = Function.update n.ctl .vbarEl1 image.vectorTable ∧
      n'.cpu.mem = n.cpu.mem.clear image.bss (image.ebss - image.bss).toNat ∧
      Sent depth (bootText ++ [0] ++ [ch '\n']) n.dev n'.dev := by
  have hp := hi.placed
  have hs := startS_mem image
  have hu := earlyUart_mem image
  obtain ⟨hops₁, hpc₁, hprinted₁⟩ := silent_ops hp hs [0] (devices depth looks)
    (bootStringOps image) hpc rfl (by simp [bootStringOps, Basic.level]) rfl rfl hfits
  have hx0₁ := bootStringOps_x0 hi (devices depth looks) n
  generalize n.performs (devices depth looks) (bootStringOps image) = n₁ at *
  have htext₁ : Loaded n₁.cpu.mem (n₁.cpu.x 0) bootText := by
    rw [hx0₁, hprinted₁.mem]
    exact htext
  obtain ⟨n₂, hcall₂, hpc₂, hprinted₂⟩ := putStringUart_call hp hu h hprinted₁.fits hs hpc₁
    rfl htext₁
  obtain ⟨hops₃, hpc₃, hprinted₃⟩ := silent_ops hp hs [0]
    (devices depth looks) [.movi 0 10] hpc₂ rfl (by simp [Basic.level]) rfl rfl hprinted₂.fits
  have hnewline := newline_char (devices depth looks) n₂
  generalize n₂.performs (devices depth looks) [.movi 0 10] = n₃ at *
  obtain ⟨n₄, hcall₄, hpc₄, hprinted₄⟩ := putUart_call hp hu h hprinted₃.fits hs hpc₃ rfl
  rw [hnewline] at hprinted₄
  have hloaded : Printed depth [0, 1, 2, 4, 6, 30] [] n n₁ := hprinted₁.mono (by simp)
  have hstring := (hloaded.trans hprinted₂).trans (hprinted₃.mono (by simp))
  have hprinted := hstring.trans (hprinted₄.mono (by simp))
  simp only [List.nil_append, List.append_nil] at hprinted
  have hlevel₄ : n₄.level = 1 := hprinted.kept.level.trans hlevel
  obtain ⟨hops₅, hpc₅⟩ := Program.reaches_basics (devices depth looks) hp hs (bssOps image)
    hpc₄ rfl (by simp [bssOps, Basic.level, CtlReg.level, hlevel₄])
  obtain ⟨hmem₅, hdev₅⟩ :=
    Platform.performs_silent (devices depth looks) n₄ (bssOps image) rfl
  have hctl₅ := bssOps_ctl image (devices depth looks) n₄
  have hpstate₅ := bssOps_pstate image (devices depth looks) n₄
  obtain ⟨hx0₅, hx1₅, hx2₅⟩ := bssOps_args image (devices depth looks) n₄
  generalize n₄.performs (devices depth looks) (bssOps image) = n₅ at *
  have hsize : (n₅.cpu.x 2).toNat < 2 ^ 63 := by
    have hbss := hi.bss
    have hlow := hi.low
    rw [lowMemory_toNat] at hlow
    rw [hx2₅, BitVec.toNat_sub]
    omega
  obtain ⟨n₆, hcall₆, hpc₆, hkept₆, hmem₆, hdev₆⟩ :=
    memset_call depth looks hi hpc₅ rfl hx1₅
    hsize
  rw [hx0₅, hx2₅, hmem₅, hprinted.mem] at hmem₆
  have hlevel₅ : n₅.level = 1 := (congrArg levelOf hpstate₅).trans hlevel₄
  have hlevel₆ : n₆.level = 1 := hkept₆.level.trans hlevel₅
  obtain ⟨hops₇, hpc₇⟩ := Program.reaches_basics (devices depth looks) hp hs
    [.movi 5 image.initTask, .op (.plain (.msr .spEl0 (.x 5))), .movsp lowMemory] hpc₆ rfl
    (by simp [Basic.level, hlevel₆])
  have hbl := Program.step_eq (devices depth looks) hp hs hpc₇ rfl
  have hcaller : (n₆.performs (devices depth looks) [.movi 5 image.initTask,
      .op (.plain (.msr .spEl0 (.x 5))), .movsp lowMemory]).cpu.pc =
        image.startS.label 28 := hpc₇
  refine ⟨_, ((((((hops₁.trans hcall₂).trans hops₃).trans hcall₄).trans hops₅).trans hcall₆).trans
    hops₇).trans (.single hbl), rfl, ?_, ?_, ?_, ?_, ?_, ?_, ?_⟩
  · rw [Platform.on_cpu, Cpu.bl_x, Function.update_self, hcaller, Listing.label_succ]
  · intro j hj
    have hlast := hkept₆.cpu.pstate j hj
    rw [hpstate₅, hprinted.kept.cpu.pstate j hj] at hlast
    exact hlast
  · rfl
  · rfl
  · rw [← hprinted.kept.ctl, ← hctl₅, ← hkept₆.ctl]
    rfl
  · exact hmem₆
  · have hsent := hprinted.sent
    rw [← hdev₅, ← hdev₆] at hsent
    exact hsent

theorem label_zero (image : Image) : image.startS.label 0 = image.start :=
  BitVec.add_zero image.start

/-- The first core comes to `kernel_main`. -/
theorem start_kernelMain (hi : image.WellFormed) (h : Drains depth looks)
    (hfits : n.dev.uart.txFifo.length ≤ depth) (hpc : n.cpu.pc = image.start)
    (hcore : n.ctl .mpidrEl1 &&& 0xff = 0) (hlevel : n.level = 2)
    (hel : Loaded n.cpu.mem image.elString1 elText)
    (hboot : Loaded n.cpu.mem image.bootString bootText) :
    ∃ n', image.linked.Reaches (devices depth looks) n n' ∧ AtKernelMain image n n' := by
  obtain ⟨n₁, hreaches₁, hpc₁, hlevel₁, hmem₁, huart₁, hregs₁⟩ := start_el2Entry depth looks
    hi (hpc.trans (label_zero image).symm) hcore hlevel
  obtain ⟨n₂, hreaches₂, hpc₂, hpstate₂, hsctlr₂, hhcr₂, hmem₂, hsent₂⟩ :=
    el2Entry_el1Entry hi h
    (n := n₁) (by rwa [huart₁]) hpc₁ hlevel₁ (by rwa [hmem₁])
  have hlevel₂ : n₂.level = 1 := congrArg levelOf hpstate₂
  obtain ⟨n₃, hreaches₃, hpc₃, hlink₃, hpstate₃, hsp₃, hcurrent₃, hctl₃, hmem₃, hsent₃⟩ :=
    el1Entry_kernelMain hi h hsent₂.fits hpc₂ hlevel₂ (by rwa [hmem₂, hmem₁])
  have hsent := hsent₂.trans hsent₃
  have hregs : Configured n.dev.regs n₃.dev.regs := by
    rw [hsent.regs]
    exact hregs₁
  refine ⟨n₃, (hreaches₁.trans hreaches₂).trans hreaches₃, hpc₃, hlink₃, ?_, hsp₃,
    hcurrent₃, ?_,
    ?_, ?_, ?_, ?_, hregs, hregs.uartInit⟩
  · rw [← hpstate₂]
    exact hpstate₃
  · rw [hctl₃]
    rfl
  · rw [hctl₃]
    exact hsctlr₂
  · rw [hctl₃]
    exact hhcr₂
  · rw [hmem₃, hmem₂, hmem₁]
  · rw [← huart₁, hsent.line]
    rfl

end Run

/-- Where the other cores are: on the way to `slave_hang`, or there. -/
inductive Parked (image : Image) (a : Core) : Prop where
  | entry (i : Nat) : i ≤ 1 → a.cpu.pc = image.startS.label i →
      a.ctl .mpidrEl1 &&& 0xff ≠ 0 →
      Parked image a
  | masked : a.cpu.pc = image.startS.label 2 → a.cpu.x 0 &&& 0xff ≠ 0 → Parked image a
  | tested : a.cpu.pc = image.startS.label 3 → a.cpu.x 0 ≠ 0 → Parked image a
  | hang (i : Nat) : 4 ≤ i → i ≤ 6 → a.cpu.pc = image.startS.label i → Parked image a

theorem parked_undisturbed {image : Image} (hi : image.WellFormed)
    (device : Device Devices) :
    Cores.Undisturbed (image.linked.coreStep device) (Parked image) := by
  have hp := hi.placed
  have hs := startS_mem image
  intro a next hparked hstep
  obtain ⟨m, hm, rfl⟩ := Option.map_eq_some_iff.mp hstep
  have hexec : ∀ {i : Nat} {code : Code}, a.1.cpu.pc = image.startS.label i →
      image.startS.code[i]? = some code →
        (Platform.see a).exec device image.startS.label code = some m :=
    fun hpc hline => (Program.step_eq device hp hs (n := Platform.see a) hpc hline).symm.trans hm
  have hbasic : ∀ {i : Nat} {b : Basic}, a.1.cpu.pc = image.startS.label i →
      image.startS.code[i]? = some (.basic b) →
        m = ((Platform.see a).perform device b).on ((Platform.see a).perform device b).cpu.advance ∧
          m.cpu.pc = image.startS.label (i + 1) :=
    fun hpc hline => Program.step_basic device hp hs (n := Platform.see a) hpc hline hm
  cases hparked with
  | entry i hle hpc hcore =>
      cases Nat.le_one_iff_eq_zero_or_eq_one.mp hle with
      | inl hzero =>
          subst hzero
          obtain ⟨rfl, hnext⟩ := hbasic hpc rfl
          exact ⟨.entry 1 le_rfl hnext hcore, rfl⟩
      | inr hone =>
          subst hone
          obtain ⟨rfl, hnext⟩ := hbasic hpc rfl
          refine ⟨.masked hnext ?_, rfl⟩
          simpa [Platform.split, Platform.perform, Platform.see] using hcore
  | masked hpc hx0 =>
      obtain ⟨rfl, hnext⟩ := hbasic hpc rfl
      refine ⟨.tested hnext ?_, rfl⟩
      simpa [Platform.split, Platform.perform, Platform.see] using hx0
  | tested hpc hx0 =>
      have hdone := hexec hpc rfl
      have hnonzero : (Platform.see a).cpu.x 0 ≠ 0 := hx0
      rw [Platform.exec, if_neg hnonzero, Option.some.injEq] at hdone
      rw [← hdone]
      refine ⟨.hang 4 le_rfl (by decide) ?_, rfl⟩
      rw [← Listing.label_succ, ← hpc]
      rfl
  | hang i hle hge hpc =>
      rcases (by omega : i = 4 ∨ i = 5 ∨ i = 6) with rfl | rfl | rfl
      · have hdone := hexec hpc rfl
        rw [Platform.exec, Option.some.injEq] at hdone
        rw [← hdone]
        exact ⟨.hang 5 (by decide) (by decide) rfl, rfl⟩
      · obtain ⟨rfl, hnext⟩ := hbasic hpc rfl
        exact ⟨.hang 6 (by decide) le_rfl hnext, rfl⟩
      · have hdone := hexec hpc rfl
        rw [Platform.exec, Option.some.injEq] at hdone
        rw [← hdone]
        exact ⟨.hang 5 (by decide) (by decide) rfl, rfl⟩

/-- Whatever turns the cores take, the first one comes to `kernel_main` and is alone
there. -/
theorem start_cores {ι : Type} [DecidableEq ι] {image : Image} (depth : Nat)
    (looks : Nat → Nat) (first : ι) {n : Platform Devices}
    {s : Cores ι Core (Memory × Devices)} (hi : image.WellFormed) (h : Drains depth looks)
    (hfirst : (s.own first, s.shared) = n.split) (hfits : n.dev.uart.txFifo.length ≤ depth)
    (hpc : n.cpu.pc = image.start)
    (hcore : n.ctl .mpidrEl1 &&& 0xff = 0) (hlevel : n.level = 2)
    (hel : Loaded n.cpu.mem image.elString1 elText)
    (hboot : Loaded n.cpu.mem image.bootString bootText)
    (hothers : ∀ j, j ≠ first → (s.own j).cpu.pc = image.start ∧
      (s.own j).ctl .mpidrEl1 &&& 0xff ≠ 0) :
    ∃ k, ∀ turns, (∀ j, j ≠ first → Parked image
        ((s.run (image.linked.coreStep (devices depth looks)) turns).own j)) ∧
      (k ≤ turns.count first → AtKernelMain image n (Platform.see
        ((s.run (image.linked.coreStep (devices depth looks)) turns).own first,
          (s.run (image.linked.coreStep (devices depth looks)) turns).shared))) := by
  obtain ⟨n', hreaches, hat⟩ := start_kernelMain hi h hfits hpc hcore hlevel hel hboot
  have hend : image.linked.coreStep (devices depth looks) n'.split = none := by
    rw [Program.coreStep_split, Program.step_outside, Option.map_none]
    rw [hat.pc]
    exact hi.kernelMain
  obtain ⟨k, hk⟩ := Cores.alone_of_reaches (Program.coreStep_reaches hreaches) hend
  have hparked : ∀ j, j ≠ first → Parked image (s.own j) := fun j hj =>
    .entry 0 (Nat.zero_le 1) ((hothers j hj).1.trans (label_zero image).symm)
      (hothers j hj).2
  refine ⟨k, fun turns => ?_⟩
  obtain ⟨hquiet, hown⟩ := Cores.run_alone
    (parked_undisturbed hi (devices depth looks)) hparked turns
  refine ⟨hquiet, fun hcount => ?_⟩
  rw [hown, hfirst, hk _ hcount, Platform.see_split]
  exact hat

/-- A link of the kernel. -/
def someImage : Image where
  start := 0x80000
  earlyUart := 0x81000
  memset := 0x82000
  kernelMain := 0x83000
  vectorTable := 0x84000
  elString1 := 0x85000
  initTask := 0x86000
  bss := 0x87000
  ebss := 0x88000

def someMemory : Memory := fun a =>
  ((elText ++ [0] ++ bootText ++ [0])[(a - someImage.elString1).toNat]?).getD 0xff

def someCore (id : U64) : Core where
  cpu := { kernelCpu with pc := someImage.start, pstate := 9, mem := someMemory }
  ctl := Function.update (fun _ => 0) .mpidrEl1 id
  spx := fun _ => 0

def someDevices : Devices := ⟨⟨[], [], []⟩, fun _ => 0, 0⟩

theorem someImage_wellFormed : someImage.WellFormed where
  placed := by
    refine ⟨?_, by decide⟩
    have hsecond : Apart 0x80000 224 0x81000 168 :=
      .offset 0x80000 (i := 0) (j := 0x1000) (.inl ⟨by decide, by decide⟩)
    have hthird : Apart 0x80000 224 0x82000 88 :=
      .offset 0x80000 (i := 0) (j := 0x2000) (.inl ⟨by decide, by decide⟩)
    have hlast : Apart 0x81000 168 0x82000 88 :=
      .offset 0x80000 (i := 0x1000) (j := 0x2000) (.inl ⟨by decide, by decide⟩)
    refine .cons ?_ (.cons ?_ (List.pairwise_singleton _ _))
    · intro r hr
      cases hr with
      | head => exact hsecond
      | tail _ hr => exact List.mem_singleton.mp hr ▸ hthird
    · intro r hr
      exact List.mem_singleton.mp hr ▸ hlast
  kernelMain := by decide
  strings := by decide
  bss := by decide
  low := by decide

theorem start_cores_someImage : ∃ k, ∀ turns : List Bool,
    Parked someImage ((Cores.run (someImage.linked.coreStep (devices 16 fun _ => 1))
      ⟨fun b => someCore (if b then 1 else 0), (someMemory, someDevices)⟩ turns).own true) ∧
    (k ≤ turns.count false → AtKernelMain someImage ⟨someCore 0, someDevices⟩ (Platform.see
      ((Cores.run (someImage.linked.coreStep (devices 16 fun _ => 1))
        ⟨fun b => someCore (if b then 1 else 0),
          (someMemory, someDevices)⟩ turns).own false,
      (Cores.run (someImage.linked.coreStep (devices 16 fun _ => 1))
        ⟨fun b => someCore (if b then 1 else 0),
          (someMemory, someDevices)⟩ turns).shared))) := by
  have hel : Loaded someMemory someImage.elString1 elText :=
    ⟨by decide +kernel, by decide +kernel, by decide +kernel⟩
  have hboot : Loaded someMemory someImage.bootString bootText :=
    ⟨by decide +kernel, by decide +kernel, by decide +kernel⟩
  obtain ⟨k, hk⟩ := start_cores 16 (fun _ => 1) false
    (n := ⟨someCore 0, someDevices⟩)
    (s := ⟨fun b => someCore (if b then 1 else 0), (someMemory, someDevices)⟩)
    someImage_wellFormed ⟨by decide, fun k => ⟨k, le_rfl, by decide⟩⟩ rfl (by decide) rfl
    (by decide) (by decide) hel hboot (by
      intro j hj
      cases j with
      | false => exact absurd rfl hj
      | true => exact ⟨rfl, by decide⟩)
  exact ⟨k, fun turns => ⟨(hk turns).1 true (by decide), (hk turns).2⟩⟩

end YiOS.Start
