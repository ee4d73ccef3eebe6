import Mathlib.Tactic.IntervalCases
import YiOS.Library.Program
import YiOS.Serial.PlUart

namespace YiOS.Start

open YiOS.Library YiOS.Uart

/-! `early_uart.S`, and the devices that it is before. -/

def uBase : U64 := pBase + 0x00201000

def uDataReg : U64 := uBase

def uFrReg : U64 := uBase + 0x18

def uIbrdReg : U64 := uBase + 0x24

def uFbrdReg : U64 := uBase + 0x28

def uLcrhReg : U64 := uBase + 0x2C

def uCrReg : U64 := uBase + 0x30

def uImscReg : U64 := uBase + 0x38

def gpfsel1 : U64 := pBase + 0x00200004

def gpioPupPdnCntrlReg0 : U64 := pBase + 0x002000E4

/-- The controller, the other registers, and how often `U_FR_REG` has been read. -/
structure Devices where
  uart : Controller
  regs : U64 → BitVec 32
  looked : Nat

/-- `n` characters leave the transmit FIFO. -/
def drain (u : Controller) (n : Nat) : Controller :=
  { u with line := u.line ++ u.txFifo.take n, txFifo := u.txFifo.drop n }

/-- Since `U_FR_REG` was read before, `looks k` characters have left the FIFO when it is
read after `k` times. -/
def devices (depth : Nat) (looks : Nat → Nat) : Device Devices where
  read a d :=
    if a = uFrReg then
      let uart := drain d.uart (looks d.looked)
      (uart.uFrReg depth, { d with uart, looked := d.looked + 1 })
    else
      (d.regs a, d)
  write a v d :=
    if a = uDataReg then
      { d with uart := d.uart.writeUDataReg depth ⟨v.setWidth 8, 0⟩ }
    else
      { d with regs := Function.update d.regs a v }

def earlyUartCode (putUart : U64) : List Code :=
  -- __init_uart:
  [.basic (.movi 1 gpfsel1),
    .basic (.ldrw 0 1),
    .basic (.op (.andw 0 0 0xffff8fff)),
    .basic (.orrwi 0 0 0x4000),
    .basic (.op (.andw 0 0 0xfffc7fff)),
    .basic (.orrwi 0 0 0x20000),
    .basic (.strw 0 1),
    .basic (.movi 1 uCrReg),
    .basic (.strwzr 1),
    .basic (.movi 1 uIbrdReg),
    .basic (.movi 2 26),
    .basic (.strw 2 1),
    .basic (.movi 1 uFbrdReg),
    .basic (.movi 2 3),
    .basic (.strw 2 1),
    .basic (.movi 1 uLcrhReg),
    .basic (.movi 2 0x70),
    .basic (.strw 2 1),
    .basic (.movi 1 uImscReg),
    .basic (.strwzr 1),
    .basic (.movi 1 uCrReg),
    .basic (.movi 2 0x301),
    .basic (.strw 2 1),
    .basic .hint,
    .ret,
    -- put_uart:
    .basic (.movi 1 uFrReg),
    -- 1:
    .basic (.ldrw 2 1),
    .basic (.op (.andw 2 2 0x20)),
    .basic (.cmpw 2 0),
    .bcond .ne 26,
    .basic (.movi 1 uDataReg),
    .basic (.strw 0 1),
    .ret,
    -- put_string_uart:
    .basic (.op (.plain (.mov (.x 4) (.x 0)))),
    .basic (.op (.plain (.mov (.x 6) (.x 30)))),
    -- 1:
    .basic (.ldrb 0 4),
    .bl putUart,
    .basic (.op (.plain (.add (.x 4) (.x 4) 1))),
    .basic (.cmpw 0 0),
    .bcond .ne 35,
    .basic (.op (.plain (.mov (.x 30) (.x 6)))),
    .ret]

def earlyUart (base : U64) : Listing Code := ⟨base, earlyUartCode (base + 4 * 25)⟩

def initUart (base : U64) : U64 := (earlyUart base).label 0

def putUart (base : U64) : U64 := (earlyUart base).label 25

def putStringUart (base : U64) : U64 := (earlyUart base).label 33

/-- The text has been sent, behind all that was sent before. -/
structure Sent (depth : Nat) (text : List Byte) (d d' : Devices) : Prop where
  line : d'.uart.line ++ d'.uart.txFifo = d.uart.line ++ d.uart.txFifo ++ mark 0 text
  rxFifo : d'.uart.rxFifo = d.uart.rxFifo
  regs : d'.regs = d.regs
  fits : d'.uart.txFifo.length ≤ depth

namespace Sent

variable {depth : Nat} {d d' d'' : Devices} {text text' : List Byte}

theorem refl (h : d.uart.txFifo.length ≤ depth) : Sent depth [] d d :=
  ⟨(List.append_nil _).symm, rfl, rfl, h⟩

theorem trans (h : Sent depth text d d') (h' : Sent depth text' d' d'') :
    Sent depth (text ++ text') d d'' where
  line := by rw [h'.line, h.line, mark, mark, mark, List.map_append, ← List.append_assoc]
  rxFifo := h'.rxFifo.trans h.rxFifo
  regs := h'.regs.trans h.regs
  fits := h'.fits

theorem read (looks : Nat → Nat) (h : d.uart.txFifo.length ≤ depth) (a : U64) :
    Sent depth [] d ((devices depth looks).read a d).2 := by
  unfold devices
  by_cases ha : a = uFrReg
  · refine ⟨?_, by simp [ha, drain], by simp [ha], ?_⟩
    · simp [ha, drain, mark]
    · simp [ha, drain]
      omega
  · simp only [if_neg ha]
    exact refl h

theorem write (looks : Nat → Nat) (h : d.uart.txFifo.length < depth) (v : BitVec 32) :
    Sent depth [v.setWidth 8] d ((devices depth looks).write uDataReg v d) := by
  unfold devices
  simp only [if_pos, Controller.writeUDataReg, h]
  refine ⟨by simp [mark], rfl, rfl, ?_⟩
  rw [List.length_append]
  exact h

end Sent

/-- What a call that sends a text leaves. -/
structure Printed (depth : Nat) (clobbered : List (Fin 31)) (text : List Byte)
    (n n' : Platform Devices) : Prop where
  kept : n.Kept clobbered n'
  mem : n'.cpu.mem = n.cpu.mem
  sent : Sent depth text n.dev n'.dev

namespace Printed

variable {depth : Nat} {clobbered more : List (Fin 31)} {text text' : List Byte}
  {n n' n'' : Platform Devices} {bs : List Basic}

theorem trans (h : Printed depth clobbered text n n') (h' : Printed depth clobbered text' n' n'') :
    Printed depth clobbered (text ++ text') n n'' :=
  ⟨h.kept.trans h'.kept, h'.mem.trans h.mem, h.sent.trans h'.sent⟩

theorem mono (h : Printed depth clobbered text n n') (hmore : clobbered ⊆ more) :
    Printed depth more text n n' := ⟨h.kept.mono hmore, h.mem, h.sent⟩

theorem fits (h : Printed depth clobbered text n n') : n'.dev.uart.txFifo.length ≤ depth :=
  h.sent.fits

theorem jump (h : Printed depth clobbered text n n') (pc : U64) :
    Printed depth clobbered text n (n'.on (n'.cpu.b pc)) :=
  ⟨h.kept.trans (.on (.jump pc)), h.mem, h.sent⟩

theorem silent (device : Device Devices) (hfits : n.dev.uart.txFifo.length ≤ depth)
    (hspares : bs.all (Basic.spares clobbered) = true)
    (hsilent : bs.all Basic.silent = true) :
    Printed depth clobbered [] n (n.performs device bs) := by
  obtain ⟨hmem, hdev⟩ := Platform.performs_silent device n bs hsilent
  refine ⟨.performs hspares, hmem, ?_⟩
  rw [hdev]
  exact .refl hfits

end Printed

theorem byte_setWidth_eq_zero (c : Byte) :
    (c.setWidth 64).setWidth 32 = (0 : BitVec 32) ↔ c = 0 := by
  revert c
  decide

section Calls

variable {p : Program} {q : Listing Code} {base : U64} {depth i : Nat} {looks : Nat → Nat}
  {s : U64} {text : List Byte} {n n' : Platform Devices}

theorem uFrReg_room (depth : Nat) (u : Controller) :
    u.uFrReg depth &&& 0x20 = 0 ↔ u.txFifo.length < depth := by
  unfold Controller.uFrReg
  split_ifs with hfull hempty <;> simp [hfull]
  all_goals omega

/-- Lines that neither branch nor send anything. -/
theorem silent_ops (hp : p.Placed) (hq : q ∈ p) (clobbered : List (Fin 31))
    (device : Device Devices) (bs : List Basic) (hpc : n.cpu.pc = q.label i)
    (hcode : (q.code.drop i).take bs.length = bs.map .basic)
    (hlevel : ∀ b ∈ bs, b.level ≤ n.level)
    (hspares : bs.all (Basic.spares clobbered) = true)
    (hsilent : bs.all Basic.silent = true)
    (hfits : n.dev.uart.txFifo.length ≤ depth) :
    p.Reaches device n (n.performs device bs) ∧
      (n.performs device bs).cpu.pc = q.label (i + bs.length) ∧
      Printed depth clobbered [] n (n.performs device bs) := by
  obtain ⟨hreaches, hpc'⟩ := Program.reaches_basics device hp hq bs hpc hcode hlevel
  exact ⟨hreaches, hpc', .silent device hfits hspares hsilent⟩

def lookOps : List Basic := [.ldrw 2 1, .op (.andw 2 2 0x20)]

theorem lookOps_x1 (device : Device Devices) (n : Platform Devices) :
    (n.performs device lookOps).cpu.x 1 = n.cpu.x 1 := by
  simp [lookOps, Platform.perform, Cpu.perform, Cpu.setw]

theorem lookOps_dev (device : Device Devices) (hx1 : n.cpu.x 1 = uFrReg) :
    (n.performs device lookOps).dev = (device.read uFrReg n.dev).2 := by
  simp [lookOps, Platform.perform, Cpu.perform, Cpu.setw, hx1]

theorem lookOps_word (device : Device Devices) (hx1 : n.cpu.x 1 = uFrReg) :
    (n.performs device lookOps).cpu.getw 2 = (device.read uFrReg n.dev).1 &&& 0x20 := by
  simp [lookOps, Platform.perform, Cpu.perform, Cpu.setw, Cpu.getw, hx1]

/-- The loop of `put_uart`, once: it is left when the FIFO has room. -/
theorem putUart_look (looks : Nat → Nat) (hp : p.Placed) (hr : earlyUart base ∈ p)
    (hfits : n.dev.uart.txFifo.length ≤ depth) (hpc : n.cpu.pc = (earlyUart base).label 26)
    (hx1 : n.cpu.x 1 = uFrReg) :
    ∃ n', p.Reaches (devices depth looks) n n' ∧ Printed depth [1, 2] [] n n' ∧
      n'.cpu.x 1 = uFrReg ∧ n'.dev.looked = n.dev.looked + 1 ∧
      n'.dev.uart.txFifo = n.dev.uart.txFifo.drop (looks n.dev.looked) ∧
      n'.cpu.pc =
        (earlyUart base).label (if depth ≤ n'.dev.uart.txFifo.length then 26 else 30) := by
  obtain ⟨hload, hpc₁⟩ := Program.reaches_basics (devices depth looks) hp hr lookOps hpc rfl
    (by simp [lookOps, Basic.level])
  have hdev := lookOps_dev (devices depth looks) hx1
  have hprinted : Printed depth [1, 2] [] n (n.performs (devices depth looks) lookOps) := by
    refine ⟨.performs rfl, rfl, ?_⟩
    rw [hdev]
    exact Sent.read looks hfits uFrReg
  have hx1' := (lookOps_x1 (devices depth looks) n).trans hx1
  have hword := lookOps_word (devices depth looks) hx1
  generalize n.performs (devices depth looks) lookOps = n₁ at *
  obtain ⟨hcompare, hpc₂, hcompared⟩ := silent_ops hp hr [1, 2] (devices depth looks)
    [.cmpw 2 0] hpc₁ rfl (by simp [Basic.level]) rfl rfl hprinted.fits
  have hbranch := Program.reaches_bcond (devices depth looks) hp hr hpc₂ rfl
  have hne : (n₁.performs (devices depth looks) [.cmpw 2 0]).cpu.holds .ne =
      decide (depth ≤ n₁.dev.uart.txFifo.length) := by
    have hflags : (n₁.performs (devices depth looks) [.cmpw 2 0]).cpu.holds .ne =
        !(Flags.ofSub (n₁.cpu.getw 2) 0).z := Cpu.setFlags_holds_ne n₁.cpu _
    rw [hflags, Flags.ofSub_z, hword, hdev, ← decide_not, decide_eq_decide]
    exact (uFrReg_room depth _).not.trans Nat.not_lt
  refine ⟨_, (hload.trans hcompare).trans hbranch, .jump (hprinted.trans hcompared) _,
    hx1', ?_, ?_,
    ?_⟩
  · exact congrArg Devices.looked hdev
  · exact congrArg (fun d => d.uart.txFifo) hdev
  · rw [hne, Platform.on_cpu, Cpu.b_pc]
    simp only [decide_eq_true_eq]
    rfl

/-- There is room for a character, and sooner or later one leaves. -/
structure Drains (depth : Nat) (looks : Nat → Nat) : Prop where
  room : 0 < depth
  leaves : ∀ k, ∃ m, k ≤ m ∧ 0 < looks m

/-- Room is waited for, but not for ever. -/
theorem putUart_wait (hp : p.Placed) (hr : earlyUart base ∈ p) (h : Drains depth looks)
    (hfits : n.dev.uart.txFifo.length ≤ depth) (hpc : n.cpu.pc = (earlyUart base).label 26)
    (hx1 : n.cpu.x 1 = uFrReg) :
    ∃ n', p.Reaches (devices depth looks) n n' ∧ n'.cpu.pc = (earlyUart base).label 30 ∧
      Printed depth [1, 2] [] n n' ∧ n'.dev.uart.txFifo.length < depth := by
  obtain ⟨m, hm, hleaves⟩ := h.leaves n.dev.looked
  apply reaches_loop (fun n => m - n.dev.looked)
    (I := fun n' => n'.cpu.pc = (earlyUart base).label 26 ∧ n'.cpu.x 1 = uFrReg ∧
      Printed depth [1, 2] [] n n' ∧ n'.dev.looked ≤ m)
  · rintro n' ⟨hpc, hx1, hprinted, hlooked⟩
    obtain ⟨n₁, hreaches, hlook, hx1', hnext, hfifo, hpc'⟩ :=
      putUart_look looks hp hr hprinted.fits hpc hx1
    refine ⟨n₁, hreaches, ?_⟩
    by_cases hfull : depth ≤ n₁.dev.uart.txFifo.length
    · rw [if_pos hfull] at hpc'
      have hbefore : n'.dev.looked < m := by
        refine lt_of_le_of_ne hlooked fun heq => ?_
        have hroom := h.room
        have hbound := hprinted.fits
        rw [hfifo, List.length_drop, heq] at hfull
        omega
      exact .inr ⟨⟨hpc', hx1', hprinted.trans hlook, by omega⟩, by omega⟩
    · rw [if_neg hfull] at hpc'
      exact .inl ⟨hpc', hprinted.trans hlook, Nat.lt_of_not_le hfull⟩
  · exact ⟨hpc, hx1, ⟨.refl n, rfl, .refl hfits⟩, hm⟩

theorem putUart_returns (hp : p.Placed) (hr : earlyUart base ∈ p) (h : Drains depth looks)
    (hfits : n.dev.uart.txFifo.length ≤ depth) (hpc : n.cpu.pc = putUart base) :
    ∃ n', p.Reaches (devices depth looks) n n' ∧ n'.cpu.pc = n.cpu.x 30 ∧
      Printed depth [1, 2] [(n.cpu.x 0).setWidth 8] n n' := by
  obtain ⟨hfirst, hpc₁, hprinted₁⟩ := silent_ops hp hr [1, 2] (devices depth looks)
    [.movi 1 uFrReg] hpc rfl (by simp [Basic.level]) rfl rfl hfits
  obtain ⟨n₂, hwait, hpc₂, hprinted₂, hroom⟩ := putUart_wait hp hr h hprinted₁.fits hpc₁
    (by simp [Platform.perform])
  obtain ⟨hwrite, hpc₃⟩ := Program.reaches_basics (devices depth looks) hp hr
    [.movi 1 uDataReg, .strw 0 1] hpc₂ rfl (by simp [Basic.level])
  have hx0 : n₂.cpu.x 0 = n.cpu.x 0 := (hprinted₁.trans hprinted₂).kept.cpu.x 0 (by decide)
  have hprinted₃ : Printed depth [1, 2] [(n.cpu.x 0).setWidth 8] n₂
      (n₂.performs (devices depth looks) [.movi 1 uDataReg, .strw 0 1]) := by
    refine ⟨.performs rfl, rfl, ?_⟩
    have hbyte : (n.cpu.x 0).setWidth 8 = (n₂.cpu.getw 0).setWidth 8 := by
      rw [Cpu.getw, hx0]
      simp
    rw [hbyte]
    exact Sent.write looks hroom (n₂.cpu.getw 0)
  have hret := Program.reaches_ret (devices depth looks) hp hr hpc₃ rfl
  have hprinted := (hprinted₁.trans hprinted₂).trans hprinted₃
  refine ⟨_, ((hfirst.trans hwait).trans hwrite).trans hret, ?_, hprinted.jump _⟩
  exact hprinted.kept.cpu.x 30 (by decide)

theorem putUart_call (hp : p.Placed) (hr : earlyUart base ∈ p) (h : Drains depth looks)
    (hfits : n.dev.uart.txFifo.length ≤ depth) (hq : q ∈ p) (hpc : n.cpu.pc = q.label i)
    (hline : q.code[i]? = some (.bl (putUart base))) :
    ∃ n', p.Reaches (devices depth looks) n n' ∧ n'.cpu.pc = q.label (i + 1) ∧
      Printed depth [1, 2, 30] [(n.cpu.x 0).setWidth 8] n n' := by
  obtain ⟨n₁, hbl, hpc₁, hx30, hkept, hmem, hdev⟩ :=
    Program.reaches_bl (devices depth looks) hp hq hpc hline
  obtain ⟨n₂, hcall, hpc₂, hprinted⟩ := putUart_returns hp hr h (n := n₁)
    (by rwa [hdev]) hpc₁
  rw [hkept.cpu.x 0 (by decide)] at hprinted
  refine ⟨n₂, hbl.trans hcall, hpc₂.trans hx30, ?_, hprinted.mem.trans hmem,
    hdev ▸ hprinted.sent⟩
  exact (hkept.mono (by simp)).trans (hprinted.kept.mono (by simp))

/-- The text lies at `s`, with a zero behind it. -/
structure Loaded (m : Memory) (s : U64) (text : List Byte) : Prop where
  bytes : ∀ i (h : i < text.length), m (s + BitVec.ofNat 64 i) = text[i]
  stop : m (s + BitVec.ofNat 64 text.length) = 0
  nonzero : 0 ∉ text

namespace Loaded

theorem length_lt {m : Memory} (h : Loaded m s text) : text.length < 2 ^ 64 := by
  by_contra hlong
  have hlt : text.length - 2 ^ 64 < text.length := by omega
  have hsame : BitVec.ofNat 64 (text.length - 2 ^ 64) = BitVec.ofNat 64 text.length := by
    apply BitVec.eq_of_toNat_eq
    rw [BitVec.toNat_ofNat, BitVec.toNat_ofNat]
    omega
  have hzero := h.bytes _ hlt
  rw [hsame, h.stop] at hzero
  exact h.nonzero (hzero ▸ List.getElem_mem hlt)

end Loaded

/-- The next character, and whether the last one was the zero. -/
def nextOps : List Basic := [.op (.plain (.add (.x 4) (.x 4) 1)), .cmpw 0 0]

theorem nextOps_x4 (device : Device Devices) (n : Platform Devices) :
    (n.performs device nextOps).cpu.x 4 = n.cpu.x 4 + 1 := by
  simp [nextOps, Platform.perform, Cpu.perform, Cpu.act]

theorem nextOps_ne (device : Device Devices) {c : Byte} (hx0 : n.cpu.x 0 = c.setWidth 64) :
    (n.performs device nextOps).cpu.holds .ne = !decide (c = 0) := by
  have hflags : (n.performs device nextOps).cpu.holds .ne =
      !(Flags.ofSub (n.cpu.getw 0) 0).z := Cpu.setFlags_holds_ne _ _
  rw [hflags, Flags.ofSub_z, Cpu.getw, hx0]
  exact congrArg (!·) (decide_eq_decide.mpr (byte_setWidth_eq_zero c))

/-- The loop of `put_string_uart`, once. -/
theorem putStringUart_byte (hp : p.Placed) (hr : earlyUart base ∈ p)
    (h : Drains depth looks)
    (hfits : n.dev.uart.txFifo.length ≤ depth)
    (hpc : n.cpu.pc = (earlyUart base).label 35) :
    ∃ n', p.Reaches (devices depth looks) n n' ∧
      n'.cpu.pc = (earlyUart base).label (if n.cpu.mem (n.cpu.x 4) = 0 then 40 else 35) ∧
      n'.cpu.x 4 = n.cpu.x 4 + 1 ∧ n'.cpu.x 6 = n.cpu.x 6 ∧
      Printed depth [0, 1, 2, 4, 6, 30] [n.cpu.mem (n.cpu.x 4)] n n' := by
  obtain ⟨hload, hpc₁, hprinted₁⟩ :=
    silent_ops hp hr [0] (devices depth looks) [.ldrb 0 4] hpc rfl
    (by simp [Basic.level]) rfl rfl hfits
  have hbyte : (n.performs (devices depth looks) [.ldrb 0 4]).cpu.x 0 =
      (n.cpu.mem (n.cpu.x 4)).setWidth 64 := by
    simp [Platform.perform]
  generalize n.performs (devices depth looks) [.ldrb 0 4] = n₁ at *
  obtain ⟨n₂, hcall, hpc₂, hprinted₂⟩ := putUart_call hp hr h hprinted₁.fits hr hpc₁ rfl
  have hx0 : n₂.cpu.x 0 = (n.cpu.mem (n.cpu.x 4)).setWidth 64 := by
    rw [hprinted₂.kept.cpu.x 0 (by decide), hbyte]
  have hchar : (n₁.cpu.x 0).setWidth 8 = n.cpu.mem (n.cpu.x 4) := by
    rw [hbyte]
    simp
  rw [hchar] at hprinted₂
  have hloaded : Printed depth [0, 1, 2, 4, 6, 30] [] n n₁ := hprinted₁.mono (by simp)
  have hsent := hloaded.trans (hprinted₂.mono (by simp))
  have hx4 : n₂.cpu.x 4 = n.cpu.x 4 :=
    (hprinted₂.kept.cpu.x 4 (by decide)).trans (hprinted₁.kept.cpu.x 4 (by decide))
  have hx6 : n₂.cpu.x 6 = n.cpu.x 6 :=
    (hprinted₂.kept.cpu.x 6 (by decide)).trans (hprinted₁.kept.cpu.x 6 (by decide))
  obtain ⟨hnext, hpc₃, hprinted₃⟩ :=
    silent_ops hp hr [4] (devices depth looks) nextOps hpc₂ rfl
    (by simp [nextOps, Basic.level]) rfl rfl hsent.fits
  have hbranch := Program.reaches_bcond (devices depth looks) hp hr hpc₃ rfl
  have hne := nextOps_ne (devices depth looks) hx0
  have hx4' := (nextOps_x4 (devices depth looks) n₂).trans (congrArg (· + 1) hx4)
  have hx6' := (hprinted₃.kept.cpu.x 6 (by decide)).trans hx6
  have hall := hsent.trans (hprinted₃.mono (by simp))
  refine ⟨_, ((hload.trans hcall).trans hnext).trans hbranch, ?_, hx4', hx6', hall.jump _⟩
  rw [hne, Platform.on_cpu, Cpu.b_pc]
  simp [nextOps]

/-- The characters up to the zero have gone out, and it as well. -/
theorem putStringUart_loop (hp : p.Placed) (hr : earlyUart base ∈ p)
    (h : Drains depth looks)
    (htext : Loaded n.cpu.mem s text) (hprinted : Printed depth [0, 1, 2, 4, 6, 30] [] n n')
    (hpc : n'.cpu.pc = (earlyUart base).label 35) (hx4 : n'.cpu.x 4 = s) :
    ∃ n'', p.Reaches (devices depth looks) n' n'' ∧ n''.cpu.pc = (earlyUart base).label 40 ∧
      n''.cpu.x 6 = n'.cpu.x 6 ∧ Printed depth [0, 1, 2, 4, 6, 30] (text ++ [0]) n n'' := by
  apply reaches_loop (fun m => text.length - (m.cpu.x 4 - s).toNat)
    (I := fun m => m.cpu.pc = (earlyUart base).label 35 ∧ m.cpu.x 6 = n'.cpu.x 6 ∧
      ∃ k, k ≤ text.length ∧ k < 2 ^ 64 ∧ m.cpu.x 4 = s + BitVec.ofNat 64 k ∧
        Printed depth [0, 1, 2, 4, 6, 30] (text.take k) n m)
  · rintro m ⟨hpc, hx6, k, hk, hsmall, hx4, hprinted⟩
    obtain ⟨m', hreaches, hpc', hx4', hx6', hprinted'⟩ :=
      putStringUart_byte hp hr h hprinted.fits hpc
    refine ⟨m', hreaches, ?_⟩
    have hoffset : ∀ j, j < 2 ^ 64 → (s + BitVec.ofNat 64 j - s).toNat = j := by
      intro j hj
      rw [add_sub_cancel_left, BitVec.toNat_ofNat, Nat.mod_eq_of_lt hj]
    rw [hprinted.mem, hx4] at hpc' hprinted'
    cases Nat.lt_or_eq_of_le hk with
    | inl hlt =>
        have hbyte := htext.bytes k hlt
        have hnonzero : text[k] ≠ 0 := fun heq => htext.nonzero (heq ▸ List.getElem_mem hlt)
        rw [hbyte, if_neg hnonzero] at hpc'
        rw [hbyte] at hprinted'
        have hnext : m'.cpu.x 4 = s + BitVec.ofNat 64 (k + 1) := by
          rw [hx4', hx4, BitVec.add_assoc, BitVec.ofNat_add]
          rfl
        have hsent := hprinted.trans hprinted'
        rw [← List.take_succ_eq_append_getElem hlt] at hsent
        have hlong := htext.length_lt
        refine .inr ⟨⟨hpc', hx6'.trans hx6, k + 1, hlt, by omega, hnext, hsent⟩, ?_⟩
        rw [hnext, hx4, hoffset k (by omega), hoffset (k + 1) (by omega)]
        omega
    | inr heq =>
        have hbyte := heq ▸ htext.stop
        rw [hbyte, if_pos rfl] at hpc'
        rw [hbyte] at hprinted'
        have hsent := hprinted.trans hprinted'
        rw [heq, List.take_length] at hsent
        exact .inl ⟨hpc', hx6'.trans hx6, hsent⟩
  · exact ⟨hpc, rfl, 0, Nat.zero_le _, by decide, by simp [hx4], by simpa using hprinted⟩

def saveOps : List Basic :=
  [.op (.plain (.mov (.x 4) (.x 0))), .op (.plain (.mov (.x 6) (.x 30)))]

theorem saveOps_regs (device : Device Devices) (n : Platform Devices) :
    (n.performs device saveOps).cpu.x 4 = n.cpu.x 0 ∧
      (n.performs device saveOps).cpu.x 6 = n.cpu.x 30 := by
  simp [saveOps, Platform.perform, Cpu.perform, Cpu.act]

/-- The text goes out with its zero. -/
theorem putStringUart_call (hp : p.Placed) (hr : earlyUart base ∈ p)
    (h : Drains depth looks)
    (hfits : n.dev.uart.txFifo.length ≤ depth) (hq : q ∈ p) (hpc : n.cpu.pc = q.label i)
    (hline : q.code[i]? = some (.bl (putStringUart base)))
    (htext : Loaded n.cpu.mem (n.cpu.x 0) text) :
    ∃ n', p.Reaches (devices depth looks) n n' ∧ n'.cpu.pc = q.label (i + 1) ∧
      Printed depth [0, 1, 2, 4, 6, 30] (text ++ [0]) n n' := by
  obtain ⟨n₁, hbl, hpc₁, hx30, hkept, hmem, hdev⟩ :=
    Program.reaches_bl (devices depth looks) hp hq hpc hline
  have hprinted₁ : Printed depth [0, 1, 2, 4, 6, 30] [] n n₁ :=
    ⟨hkept.mono (by simp), hmem, by rw [hdev]; exact .refl hfits⟩
  obtain ⟨hfirst, hpc₂, hprinted₂⟩ :=
    silent_ops hp hr [0, 1, 2, 4, 6, 30] (devices depth looks)
    saveOps hpc₁ rfl (by simp [saveOps, Basic.level]) rfl rfl hprinted₁.fits
  obtain ⟨hx4, hx6⟩ := saveOps_regs (devices depth looks) n₁
  rw [hkept.cpu.x 0 (by decide)] at hx4
  rw [hx30] at hx6
  generalize n₁.performs (devices depth looks) saveOps = n₂ at *
  obtain ⟨n₃, hloop, hpc₃, hx6', hprinted₃⟩ := putStringUart_loop hp hr h htext
    (hprinted₁.trans hprinted₂) hpc₂ hx4
  obtain ⟨hlast, hpc₄, hprinted₄⟩ :=
    silent_ops hp hr [0, 1, 2, 4, 6, 30] (devices depth looks)
    [.op (.plain (.mov (.x 30) (.x 6)))] hpc₃ rfl (by simp [Basic.level]) rfl rfl hprinted₃.fits
  have hret := Program.reaches_ret (devices depth looks) hp hr hpc₄ rfl
  refine ⟨_, (((hbl.trans hfirst).trans hloop).trans hlast).trans hret, ?_, ?_⟩
  · rw [← hx6, ← hx6']
    simp [Platform.perform, Cpu.perform, Cpu.act, Cpu.ret]
  · have hprinted := hprinted₃.trans hprinted₄
    rw [List.append_nil] at hprinted
    exact hprinted.jump _

/-- `__init_uart` up to its return. -/
def initUartOps : List Basic :=
  [.movi 1 gpfsel1, .ldrw 0 1, .op (.andw 0 0 0xffff8fff), .orrwi 0 0 0x4000,
    .op (.andw 0 0 0xfffc7fff), .orrwi 0 0 0x20000, .strw 0 1, .movi 1 uCrReg, .strwzr 1,
    .movi 1 uIbrdReg, .movi 2 26, .strw 2 1, .movi 1 uFbrdReg, .movi 2 3, .strw 2 1,
    .movi 1 uLcrhReg, .movi 2 0x70, .strw 2 1, .movi 1 uImscReg, .strwzr 1, .movi 1 uCrReg,
    .movi 2 0x301, .strw 2 1, .hint]

/-- Both pins of the controller are its own, the others as they were; it sends and receives,
with FIFOs and without interrupts. -/
structure Configured (regs regs' : U64 → BitVec 32) : Prop where
  gpfsel1 : regs' gpfsel1 = (regs gpfsel1 &&& 0xfffc0fff) ||| 0x24000
  ibrd : regs' uIbrdReg = 26
  fbrd : regs' uFbrdReg = 3
  lcrh : regs' uLcrhReg = 0x70
  imsc : regs' uImscReg = 0
  cr : regs' uCrReg = 0x301
  others : ∀ a, a ∉ [Start.gpfsel1, uIbrdReg, uFbrdReg, uLcrhReg, uImscReg, uCrReg] →
    regs' a = regs a

theorem selector_eq (v : BitVec 32) :
    (((v &&& 0xffff8fff) ||| 0x4000) &&& 0xfffc7fff) ||| 0x20000 =
      (v &&& 0xfffc0fff) ||| 0x24000 := by
  apply BitVec.eq_of_getLsbD_eq
  intro i hi
  simp only [BitVec.getLsbD_or, BitVec.getLsbD_and]
  interval_cases i <;> simp

theorem selector_again (v : BitVec 32) :
    (((v &&& 0xfffc0fff) ||| 0x24000) &&& 0xfffc0fff) ||| 0x24000 =
      (v &&& 0xfffc0fff) ||| 0x24000 := by
  rw [BitVec.and_or_distrib_right, BitVec.and_assoc, BitVec.and_self, BitVec.or_assoc]
  rfl

/-- What `__init_uart` stores, one after the other. -/
def initUartRegs (regs : U64 → BitVec 32) : U64 → BitVec 32 :=
  let selector := (((regs gpfsel1 &&& 0xffff8fff) ||| 0x4000) &&& 0xfffc7fff) ||| 0x20000
  [(gpfsel1, selector), (uCrReg, 0), (uIbrdReg, 26), (uFbrdReg, 3), (uLcrhReg, 0x70),
    (uImscReg, 0), (uCrReg, 0x301)].foldl (fun regs s => Function.update regs s.1 s.2) regs

theorem initUartRegs_configured (regs : U64 → BitVec 32) :
    Configured regs (initUartRegs regs) where
  gpfsel1 := selector_eq (regs Start.gpfsel1)
  ibrd := rfl
  fbrd := rfl
  lcrh := rfl
  imsc := rfl
  cr := rfl
  others := by
    intro a ha
    simp only [List.mem_cons, not_or] at ha
    obtain ⟨hpins, hibrd, hfbrd, hlcrh, himsc, hcr, _⟩ := ha
    simp [initUartRegs, hpins, hibrd, hfbrd, hlcrh, himsc, hcr]

/-- `uart_init`, which the kernel calls later on. -/
def uartInit (regs : U64 → BitVec 32) : U64 → BitVec 32 :=
  let selector := regs gpfsel1
  let selector := selector &&& ~~~(7#32 <<< 12)
  let selector := selector ||| 4#32 <<< 12
  let selector := selector &&& ~~~(7#32 <<< 15)
  let selector := selector ||| 4#32 <<< 15
  let regs := Function.update regs gpfsel1 selector
  let selector := regs gpioPupPdnCntrlReg0
  let selector := selector ||| (0x2#32 <<< 30 ||| 0x2#32 <<< 28)
  let regs := Function.update regs gpioPupPdnCntrlReg0 selector
  let regs := Function.update regs uCrReg 0
  let regs := Function.update regs uIbrdReg 26
  let regs := Function.update regs uFbrdReg 3
  let regs := Function.update regs uLcrhReg (1 <<< 4 ||| 3 <<< 5)
  let regs := Function.update regs uImscReg 0
  Function.update regs uCrReg (1 ||| 1 <<< 8 ||| 1 <<< 9)

/-- What the kernel does to the controller is what has been done to it before; it also pulls
the pins down. -/
theorem uartInit_eq (regs : U64 → BitVec 32) :
    uartInit regs = Function.update (initUartRegs regs) gpioPupPdnCntrlReg0
      (regs gpioPupPdnCntrlReg0 ||| 0xa0000000) := by
  have hpins : gpioPupPdnCntrlReg0 ≠ gpfsel1 := by decide
  have hcr : gpioPupPdnCntrlReg0 ≠ uCrReg := by decide
  unfold uartInit initUartRegs
  simp only [List.foldl_cons, List.foldl_nil, Function.update_of_ne hpins]
  rw [Function.update_comm hcr, Function.update_comm (by decide : _ ≠ uIbrdReg),
    Function.update_comm (by decide : _ ≠ uFbrdReg),
    Function.update_comm (by decide : _ ≠ uLcrhReg),
    Function.update_comm (by decide : _ ≠ uImscReg), Function.update_comm hcr]
  rfl

namespace Configured

variable {regs regs' : U64 → BitVec 32}

theorem initUartRegs (h : Configured regs regs') : Start.initUartRegs regs' = regs' := by
  have hagain := initUartRegs_configured regs'
  funext a
  by_cases ha : a ∈ [Start.gpfsel1, uIbrdReg, uFbrdReg, uLcrhReg, uImscReg, uCrReg]
  · simp only [List.mem_cons, List.not_mem_nil, or_false] at ha
    obtain rfl | rfl | rfl | rfl | rfl | rfl := ha
    · rw [hagain.gpfsel1, h.gpfsel1, selector_again]
    · rw [hagain.ibrd, h.ibrd]
    · rw [hagain.fbrd, h.fbrd]
    · rw [hagain.lcrh, h.lcrh]
    · rw [hagain.imsc, h.imsc]
    · rw [hagain.cr, h.cr]
  · exact hagain.others a ha

/-- `uart_init` finds the controller as it leaves it. -/
theorem uartInit (h : Configured regs regs') :
    Start.uartInit regs' = Function.update regs' gpioPupPdnCntrlReg0
      (regs' gpioPupPdnCntrlReg0 ||| 0xa0000000) := by
  rw [uartInit_eq, h.initUartRegs]

end Configured

theorem write_other (h : a ≠ uDataReg) (v : BitVec 32) (d : Devices) :
    (devices depth looks).write a v d = { d with regs := Function.update d.regs a v } := by
  simp only [devices, if_neg h]

theorem initUartOps_dev (depth : Nat) (looks : Nat → Nat) (n : Platform Devices) :
    (n.performs (devices depth looks) initUartOps).dev.uart = n.dev.uart ∧
      Configured n.dev.regs (n.performs (devices depth looks) initUartOps).dev.regs := by
  have hread : (devices depth looks).read gpfsel1 n.dev = (n.dev.regs gpfsel1, n.dev) := by
    simp only [devices, if_neg (by decide : ¬ gpfsel1 = uFrReg)]
  have hdev : (n.performs (devices depth looks) initUartOps).dev =
      { n.dev with regs := initUartRegs n.dev.regs } := by
    simp [initUartRegs, initUartOps, Platform.perform, Cpu.perform, Cpu.setw,
      Cpu.getw, hread,
      write_other (by decide : gpfsel1 ≠ uDataReg), write_other
        (by decide : uCrReg ≠ uDataReg),
      write_other (by decide : uIbrdReg ≠ uDataReg), write_other
        (by decide : uFbrdReg ≠ uDataReg),
      write_other (by decide : uLcrhReg ≠ uDataReg), write_other
        (by decide : uImscReg ≠ uDataReg)]
  rw [hdev]
  exact ⟨rfl, initUartRegs_configured n.dev.regs⟩

theorem initUart_call (depth : Nat) (looks : Nat → Nat) (hp : p.Placed)
    (hr : earlyUart base ∈ p) (hq : q ∈ p) (hpc : n.cpu.pc = q.label i)
    (hline : q.code[i]? = some (.bl (initUart base))) :
    ∃ n', p.Reaches (devices depth looks) n n' ∧ n'.cpu.pc = q.label (i + 1) ∧
      n.Kept [0, 1, 2, 30] n' ∧ n'.cpu.mem = n.cpu.mem ∧ n'.dev.uart = n.dev.uart ∧
      Configured n.dev.regs n'.dev.regs := by
  obtain ⟨n₁, hbl, hpc₁, hx30, hkept, hmem, hdev⟩ :=
    Program.reaches_bl (devices depth looks) hp hq hpc hline
  obtain ⟨hops, hpc₂⟩ := Program.reaches_basics
    (devices depth looks) hp hr initUartOps hpc₁ rfl
    (by simp [initUartOps, Basic.level])
  have hret := Program.reaches_ret (devices depth looks) hp hr hpc₂ rfl
  have hkept₂ : n₁.Kept [0, 1, 2] (n₁.performs (devices depth looks) initUartOps) :=
    .performs rfl
  obtain ⟨huart, hregs⟩ := initUartOps_dev depth looks n₁
  refine ⟨_, (hbl.trans hops).trans hret, ?_, ?_, ?_, ?_, ?_⟩
  · rw [← hx30]
    exact hkept₂.cpu.x 30 (by decide)
  · exact ((hkept.mono (by simp)).trans (hkept₂.mono (by simp))).trans (.on (.jump _))
  · exact hmem
  · exact huart.trans (congrArg Devices.uart hdev)
  · exact hdev ▸ hregs

end Calls

end YiOS.Start
