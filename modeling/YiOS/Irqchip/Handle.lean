import Mathlib.Logic.Relation
import YiOS.Irqchip.Init
import YiOS.Library.Rearmed

namespace YiOS.Gic

open YiOS.Library

/-! `gic_handle_irq` and `timer.c`, over whole runs of the controller and of the timer. -/

def giccIarIntIdMask : U32 := 0x3ff
def giccIntSpurious : U32 := 1023
def genericTimerIrq : U32 := 30
def cntPnsIrq : U32 := 1 <<< 1
def timerCntrl0 : U64 := 0x40

/-- `val` of `timer.c`. -/
def timerVal : U32 := 62500000

/-- The counter, and `cntp_cval_el0` and the enable bit of `cntp_ctl_el0`. -/
structure Timer where
  now : Nat
  cval : Nat
  enabled : Bool

namespace Timer

def genericTimerInit (t : Timer) : Timer := { t with enabled := true }

/-- `cntp_tval_el0` is a signed offset from the counter. -/
def genericTimerReset (val : U32) (t : Timer) : Timer :=
  { t with cval := (t.now + val.toInt).toNat }

/-- Whether the timer asks for an interrupt. -/
def line (t : Timer) : Bool := t.enabled && decide (t.cval ≤ t.now)

@[simp] theorem genericTimerReset_cval (t : Timer) :
    (t.genericTimerReset timerVal).cval = t.now + 62500000 := rfl

end Timer

def Machine.gicGetCpuBase (m : Machine) : U64 := (m.gicData ⟨0, Nat.one_pos⟩).rawCpuBase

/-- A register of the CPU interface. -/
def Machine.cpu (m : Machine) (off : U64) : U32 := m.rest (m.gicGetCpuBase + off)

/-- Where `gic_handle_irq` stands. -/
inductive Point where
  | intack
  | handle (irqnr : U32)
  | eoi (irqnr : U32)

/-- `lines` are the other ids that are pending for this processor. `active` are the ones
that have been acknowledged and not completed, latest first, and `ticks` the times at which
`handle_timer_irq` has run. -/
structure Board where
  gic : Machine
  timer : Timer
  lines : Set Nat
  active : List Nat
  masked : Bool
  point : Option Point
  ticks : List Nat

namespace Board

def enableTimerInterrupt (armLocalBase : U64) (b : Board) : Board :=
  { b with gic := b.gic.writel cntPnsIrq (armLocalBase + timerCntrl0) }

def timerInit (armLocalBase : U64) (b : Board) : Board :=
  let b := { b with timer := b.timer.genericTimerInit }
  let b := { b with timer := b.timer.genericTimerReset timerVal }
  let b := { b with gic := b.gic.gicv2UnmaskIrq genericTimerIrq }
  b.enableTimerInterrupt armLocalBase

/-- What it prints is left out. -/
def handleTimerIrq (b : Board) : Board :=
  { b with timer := b.timer.genericTimerReset timerVal, ticks := b.timer.now :: b.ticks }

/-- An id is pending and enabled. -/
def Requests (b : Board) (id : Nat) : Prop :=
  id < 1020 ∧ id ∈ b.gic.dist.enable.ids ∧
    if id = genericTimerIrq.toNat then b.timer.line = true else id ∈ b.lines

def priority (b : Board) (id : Nat) : BitVec 8 := b.gic.dist.pri.field 8 id

/-- The controller signals an id to the processor: its priority is high enough for the mask,
and higher than that of all that is active. -/
structure Signals (b : Board) (id : Nat) : Prop where
  requests : b.Requests id
  on : b.gic.dist.ctrl.getLsbD 0 = true ∧ (b.gic.cpu gicCpuCtrl).getLsbD 0 = true
  mask : (b.priority id).toNat < (b.gic.cpu gicCpuPrimask).toNat
  running : ∀ id' ∈ b.active, (b.priority id).toNat < (b.priority id').toNat

/-- A read of `GIC_CPU_INTACK`: the value, and what is active then. -/
inductive Intack (b : Board) : U32 → List Nat → Prop
  | interrupt {id : Nat} : b.Signals id →
      (∀ id', b.Signals id' → (b.priority id).toNat ≤ (b.priority id').toNat) →
      Intack b (BitVec.ofNat 32 id) (id :: b.active)
  | spurious : (∀ id, ¬ b.Signals id) → Intack b giccIntSpurious b.active

/-- A write of `GIC_CPU_EOI`. What is not the latest active id is not to be written; then
anything may be active. -/
inductive Eoi : List Nat → U32 → List Nat → Prop
  | spurious {active : List Nat} : Eoi active giccIntSpurious active
  | complete {irq : U32} {active : List Nat} : Eoi (irq.toNat :: active) irq active
  | unpredictable {active active' : List Nat} {irq : U32} : irq ≠ giccIntSpurious →
      active.head? ≠ some irq.toNat → Eoi active irq active'

/-- The accesses and the call of `gic_handle_irq`, one by one. -/
inductive GicHandleIrq : Board → Board → Prop
  | intack {b : Board} {irqstat : U32} {active : List Nat} : b.point = some .intack →
      b.Intack irqstat active →
      GicHandleIrq b { b with active, point := some (.handle (irqstat &&& giccIarIntIdMask)) }
  | timer {b : Board} {irqnr : U32} :
      b.point = some (.handle irqnr) → irqnr = genericTimerIrq →
      GicHandleIrq b { b.handleTimerIrq with point := some (.eoi irqnr) }
  | other {b : Board} {irqnr : U32} :
      b.point = some (.handle irqnr) → irqnr ≠ genericTimerIrq →
      GicHandleIrq b { b with point := some (.eoi irqnr) }
  | eoi {b : Board} {irqnr : U32} {active : List Nat} : b.point = some (.eoi irqnr) →
      Eoi b.active irqnr active → GicHandleIrq b { b with active, point := none }

/-- Time passes, with the timer due for no more than `latency`; other sources come and go;
the kernel masks interrupts or ids of its own; an interrupt is taken; `gic_handle_irq` goes
on. -/
inductive Step (latency : Nat) : Board → Board → Prop
  | elapse {b : Board} (d : Nat) : b.timer.now + d ≤ b.timer.cval + latency →
      Step latency b { b with timer := { b.timer with now := b.timer.now + d } }
  | lines {b : Board} (lines : Set Nat) : Step latency b { b with lines }
  | mask {b : Board} (masked : Bool) : b.point = none → Step latency b { b with masked }
  | call {b : Board} (call : Call) : call.irq < 1020 → call.irq ≠ genericTimerIrq.toNat →
      Step latency b { b with gic := call.run b.gic }
  | take {b : Board} {id : Nat} : b.point = none → b.masked = false → b.Signals id →
      Step latency b { b with masked := true, point := some .intack }
  | driver {b b' : Board} : GicHandleIrq b b' → Step latency b b'

/-- Runs from `gic_init` and `timer_init` on, which `main` calls with the addresses of the
board. -/
inductive Run (armLocalBase : U64) (latency start : Nat) : Board → Prop
  | start {b : Board} : b.gic.distAt = gicV2DistributorBase armLocalBase →
      b.timer.now = start →
      b.active = [] → b.point = none → b.ticks = [] →
      Run armLocalBase latency start
        (timerInit armLocalBase { b with
          gic := (gicInit 0 b.gic.distAt (gicV2CpuInterfaceBase armLocalBase) b.gic).1 })
  | step {b b' : Board} : Run armLocalBase latency start b → Step latency b b' →
      Run armLocalBase latency start b'

end Board

/-- What `gic_init` leaves, as far as the interrupt of the timer depends on it. -/
structure Machine.Configured (armLocalBase : U64) (m : Machine) : Prop where
  distAt : m.distAt = gicV2DistributorBase armLocalBase
  distBase : m.gicGetDistBase = m.distAt
  cpuBase : m.gicGetCpuBase = gicV2CpuInterfaceBase armLocalBase
  ctrl : m.dist.ctrl = gicdEnable
  pri : m.dist.pri.field 8 genericTimerIrq.toNat = 0xa0
  cpuCtrl : m.cpu gicCpuCtrl = giccEnable
  cpuPrimask : m.cpu gicCpuPrimask = giccIntPriThreshold

section Init

variable {gic : GicChipData} {m : Machine}

/-- The priorities of the ids that are the processor's own. -/
theorem field_priStores (dist : Distributor) (hi : i < 32) :
    (priStores.foldl Distributor.apply dist).pri.field 8 i = 0xa0 := by
  have hbyte : ∀ k < 4, (0xa0a0a0a0 : U32).extractLsb' (k * 8) 8 = 0xa0 := by decide
  have hword : ∀ (dist : Distributor) (c : Nat), (Distributor.apply dist
      ⟨0xa0a0a0a0, .pri, c * 4 / 4⟩).pri.field 8 i =
        if i / 4 = c / 4 then 0xa0 else dist.pri.field 8 i := by
    intro dist c
    have hoff : c * 4 / 4 / 4 = c / 4 := by omega
    change (dist.pri.put (c * 4 / 4 / 4) 0xa0a0a0a0).field 8 i = _
    rw [hoff, Bank.field_put, hbyte _ (Nat.mod_lt i (by decide))]
  refine foldl_settles (P := fun dist => dist.pri.field 8 i = 0xa0) ?_ ?_ dist
  · intro s hs dist hdist
    obtain ⟨c, -, rfl⟩ := List.mem_map.mp hs
    rw [hword]
    split
    · rfl
    · exact hdist
  · have hturn : ∃ c ∈ counters 0 32 4, c / 4 = i / 4 :=
      exists_counter (by decide) (by decide) (Nat.zero_le i) hi
    obtain ⟨c, hc, hsame⟩ := hturn
    refine ⟨_, List.mem_map.mpr ⟨c, hc, rfl⟩, ?_⟩
    intro dist
    rw [hword, if_pos hsame.symm]

theorem ctrl_loopStores (n : Nat) (cpumask : U32) (dist : Distributor) :
    ((loopStores n cpumask).foldl Distributor.apply dist).ctrl = gicdEnable := by
  rw [loopStores, List.foldl_append]
  rfl

theorem gicCpuInit_cpu (gic : GicChipData) (hbase : gic.rawDistBase = m.distAt)
    (hapart : Apart m.distAt 0x1000 gic.rawCpuBase 0x1000) :
    gicCpuInit gic m =
      { m with
        dist := priStores.foldl Distributor.apply m.dist
        rest := Function.update (Function.update m.rest (gic.rawCpuBase + gicCpuPrimask)
          giccIntPriThreshold) (gic.rawCpuBase + gicCpuCtrl) giccEnable } := by
  have hcpu : ∀ (m' : Machine) (v : U32) (off : U64), off.toNat < 0x1000 →
    m'.distAt = m.distAt →
      m'.writel v (gic.rawCpuBase + off) =
        { m' with rest := Function.update m'.rest (gic.rawCpuBase + off) v } := by
    intro m' v off hoff hat
    refine m'.writel_of_not_within v fun hin => ?_
    rw [hat] at hin
    exact hapart _ hin (Memory.within_add _ hoff)
  rw [gicCpuInit, hbase, Machine.foldl_store holds_priStores]
  rw [hcpu _ _ gicCpuPrimask (by decide), hcpu _ _ gicCpuCtrl (by decide)]
  · rfl
  · rfl

theorem gicInit_cpu (chip : Fin armGicMaxNr) {cpuBase : U64}
    (hapart : Apart m.distAt 0x1000 cpuBase 0x1000) :
    ∃ cpumask, (gicInit chip m.distAt cpuBase m).1 =
      { m with
        dist := priStores.foldl Distributor.apply
          ((loopStores (irqCount m.dist.ctr).toNat cpumask).foldl Distributor.apply
            { m.dist with ctrl := gicdDisable })
        rest := Function.update (Function.update m.rest (cpuBase + gicCpuPrimask)
          giccIntPriThreshold) (cpuBase + gicCpuCtrl) giccEnable
        gicData := fun _ => ⟨m.distAt, cpuBase, irqCount m.dist.ctr⟩ } := by
  have hctr : GicDist.ctr.Holds 0 := by decide
  have hread : m.readl (GicDist.ctr.address m.distAt 0) = m.dist.ctr := m.readl_address hctr
  have hdata : ∀ gic : GicChipData, Function.update m.gicData chip gic = fun _ => gic := by
    intro gic
    funext other
    rw [Subsingleton.elim other chip, Function.update_self]
  obtain ⟨cpumask, -, hdist⟩ := gicDistInit_dist ⟨m.distAt, cpuBase, irqCount m.dist.ctr⟩
    (m := { m with gicData := fun _ => ⟨m.distAt, cpuBase, irqCount m.dist.ctr⟩ }) rfl
    (irqCount_le m.dist.ctr)
  refine ⟨cpumask, ?_⟩
  simp only [gicInit, hread, hdata]
  rw [gicCpuInit_cpu _ (by rw [hdist]) (by rw [hdist]; exact hapart), hdist]

end Init

namespace Machine.Configured

variable {armLocalBase : U64} {m : Machine}

theorem gicInit (hat : m.distAt = gicV2DistributorBase armLocalBase) :
    Configured armLocalBase
      (Gic.gicInit 0 m.distAt (gicV2CpuInterfaceBase armLocalBase) m).1 := by
  have hapart : Apart m.distAt 0x1000 (gicV2CpuInterfaceBase armLocalBase) 0x1000 := by
    rw [hat]
    exact apart_interfaces armLocalBase
  obtain ⟨cpumask, hinit⟩ := gicInit_cpu 0 hapart
  have hctrl := ctrl_loopStores (irqCount m.dist.ctr).toNat cpumask
    { m.dist with ctrl := gicdDisable }
  rw [hinit]
  generalize (loopStores _ cpumask).foldl Distributor.apply _ = dist at hctrl ⊢
  have hfield := field_priStores dist (by decide : genericTimerIrq.toNat < 32)
  obtain ⟨pri, hpri⟩ := foldl_priStores dist
  rw [hpri] at hfield ⊢
  have hne : gicV2CpuInterfaceBase armLocalBase + gicCpuPrimask ≠
      gicV2CpuInterfaceBase armLocalBase + gicCpuCtrl := by
    unfold gicCpuPrimask gicCpuCtrl
    bv_omega
  refine ⟨hat, rfl, rfl, hctrl, hfield, ?_, ?_⟩
  · simp only [Machine.cpu, Machine.gicGetCpuBase, Function.update_self]
  · simp only [Machine.cpu, Machine.gicGetCpuBase, Function.update_of_ne hne,
      Function.update_self]

/-- A call masks or unmasks its id, and the rest stays. -/
theorem call (h : Configured armLocalBase m) {call : Call} (hirq : call.irq < 1020) :
    Configured armLocalBase (call.run m) ∧
      (call.run m).dist.enable.ids = call.change m.dist.enable.ids := by
  obtain ⟨enable, hrun, hids⟩ := Call.run_eq h.distBase hirq
  rw [hrun]
  exact ⟨⟨h.distAt, h.distBase, h.cpuBase, h.ctrl, h.pri, h.cpuCtrl, h.cpuPrimask⟩, hids⟩

/-- `TIMER_CNTRL0` is a register of neither interface. -/
theorem timerControl (h : Configured armLocalBase m) (v : U32) :
    Configured armLocalBase (m.writel v (armLocalBase + timerCntrl0)) ∧
      (m.writel v (armLocalBase + timerCntrl0)).dist = m.dist := by
  have hcontrol : ¬ Within m.distAt 0x1000 (armLocalBase + timerCntrl0) := by
    have houtside : Apart (gicV2DistributorBase armLocalBase) 0x1000
        (armLocalBase + timerCntrl0) 1 := .offset armLocalBase (.inr (by decide))
    rw [h.distAt]
    exact fun hin => houtside _ hin (by simp [Within])
  have hcpu : ∀ off : U64, off.toNat < 0x1000 →
      Function.update m.rest (armLocalBase + timerCntrl0) v (m.gicGetCpuBase + off) =
        m.cpu off := by
    intro off hoff
    refine Function.update_of_ne ?_ _ _
    rw [h.cpuBase]
    unfold gicV2CpuInterfaceBase timerCntrl0
    bv_omega
  rw [m.writel_of_not_within v hcontrol]
  refine ⟨⟨h.distAt, h.distBase, h.cpuBase, h.ctrl, h.pri, ?_, ?_⟩, rfl⟩
  · exact (hcpu gicCpuCtrl (by decide)).trans h.cpuCtrl
  · exact (hcpu gicCpuPrimask (by decide)).trans h.cpuPrimask

end Machine.Configured

namespace Board

/-- The one interrupt that is active is the one that is being handled; `giccIntSpurious`
stands for none. -/
def Acknowledged (active : List Nat) (irqnr : U32) : Prop :=
  irqnr = giccIntSpurious ∧ active = [] ∨ irqnr ≠ giccIntSpurious ∧ active = [irqnr.toNat]

def Handling (b : Board) : Option Point → Prop
  | none | some .intack => b.active = []
  | some (.handle irqnr) => Acknowledged b.active irqnr ∧
      (irqnr = genericTimerIrq → b.timer.cval ≤ b.timer.now)
  | some (.eoi irqnr) => Acknowledged b.active irqnr

structure Sound (armLocalBase : U64) (latency start : Nat) (b : Board) : Prop where
  configured : b.gic.Configured armLocalBase
  unmasked : genericTimerIrq.toNat ∈ b.gic.dist.enable.ids
  enabled : b.timer.enabled = true
  rearmed : Rearmed.Kept 62500000 latency start ⟨b.timer.now, b.timer.cval, b.ticks⟩
  handling : b.Handling b.point

theorem Intack.acknowledged {b : Board} {irqstat : U32} {active : List Nat}
    (h : b.Intack irqstat active) (hidle : b.active = []) :
    Acknowledged active (irqstat &&& giccIarIntIdMask) ∧
      (irqstat &&& giccIarIntIdMask = genericTimerIrq → b.timer.line = true) := by
  cases h with
  | spurious => exact ⟨.inl ⟨rfl, hidle⟩, fun heq => absurd heq (by decide)⟩
  | @interrupt id hsignals _ =>
      obtain ⟨hid, _, hline⟩ := hsignals.requests
      have hmask : (BitVec.ofNat 32 id &&& giccIarIntIdMask).toNat = id := by
        have hten : giccIarIntIdMask.toNat = 2 ^ 10 - 1 := rfl
        rw [BitVec.toNat_and, hten, Nat.and_two_pow_sub_one_eq_mod, BitVec.toNat_ofNat]
        omega
      refine ⟨.inr ⟨?_, ?_⟩, ?_⟩
      · intro heq
        rw [heq] at hmask
        have hspurious : giccIntSpurious.toNat = 1023 := rfl
        omega
      · rw [hmask, hidle]
      · intro heq
        rw [heq] at hmask
        rwa [if_pos hmask.symm] at hline

/-- What has been acknowledged is completed, and nothing else. -/
theorem Eoi.idle {active active' : List Nat} {irqnr : U32} (h : Eoi active irqnr active')
    (hactive : Acknowledged active irqnr) : active' = [] := by
  cases h with
  | spurious =>
      cases hactive with
      | inl hnone => exact hnone.2
      | inr hsome => exact absurd rfl hsome.1
  | complete =>
      cases hactive with
      | inl hnone => exact absurd hnone.2 (List.cons_ne_nil _ _)
      | inr hsome => exact (List.cons.inj hsome.2).2
  | unpredictable hreal hother =>
      cases hactive with
      | inl hnone => exact absurd hnone.1 hreal
      | inr hsome => exact absurd (congrArg List.head? hsome.2) hother

theorem timerInit_gic (armLocalBase : U64) (b : Board) :
    (b.timerInit armLocalBase).gic = (Call.run b.gic (.unmask genericTimerIrq)).writel cntPnsIrq
      (armLocalBase + timerCntrl0) := rfl

namespace Sound

variable {armLocalBase : U64} {latency start : Nat} {b b' : Board}

theorem timerInit (h : b.gic.Configured armLocalBase) (hnow : b.timer.now = start)
    (hactive : b.active = []) (hpoint : b.point = none) (hticks : b.ticks = []) :
    Sound armLocalBase latency start (b.timerInit armLocalBase) := by
  obtain ⟨hunmask, hids⟩ := h.call (by decide : (Call.unmask genericTimerIrq).irq < 1020)
  obtain ⟨hcontrol, hdist⟩ := hunmask.timerControl cntPnsIrq
  refine ⟨hcontrol, ?_, rfl, ?_, ?_⟩
  · rw [timerInit_gic, hdist, hids]
    exact Set.mem_insert _ _
  · subst hnow
    change Rearmed.Kept _ _ _ ⟨b.timer.now, b.timer.now + 62500000, b.ticks⟩
    rw [hticks]
    exact .first
  · change Handling _ b.point
    rw [hpoint]
    exact hactive

theorem driver (h : Sound armLocalBase latency start b) (hstep : GicHandleIrq b b') :
    Sound armLocalBase latency start b' := by
  have hhandling := h.handling
  cases hstep with
  | intack hpoint hack =>
      rw [hpoint] at hhandling
      obtain ⟨hactive, hline⟩ := hack.acknowledged hhandling
      refine ⟨h.configured, h.unmasked, h.enabled, h.rearmed, hactive, fun heq => ?_⟩
      have hdue := hline heq
      rw [Timer.line, Bool.and_eq_true, decide_eq_true_eq] at hdue
      exact hdue.2
  | timer hpoint htimer =>
      rw [hpoint] at hhandling
      obtain ⟨hactive, hdue⟩ := hhandling
      exact ⟨h.configured, h.unmasked, h.enabled,
        h.rearmed.step (.serve (hdue htimer)), hactive⟩
  | other hpoint =>
      rw [hpoint] at hhandling
      exact ⟨h.configured, h.unmasked, h.enabled, h.rearmed, hhandling.1⟩
  | eoi hpoint heoi =>
      rw [hpoint] at hhandling
      exact ⟨h.configured, h.unmasked, h.enabled, h.rearmed, heoi.idle hhandling⟩

theorem step (h : Sound armLocalBase latency start b) (hstep : Step latency b b') :
    Sound armLocalBase latency start b' := by
  cases hstep with
  | elapse d hlate =>
      refine ⟨h.configured, h.unmasked, h.enabled, h.rearmed.step (.elapse d hlate), ?_⟩
      have hhandling := h.handling
      cases hpoint : b.point with
      | none =>
          rw [hpoint] at hhandling
          exact hhandling
      | some point =>
          rw [hpoint] at hhandling
          cases point with
          | intack => exact hhandling
          | eoi irqnr => exact hhandling
          | handle irqnr =>
              refine ⟨hhandling.1, fun heq => ?_⟩
              exact Nat.le_trans (hhandling.2 heq) (Nat.le_add_right _ d)
  | lines lines => exact ⟨h.configured, h.unmasked, h.enabled, h.rearmed, h.handling⟩
  | mask masked hpoint => exact ⟨h.configured, h.unmasked, h.enabled, h.rearmed, h.handling⟩
  | call call hirq hother =>
      obtain ⟨hconfigured, hids⟩ := h.configured.call hirq
      refine ⟨hconfigured, ?_, h.enabled, h.rearmed, h.handling⟩
      change _ ∈ (Call.run b.gic call).dist.enable.ids
      rw [hids]
      cases call with
      | mask irq => exact ⟨h.unmasked, fun heq => hother heq.symm⟩
      | unmask irq => exact .inr h.unmasked
  | take hpoint hmasked hsignals =>
      have hhandling := h.handling
      rw [hpoint] at hhandling
      exact ⟨h.configured, h.unmasked, h.enabled, h.rearmed, hhandling⟩
  | driver hdriver => exact h.driver hdriver

/-- Between the calls nothing holds the timer's interrupt back. -/
theorem signals (h : Sound armLocalBase latency start b) (hpoint : b.point = none)
    (hdue : b.timer.cval ≤ b.timer.now) : b.Signals genericTimerIrq.toNat := by
  have hidle := h.handling
  rw [hpoint] at hidle
  refine ⟨⟨by decide, h.unmasked, ?_⟩, ⟨?_, ?_⟩, ?_, ?_⟩
  · rw [if_pos rfl, Timer.line, h.enabled, Bool.true_and]
    exact decide_eq_true hdue
  · rw [h.configured.ctrl]
    decide
  · rw [h.configured.cpuCtrl]
    decide
  · rw [priority, h.configured.pri, h.configured.cpuPrimask]
    decide
  · intro id hid
    change b.active = [] at hidle
    rw [hidle] at hid
    exact absurd hid List.not_mem_nil

end Sound

theorem Run.sound {armLocalBase : U64} {latency start : Nat} {b : Board}
    (h : Run armLocalBase latency start b) : Sound armLocalBase latency start b := by
  induction h with
  | start hat hnow hactive hpoint hticks =>
      have hconfigured := Machine.Configured.gicInit hat
      generalize (gicInit _ _ _ _).1 = gic at hconfigured ⊢
      exact .timerInit hconfigured hnow hactive hpoint hticks
  | step _ hstep ih => exact ih.step hstep

/-- From a state in which the timer is due and nothing more urgent asks, a call of the
handler serves it. -/
theorem Sound.serves {armLocalBase : U64} {latency start : Nat} {b : Board}
    (h : Sound armLocalBase latency start b) (hpoint : b.point = none)
    (hmasked : b.masked = false)
    (hdue : b.timer.cval ≤ b.timer.now)
    (hfirst : ∀ id, b.Signals id →
      (b.priority genericTimerIrq.toNat).toNat ≤ (b.priority id).toNat) :
    ∃ b', Relation.ReflTransGen (Step latency) b b' ∧ b'.point = none ∧
      b'.ticks = b.timer.now :: b.ticks := by
  have hsignals := h.signals hpoint hdue
  let taken : Board := { b with masked := true, point := some .intack }
  let acknowledged : Board :=
    { taken with
      active := genericTimerIrq.toNat :: b.active
      point := some (.handle genericTimerIrq) }
  let handled : Board :=
    { acknowledged.handleTimerIrq with point := some (.eoi genericTimerIrq) }
  have htake : Step latency b taken := .take hpoint hmasked hsignals
  have hkept : ∀ id, taken.Signals id ↔ b.Signals id := by
    intro id
    constructor
    · intro ⟨hrequests, hon, hmask, hrunning⟩
      exact ⟨hrequests, hon, hmask, hrunning⟩
    · intro ⟨hrequests, hon, hmask, hrunning⟩
      exact ⟨hrequests, hon, hmask, hrunning⟩
  have hread : taken.Intack (BitVec.ofNat 32 genericTimerIrq.toNat)
      (genericTimerIrq.toNat :: taken.active) :=
    .interrupt ((hkept _).mpr hsignals) fun id hid => hfirst id ((hkept id).mp hid)
  have hack : GicHandleIrq taken acknowledged := .intack rfl hread
  have hhandle : GicHandleIrq acknowledged handled := .timer rfl rfl
  have heoi : GicHandleIrq handled { handled with active := b.active, point := none } :=
    .eoi rfl .complete
  refine ⟨{ handled with active := b.active, point := none }, ?_, rfl, rfl⟩
  exact .tail (.tail (.tail (.single htake) (.driver hack)) (.driver hhandle))
    (.driver heoi)

/-- In every run the controller has no interrupt active but the one that is being handled,
which is the one that is completed then. The timer ticks never early, no more than `latency`
late each time, and it is never held back. -/
theorem run_ticks {armLocalBase : U64} {latency start : Nat} {b : Board}
    (h : Run armLocalBase latency start b) :
    (b.point = none → b.active = []) ∧
    (∀ irqnr, b.point = some (.eoi irqnr) → Acknowledged b.active irqnr) ∧
    (b.ticks ++ [start]).IsChain (Rearmed.Follows 62500000 latency) ∧
    (start + b.ticks.length * 62500000 ≤ b.timer.now ∧
      b.timer.now ≤ start + (b.ticks.length + 1) * (62500000 + latency)) ∧
    (b.point = none → b.timer.cval ≤ b.timer.now → b.Signals genericTimerIrq.toNat ∧
      (b.masked = false → (∀ id, b.Signals id →
          (b.priority genericTimerIrq.toNat).toNat ≤ (b.priority id).toNat) →
        ∃ b', Relation.ReflTransGen (Step latency) b b' ∧ b'.point = none ∧
          b'.ticks = b.timer.now :: b.ticks)) := by
  have hsound := h.sound
  have hhandling := hsound.handling
  refine ⟨?_, ?_, hsound.rearmed.spaced, hsound.rearmed.bounds, ?_⟩
  · intro hpoint
    rw [hpoint] at hhandling
    exact hhandling
  · intro irqnr hpoint
    rw [hpoint] at hhandling
    exact hhandling
  · intro hpoint hdue
    exact ⟨hsound.signals hpoint hdue, fun hmasked => hsound.serves hpoint hmasked hdue⟩

theorem Run.steps {armLocalBase : U64} {latency start : Nat} {b b' : Board}
    (h : Run armLocalBase latency start b)
    (hsteps : Relation.ReflTransGen (Step latency) b b') :
    Run armLocalBase latency start b' := by
  induction hsteps with
  | refl => exact h
  | tail _ hstep ih => exact ih.step hstep

/-- With no other source the timer has its first tick when its time has come. -/
theorem Run.first {armLocalBase : U64} {latency start : Nat} {b : Board}
    (h : Run armLocalBase latency start b) (hpoint : b.point = none) (hlines : b.lines = ∅)
    (hnow : b.timer.now = start) (hcval : b.timer.cval = start + 62500000)
    (hticks : b.ticks = []) :
    ∃ b', Run armLocalBase latency start b' ∧ b'.point = none ∧
      b'.ticks = [start + 62500000] := by
  have hlate : b.timer.now + 62500000 ≤ b.timer.cval + latency := by omega
  have hwait := (h.step (.mask false hpoint)).step (.elapse 62500000 hlate)
  have hdue : b.timer.cval ≤ b.timer.now + 62500000 := by omega
  let waiting : Board :=
    { b with masked := false, timer := { b.timer with now := b.timer.now + 62500000 } }
  have hurgent : ∀ id, waiting.Signals id →
      (waiting.priority genericTimerIrq.toNat).toNat ≤ (waiting.priority id).toNat := by
    intro id hid
    have hline := hid.requests.2.2
    split at hline
    next htimer => rw [htimer]
    next =>
      change id ∈ b.lines at hline
      rw [hlines] at hline
      exact absurd hline (Set.notMem_empty id)
  obtain ⟨b', hsteps, hpoint', hticks'⟩ := hwait.sound.serves hpoint rfl hdue hurgent
  refine ⟨b', hwait.steps hsteps, hpoint', ?_⟩
  rw [hticks', hticks, hnow]

theorem run_ticks_first :
    ∃ b, Run 0xff800000 10 100 b ∧ b.point = none ∧ b.ticks = [62500100] ∧ b.active = [] ∧
      (b.ticks ++ [100]).IsChain (Rearmed.Follows 62500000 10) := by
  let board : Board :=
    { gic :=
        { distAt := gicV2DistributorBase 0xff800000
          dist :=
            { ctrl := 0
              ctr := 6
              enable := fun _ => 0
              active := fun _ => 0
              pri := fun _ => 0
              target := fun _ => 0
              config := fun _ => 0 }
          rest := fun _ => 0
          gicData := fun _ => ⟨0, 0, 0⟩ }
      timer := ⟨100, 0, false⟩
      lines := ∅
      active := []
      masked := true
      point := none
      ticks := [] }
  have hstart : Run 0xff800000 10 100 _ := @Run.start _ _ _ board rfl rfl rfl rfl rfl
  obtain ⟨b, hrun, hpoint, hticks⟩ := hstart.first rfl rfl rfl rfl rfl
  obtain ⟨hidle, _, hspaced, _⟩ := run_ticks hrun
  exact ⟨b, hrun, hpoint, hticks, hidle hpoint, hspaced⟩

end Board

end YiOS.Gic
