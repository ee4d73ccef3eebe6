import YiOS.Irqchip.Distributor
import YiOS.Library.Word

namespace YiOS.Gic

open YiOS.Library

/-! The driver of `gic_v2.c`. -/

def gicdEnable : U32 := 0x1
def gicdDisable : U32 := 0x0
def gicdIntActlowLvltrig : U32 := 0x0
def gicdIntEnClrX32 : U32 := 0xffffffff
def gicdIntEnSetSgi : U32 := 0x0000ffff
def giccEnable : U32 := 0x1
def giccIntPriThreshold : U32 := 0xf0
def gicCpuCtrl : U64 := 0x00
def gicCpuPrimask : U64 := 0x04

/-- `writel(value, base + reg + off)`, meant for the bank of `reg`. -/
structure Store where
  value : U32
  reg : GicDist
  off : Nat

namespace Machine

def store (m : Machine) (base : U64) (s : Store) : Machine :=
  m.writel s.value (s.reg.address base s.off)

def gicGetDistBase (m : Machine) : U64 := (m.gicData 0).rawDistBase

def gicSetIrq (m : Machine) (irq : U32) (reg : GicDist) : Machine :=
  let mask : U32 := 1#32 <<< (irq % 32)
  m.store m.gicGetDistBase ⟨mask, reg, (irq / 32 * 4).toNat⟩

def gicv2MaskIrq (m : Machine) (irq : U32) : Machine := m.gicSetIrq irq .enableClear

def gicv2UnmaskIrq (m : Machine) (irq : U32) : Machine := m.gicSetIrq irq .enableSet

end Machine

def foldMask (mask : U32) : U32 :=
  let mask := mask ||| mask >>> 16
  mask ||| mask >>> 8

/-- The loop of `gic_get_cpumask` from its counter on, with the last mask. -/
def cpumaskLoop (m : Machine) (base : U64) : List Nat → U32 → U32
  | [], mask => mask
  | i :: is, _ =>
      let mask := foldMask (m.readl (GicDist.target.address base i))
      if mask ≠ 0 then mask else cpumaskLoop m base is mask

def gicGetCpumask (gic : GicChipData) (m : Machine) : U32 :=
  cpumaskLoop m gic.rawDistBase (counters 0 32 4) 0

def spreadMask (cpumask : U32) : U32 :=
  let cpumask := cpumask ||| cpumask <<< 8
  cpumask ||| cpumask <<< 16

/-- The stores of `gic_dist_init` that come after the mask. -/
def loopStores (gicIrqs : Nat) (cpumask : U32) : List Store :=
  -- There are at most 1020 ids, so no counter wraps.
  (counters 32 gicIrqs 4).map (fun i => ⟨cpumask, .target, i * 4 / 4⟩) ++
  (counters 32 gicIrqs 16).map (fun i => ⟨gicdIntActlowLvltrig, .config, i / 4⟩) ++
  (counters 0 gicIrqs 32).flatMap (fun i =>
    [⟨gicdIntEnClrX32, .activeClear, i / 8⟩, ⟨gicdIntEnClrX32, .enableClear, i / 8⟩]) ++
  [⟨gicdIntEnSetSgi, .enableSet, 0⟩, ⟨gicdEnable, .ctrl, 0⟩]

/-- All stores of `gic_dist_init`. The mask is read after the first of them. -/
def gicDistStores (gic : GicChipData) (m : Machine) : List Store :=
  let disable : Store := ⟨gicdDisable, .ctrl, 0⟩
  let cpumask := spreadMask (gicGetCpumask gic (m.store gic.rawDistBase disable))
  disable :: loopStores gic.gicIrqs.toNat cpumask

def gicDistInit (gic : GicChipData) (m : Machine) : Machine :=
  (gicDistStores gic m).foldl (Machine.store · gic.rawDistBase) m

/-- The loop of `gic_cpu_init`. -/
def priStores : List Store := (counters 0 32 4).map fun i => ⟨0xa0a0a0a0, .pri, i * 4 / 4⟩

def gicCpuInit (gic : GicChipData) (m : Machine) : Machine :=
  let m := priStores.foldl (Machine.store · gic.rawDistBase) m
  let m := m.writel giccIntPriThreshold (gic.rawCpuBase + gicCpuPrimask)
  m.writel giccEnable (gic.rawCpuBase + gicCpuCtrl)

/-- `gic_irqs` from the type register. -/
def irqCount (ctr : U32) : U32 :=
  let gicIrqs := ctr &&& 0x1f
  let gicIrqs := (gicIrqs + 1) * 32
  if 1020 < gicIrqs then 1020 else gicIrqs

def gicInit (chip : Fin armGicMaxNr) (distBase cpuBase : U64) (m : Machine) :
    Machine × Int :=
  let gicIrqs := irqCount (m.readl (GicDist.ctr.address distBase 0))
  let gic : GicChipData :=
    { rawDistBase := distBase, rawCpuBase := cpuBase, gicIrqs := gicIrqs }
  let m := { m with gicData := Function.update m.gicData chip gic }
  (gicCpuInit gic (gicDistInit gic m), 0)

/-- The OR of the four bytes. -/
def orBytes (v : U32) : BitVec 8 :=
  v.extractLsb' 0 8 ||| v.extractLsb' 8 8 ||| v.extractLsb' 16 8 ||| v.extractLsb' 24 8

/-- The bytes of the first of eight words that is not zero, taken together. -/
def firstTargets (target : Bank 32) : BitVec 8 :=
  match ((List.range 8).map target).find? (· ≠ 0) with
  | some v => orBytes v
  | none => 0

theorem foldMask_eq_zero (v : U32) : foldMask v = 0 ↔ v = 0 := by
  constructor
  · intro h
    rw [foldMask, BitVec.ofNat_eq_ofNat, BitVec.or_eq_zero_iff, BitVec.or_eq_zero_iff] at h
    exact h.1.1
  · rintro rfl
    rfl

theorem byte_spreadMask (v : U32) (hj : j < 4) :
    (spreadMask (foldMask v)).extractLsb' (j * 8) 8 = orBytes v := by
  apply BitVec.eq_of_getLsbD_eq
  intro i hi
  unfold spreadMask foldMask orBytes
  simp only [BitVec.getLsbD_extractLsb', BitVec.getLsbD_or, BitVec.getLsbD_shiftLeft,
    BitVec.getLsbD_ushiftRight]
  have htop : ∀ n, 32 ≤ n → v.getLsbD n = false := fun n hn => BitVec.getLsbD_of_ge v n hn
  obtain rfl | rfl | rfl | rfl : j = 0 ∨ j = 1 ∨ j = 2 ∨ j = 3 := by omega
  · grind
  · grind
  · grind
  · grind

/-- The loop stops at the first word that is not zero. -/
theorem cpumaskLoop_eq (m : Machine) {ks : List Nat}
    (hks : ∀ k ∈ ks, k < GicDist.target.count) :
    cpumaskLoop m m.distAt (ks.map (4 * ·)) 0 =
      foldMask (((ks.map m.dist.target).find? (· ≠ 0)).getD 0) := by
  induction ks with
  | nil => exact ((foldMask_eq_zero 0).mpr rfl).symm
  | cons k ks ih =>
      have hk : GicDist.target.Holds (4 * k) :=
        ⟨Nat.mul_mod_right 4 k, by simpa using hks k List.mem_cons_self⟩
      have hread : m.readl (GicDist.target.address m.distAt (4 * k)) = m.dist.target k := by
        rw [m.readl_address hk, Nat.mul_div_cancel_left k (by omega)]
        rfl
      rw [List.map_cons, cpumaskLoop, hread, List.map_cons, List.find?_cons]
      by_cases hzero : m.dist.target k = 0
      · rw [if_neg (not_not.mpr ((foldMask_eq_zero _).mpr hzero)),
          decide_eq_false (by simpa)]
        rw [(foldMask_eq_zero _).mpr hzero]
        exact ih fun k hk => hks k (List.mem_cons_of_mem _ hk)
      · rw [if_pos (mt (foldMask_eq_zero _).mp hzero), decide_eq_true hzero]
        rfl

theorem byte_cpumask {gic : GicChipData} {m : Machine} (hbase : gic.rawDistBase = m.distAt)
    (hj : j < 4) : (spreadMask (gicGetCpumask gic m)).extractLsb' (j * 8) 8 =
      firstTargets m.dist.target := by
  have hcounters : counters 0 32 4 = (List.range 8).map (4 * ·) := rfl
  have hcount : ∀ k ∈ List.range 8, k < GicDist.target.count := by decide
  rw [gicGetCpumask, hbase, hcounters, cpumaskLoop_eq m hcount, byte_spreadMask _ hj,
    firstTargets]
  cases ((List.range 8).map m.dist.target).find? (· ≠ 0) with
  | none => rfl
  | some v => rfl

namespace Distributor

def apply (dist : Distributor) (s : Store) : Distributor :=
  dist.write (s.off / 4) s.value s.reg

variable {dist : Distributor}

theorem inactive_apply (h : i ∉ dist.active.ids) (s : Store) :
    i ∉ (dist.apply s).active.ids := by
  unfold apply
  cases s.reg with
  | activeClear =>
      intro hin
      rw [write, Bank.ids_clear] at hin
      exact h hin.1
  | _ => exact h

theorem disabled_apply (h : i ∉ dist.enable.ids) {s : Store}
    (hset : s.reg = .enableSet → i ∉ named (s.off / 4) s.value) :
    i ∉ (dist.apply s).enable.ids := by
  unfold apply
  cases hreg : s.reg with
  | enableSet =>
      intro hin
      rw [write, Bank.ids_set] at hin
      exact hin.elim h (hset hreg)
  | enableClear =>
      intro hin
      rw [write, Bank.ids_clear] at hin
      exact h hin.1
  | _ => exact h

theorem targets_apply (h : dist.targets i = b) {s : Store}
    (hput : s.reg = .target → s.value.extractLsb' (i % 4 * 8) 8 = b) :
    (dist.apply s).targets i = b := by
  unfold apply
  cases hreg : s.reg with
  | target =>
      rw [write, targets, Bank.field_put]
      split
      · exact hput hreg
      · exact h
  | _ => exact h

theorem config_apply (h : dist.config.field 2 i = b) {s : Store}
    (hput : s.reg = .config → s.value.extractLsb' (i % 16 * 2) 2 = b) :
    (dist.apply s).config.field 2 i = b := by
  unfold apply
  cases hreg : s.reg with
  | config =>
      rw [write, Bank.field_put]
      split
      · exact hput hreg
      · exact h
  | _ => exact h

end Distributor

namespace Machine

theorem store_eq (m : Machine) {s : Store} (hs : s.reg.Holds s.off) :
    m.store m.distAt s = { m with dist := m.dist.apply s } := m.writel_address hs s.value

theorem foldl_store {stores : List Store} (hstores : ∀ s ∈ stores, s.reg.Holds s.off)
    (m : Machine) : stores.foldl (Machine.store · m.distAt) m =
      { m with dist := stores.foldl Distributor.apply m.dist } := by
  induction stores generalizing m with
  | nil => rfl
  | cons s stores ih =>
      rw [List.foldl_cons, m.store_eq (hstores s List.mem_cons_self)]
      exact ih (fun s hs => hstores s (List.mem_cons_of_mem _ hs))
        { m with dist := m.dist.apply s }

/-- The bit of one id is written. -/
theorem gicSetIrq_eq {m : Machine} {irq : U32} {reg : GicDist}
    (hbase : m.gicGetDistBase = m.distAt) (hirq : irq.toNat / 32 < reg.count) :
    m.gicSetIrq irq reg =
      { m with dist := m.dist.write (irq.toNat / 32) (1#32 <<< (irq.toNat % 32)) reg } := by
  have hoff : (irq / 32 * 4).toNat = 4 * (irq.toNat / 32) := by
    have hdiv : (32 : U32).toNat = 32 := rfl
    have hbytes : (4 : U32).toNat = 4 := rfl
    have hlt := irq.isLt
    rw [BitVec.toNat_mul, BitVec.toNat_udiv, hdiv, hbytes]
    omega
  have hword : (irq / 32 * 4).toNat / 4 = irq.toNat / 32 := by
    rw [hoff, Nat.mul_div_cancel_left _ (by omega)]
  have hholds : reg.Holds (irq / 32 * 4).toNat := by
    refine ⟨?_, hword ▸ hirq⟩
    rw [hoff, Nat.mul_mod_right]
  have hmask : 1#32 <<< (irq % 32) = 1#32 <<< (irq.toNat % 32) := by
    rw [BitVec.shiftLeft_eq', BitVec.toNat_umod]
    rfl
  rw [gicSetIrq, hbase, store_eq m hholds, Distributor.apply, hword, hmask]

end Machine

end YiOS.Gic
