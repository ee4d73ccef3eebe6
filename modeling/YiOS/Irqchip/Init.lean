import YiOS.Irqchip.Gic

namespace YiOS.Gic

open YiOS.Library

/-! What `gic_init` leaves in the distributor, and what masking and unmasking ids make of
it. -/

theorem toNat_irqCount (ctr : U32) :
    (irqCount ctr).toNat = min ((ctr.toNat % 32 + 1) * 32) 1020 := by
  have hlines : (ctr &&& 0x1f).toNat = ctr.toNat % 32 := toNat_and_lowMask ctr
    (k := 5) (by decide)
  have hone : (1 : U32).toNat = 1 := rfl
  have hstep : (32 : U32).toNat = 32 := rfl
  have hcap : (1020 : U32).toNat = 1020 := rfl
  have hall : (((ctr &&& 0x1f) + 1) * 32).toNat = (ctr.toNat % 32 + 1) * 32 := by
    rw [BitVec.toNat_mul, BitVec.toNat_add, hlines, hone, hstep]
    omega
  rw [irqCount]
  split
  next hlt =>
    rw [BitVec.lt_def, hcap, hall] at hlt
    omega
  next hle =>
    rw [BitVec.lt_def, hcap, hall] at hle
    omega

theorem irqCount_le (ctr : U32) : (irqCount ctr).toNat ≤ 1020 := by
  rw [toNat_irqCount]
  exact Nat.min_le_right _ _

section Loops

variable {cpumask : U32} {s : Store}

theorem mem_loopStores : s ∈ loopStores n cpumask ↔
    (∃ c ∈ counters 32 n 4, s = ⟨cpumask, .target, c * 4 / 4⟩) ∨
    (∃ c ∈ counters 32 n 16, s = ⟨gicdIntActlowLvltrig, .config, c / 4⟩) ∨
    (∃ c ∈ counters 0 n 32, s = ⟨gicdIntEnClrX32, .activeClear, c / 8⟩ ∨
      s = ⟨gicdIntEnClrX32, .enableClear, c / 8⟩) ∨
    s = ⟨gicdIntEnSetSgi, .enableSet, 0⟩ ∨ s = ⟨gicdEnable, .ctrl, 0⟩ := by
  simp [loopStores, eq_comm]

/-- The ids may fill the last register in part, it is one of the bank all the same. -/
theorem holds_counter {reg : GicDist} (hq : 0 < q) (hdvd : 4 * q ∣ first)
    (hcount : n ≤ 4 * q * reg.count) (hc : c ∈ counters first n (4 * q)) :
    reg.Holds (c / q) := by
  obtain ⟨hlt, t, rfl⟩ := lt_and_dvd_of_mem_counters (by omega) hdvd hc
  have hoff : 4 * q * t / q = 4 * t := by
    rw [Nat.mul_right_comm, Nat.mul_div_cancel _ hq]
  rw [GicDist.Holds, hoff, Nat.mul_mod_right, Nat.mul_div_cancel_left t (by omega)]
  exact ⟨rfl, Nat.lt_of_mul_lt_mul_left (Nat.lt_of_lt_of_le hlt hcount)⟩

theorem holds_loopStores (hn : n ≤ 1020) (hs : s ∈ loopStores n cpumask) :
    s.reg.Holds s.off := by
  have hbits : n ≤ 4 * 8 * 32 := by omega
  obtain ⟨c, hc, rfl⟩ | ⟨c, hc, rfl⟩ | ⟨c, hc, rfl | rfl⟩ | rfl | rfl :=
    mem_loopStores.mp hs
  · have hoff : c * 4 / 4 = c / 1 := by omega
    rw [hoff]
    exact holds_counter (by decide) (by decide) hn hc
  · have hfields : n ≤ 4 * 4 * 64 := by omega
    exact holds_counter (q := 4) (by decide) (by decide) hfields hc
  · exact holds_counter (q := 8) (by decide) (by decide) hbits hc
  · exact holds_counter (q := 8) (by decide) (by decide) hbits hc
  · decide
  · decide

theorem eq_of_enableSet (hs : s ∈ loopStores n cpumask) (hreg : s.reg = .enableSet) :
    s = ⟨gicdIntEnSetSgi, .enableSet, 0⟩ := by
  obtain ⟨c, -, rfl⟩ | ⟨c, -, rfl⟩ | ⟨c, -, rfl | rfl⟩ | rfl | rfl := mem_loopStores.mp hs
  all_goals cases hreg
  rfl

theorem value_of_target (hs : s ∈ loopStores n cpumask) (hreg : s.reg = .target) :
    s.value = cpumask := by
  obtain ⟨c, -, rfl⟩ | ⟨c, -, rfl⟩ | ⟨c, -, rfl | rfl⟩ | rfl | rfl := mem_loopStores.mp hs
  all_goals cases hreg
  rfl

theorem value_of_config (hs : s ∈ loopStores n cpumask) (hreg : s.reg = .config) :
    s.value = gicdIntActlowLvltrig := by
  obtain ⟨c, -, rfl⟩ | ⟨c, -, rfl⟩ | ⟨c, -, rfl | rfl⟩ | rfl | rfl := mem_loopStores.mp hs
  all_goals cases hreg
  rfl

theorem mem_named_sgi : i ∈ named 0 gicdIntEnSetSgi ↔ i < 16 := by
  have hbits : ∀ j < 32, gicdIntEnSetSgi.getLsbD j = decide (j < 16) := by decide
  constructor
  · rintro ⟨hdiv, hbit⟩
    rw [hbits _ (Nat.mod_lt i (by decide)), decide_eq_true_eq] at hbit
    omega
  · intro hi
    refine ⟨by omega, ?_⟩
    rw [hbits _ (Nat.mod_lt i (by decide)), decide_eq_true_eq]
    omega

variable (dist : Distributor)

theorem inactive_loopStores (hi : i < n) :
    i ∉ ((loopStores n cpumask).foldl Distributor.apply dist).active.ids := by
  have hturn : ∃ c ∈ counters 0 n 32, c / 32 = i / 32 :=
    exists_counter (by decide) (by decide) (Nat.zero_le i) hi
  obtain ⟨c, hc, hdiv⟩ := hturn
  have hword : c / 8 / 4 = i / 32 := by omega
  refine foldl_settles (P := fun dist => i ∉ dist.active.ids)
    (fun s _ dist h => Distributor.inactive_apply h s)
    ⟨_, mem_loopStores.mpr (.inr (.inr (.inl ⟨c, hc, .inl rfl⟩))), fun dist hin => ?_⟩ dist
  rw [Distributor.apply, Distributor.write, Bank.ids_clear] at hin
  exact hin.2 ((mem_named_allOnes (by decide)).mpr hword.symm)

theorem disabled_loopStores (hi : i < n) (hsgi : 16 ≤ i) :
    i ∉ ((loopStores n cpumask).foldl Distributor.apply dist).enable.ids := by
  have hturn : ∃ c ∈ counters 0 n 32, c / 32 = i / 32 :=
    exists_counter (by decide) (by decide) (Nat.zero_le i) hi
  obtain ⟨c, hc, hdiv⟩ := hturn
  have hword : c / 8 / 4 = i / 32 := by omega
  refine foldl_settles (P := fun dist => i ∉ dist.enable.ids)
    (fun s hs dist h => Distributor.disabled_apply h fun hreg => ?_)
    ⟨_, mem_loopStores.mpr (.inr (.inr (.inl ⟨c, hc, .inr rfl⟩))), fun dist hin => ?_⟩ dist
  · rw [eq_of_enableSet hs hreg]
    exact fun hnamed => absurd (mem_named_sgi.mp hnamed) (Nat.not_lt.mpr hsgi)
  · rw [Distributor.apply, Distributor.write, Bank.ids_clear] at hin
    exact hin.2 ((mem_named_allOnes (by decide)).mpr hword.symm)

/-- The last store but one sets the bits of the first sixteen ids. -/
theorem enabled_loopStores (hi : i < 16) :
    i ∈ ((loopStores n cpumask).foldl Distributor.apply dist).enable.ids := by
  rw [loopStores, List.foldl_append]
  generalize List.foldl Distributor.apply dist _ = dist
  have hin : i ∈ (dist.enable.set 0 gicdIntEnSetSgi).ids := by
    rw [Bank.ids_set]
    exact .inr (mem_named_sgi.mpr hi)
  exact hin

theorem targets_loopStores (hbytes : ∀ j < 4, cpumask.extractLsb' (j * 8) 8 = b)
    (hlow : 32 ≤ i) (hi : i < n) :
    ((loopStores n cpumask).foldl Distributor.apply dist).targets i = b := by
  have hbyte := hbytes (i % 4) (Nat.mod_lt i (by decide))
  have hturn : ∃ c ∈ counters 32 n 4, c / 4 = i / 4 :=
    exists_counter (by decide) (by decide) hlow hi
  obtain ⟨c, hc, hdiv⟩ := hturn
  have hword : i / 4 = c * 4 / 4 / 4 := by omega
  refine foldl_settles (P := fun dist => dist.targets i = b)
    (fun s hs dist h => Distributor.targets_apply h fun hreg => ?_)
    ⟨_, mem_loopStores.mpr (.inl ⟨c, hc, rfl⟩), fun dist => ?_⟩ dist
  · rw [value_of_target hs hreg]
    exact hbyte
  · rw [Distributor.apply, Distributor.write, Distributor.targets, Bank.field_put,
      if_pos hword]
    exact hbyte

theorem config_loopStores (hlow : 32 ≤ i) (hi : i < n) :
    ((loopStores n cpumask).foldl Distributor.apply dist).config.field 2 i = 0 := by
  have hbits : gicdIntActlowLvltrig.extractLsb' (i % 16 * 2) 2 = 0 :=
    BitVec.extractLsb'_zero
  have hturn : ∃ c ∈ counters 32 n 16, c / 16 = i / 16 :=
    exists_counter (by decide) (by decide) hlow hi
  obtain ⟨c, hc, hdiv⟩ := hturn
  have hword : i / 16 = c / 4 / 4 := by omega
  refine foldl_settles (P := fun dist => dist.config.field 2 i = 0)
    (fun s hs dist h => Distributor.config_apply h fun hreg => ?_)
    ⟨_, mem_loopStores.mpr (.inr (.inl ⟨c, hc, rfl⟩)), fun dist => ?_⟩ dist
  · rw [value_of_config hs hreg]
    exact hbits
  · rw [Distributor.apply, Distributor.write, Bank.field_put, if_pos hword]
    exact hbits

theorem trigger_loopStores (hlow : 32 ≤ i) (hi : i < n) :
    ((loopStores n cpumask).foldl Distributor.apply dist).trigger i = .level := by
  rw [Distributor.trigger, config_loopStores dist hlow hi]
  rfl

end Loops

section Init

variable {gic : GicChipData} {m : Machine}

theorem holds_gicDistStores (hn : gic.gicIrqs.toNat ≤ 1020) :
    ∀ s ∈ gicDistStores gic m, s.reg.Holds s.off := by
  intro s hs
  cases List.mem_cons.mp hs with
  | inl hfirst =>
      rw [hfirst]
      decide
  | inr hrest => exact holds_loopStores hn hrest

theorem gicDistInit_dist (gic : GicChipData) (hbase : gic.rawDistBase = m.distAt)
    (hn : gic.gicIrqs.toNat ≤ 1020) :
    ∃ cpumask : U32, (∀ j < 4, cpumask.extractLsb' (j * 8) 8 = firstTargets m.dist.target) ∧
      gicDistInit gic m =
        { m with
          dist := (loopStores gic.gicIrqs.toNat cpumask).foldl Distributor.apply
            { m.dist with ctrl := gicdDisable } } := by
  have hdisable : GicDist.ctrl.Holds 0 := by decide
  refine ⟨spreadMask (gicGetCpumask gic (m.store gic.rawDistBase ⟨gicdDisable, .ctrl, 0⟩)), ?_, ?_⟩
  · intro j hj
    rw [hbase, m.store_eq (s := ⟨gicdDisable, .ctrl, 0⟩) hdisable]
    exact byte_cpumask hbase hj
  · rw [gicDistInit, hbase, Machine.foldl_store (holds_gicDistStores hn),
      gicDistStores, hbase]
    rfl

theorem holds_priStores : ∀ s ∈ priStores, s.reg.Holds s.off := by
  decide

/-- Priorities change and nothing else. -/
theorem foldl_priStores (dist : Distributor) :
    ∃ pri, priStores.foldl Distributor.apply dist = { dist with pri := pri } := by
  refine List.foldlRecOn (motive := fun dist' => ∃ pri, dist' = { dist with pri := pri })
    priStores Distributor.apply ⟨dist.pri, rfl⟩ ?_
  rintro _ ⟨pri, rfl⟩ s hs
  obtain ⟨c, -, rfl⟩ := List.mem_map.mp hs
  exact ⟨pri.put (c * 4 / 4 / 4) 0xa0a0a0a0, rfl⟩

theorem gicCpuInit_dist (gic : GicChipData) (hbase : gic.rawDistBase = m.distAt)
    (hapart : Apart m.distAt 0x1000 gic.rawCpuBase 0x1000) :
    ∃ pri rest, gicCpuInit gic m =
      { m with dist := { m.dist with pri := pri }, rest := rest } := by
  have hcpu : ∀ (m' : Machine) (v : U32) (off : U64),
      off.toNat < 0x1000 → m'.distAt = m.distAt →
      m'.writel v (gic.rawCpuBase + off) =
        { m' with rest := Function.update m'.rest (gic.rawCpuBase + off) v } := by
    intro m' v off hoff hat
    refine m'.writel_of_not_within v fun hin => ?_
    rw [hat] at hin
    exact hapart _ hin (Memory.within_add _ hoff)
  obtain ⟨pri, hpri⟩ := foldl_priStores m.dist
  rw [gicCpuInit, hbase, Machine.foldl_store holds_priStores, hpri]
  rw [hcpu _ _ gicCpuPrimask (by decide), hcpu _ _ gicCpuCtrl (by decide)]
  · exact ⟨pri, _, rfl⟩
  · rfl
  · rfl

/-- The distributor goes through the loops, and its priorities change. -/
theorem gicInit_eq (chip : Fin armGicMaxNr) {cpuBase : U64}
    (hapart : Apart m.distAt 0x1000 cpuBase 0x1000) :
    ∃ cpumask pri rest,
      (∀ j < 4, BitVec.extractLsb' (j * 8) 8 cpumask = firstTargets m.dist.target) ∧
      (gicInit chip m.distAt cpuBase m).1 =
        { m with
          dist :=
            { (loopStores (irqCount m.dist.ctr).toNat cpumask).foldl Distributor.apply
                { m.dist with ctrl := gicdDisable } with
              pri := pri }
          rest := rest
          gicData := fun _ => ⟨m.distAt, cpuBase, irqCount m.dist.ctr⟩ } := by
  have hctr : GicDist.ctr.Holds 0 := by decide
  have hread : m.readl (GicDist.ctr.address m.distAt 0) = m.dist.ctr := m.readl_address hctr
  have hdata : ∀ gic : GicChipData, Function.update m.gicData chip gic = fun _ => gic := by
    intro gic
    funext other
    rw [Subsingleton.elim other chip, Function.update_self]
  have hn := irqCount_le m.dist.ctr
  obtain ⟨cpumask, hbytes, hdist⟩ :=
    gicDistInit_dist ⟨m.distAt, cpuBase, irqCount m.dist.ctr⟩
    (m := { m with gicData := fun _ => ⟨m.distAt, cpuBase, irqCount m.dist.ctr⟩ }) rfl hn
  obtain ⟨pri, rest, hcpu⟩ := gicCpuInit_dist ⟨m.distAt, cpuBase, irqCount m.dist.ctr⟩
    (m := gicDistInit ⟨m.distAt, cpuBase, irqCount m.dist.ctr⟩
      { m with gicData := fun _ => ⟨m.distAt, cpuBase, irqCount m.dist.ctr⟩ })
    (by rw [hdist]) (by rw [hdist]; exact hapart)
  refine ⟨cpumask, pri, rest, hbytes, ?_⟩
  simp only [gicInit, hread, hdata]
  rw [hcpu, hdist]

theorem toNat_gicIrqs (chip : Fin armGicMaxNr) {cpuBase : U64}
    (hapart : Apart m.distAt 0x1000 cpuBase 0x1000) :
    ((gicInit chip m.distAt cpuBase m).1.gicData chip).gicIrqs.toNat =
      min ((m.dist.ctr.toNat % 32 + 1) * 32) 1020 := by
  obtain ⟨_, _, _, -, heq⟩ := gicInit_eq chip hapart
  rw [heq]
  exact toNat_irqCount m.dist.ctr

end Init

inductive Call where
  | mask (irq : U32)
  | unmask (irq : U32)

namespace Call

def irq : Call → Nat
  | mask irq | unmask irq => irq.toNat

def run (m : Machine) : Call → Machine
  | mask irq => m.gicv2MaskIrq irq
  | unmask irq => m.gicv2UnmaskIrq irq

/-- The one id that a call removes from the enabled ones or inserts. -/
def change (enabled : Set Nat) : Call → Set Nat
  | mask irq => enabled \ {irq.toNat}
  | unmask irq => insert irq.toNat enabled

theorem run_eq {m : Machine} (hbase : m.gicGetDistBase = m.distAt) {call : Call}
    (hirq : call.irq < 1020) :
    ∃ enable : Bank 32, call.run m = { m with dist := { m.dist with enable := enable } } ∧
      enable.ids = call.change m.dist.enable.ids := by
  cases call with
  | mask irq =>
      have hword : irq.toNat / 32 < GicDist.enableClear.count := by
        simp only [Call.irq, GicDist.count] at hirq ⊢
        omega
      refine ⟨_, Machine.gicSetIrq_eq hbase hword, ?_⟩
      rw [Bank.ids_clear, named_twoPow (by decide)]
      rfl
  | unmask irq =>
      have hword : irq.toNat / 32 < GicDist.enableSet.count := by
        simp only [Call.irq, GicDist.count] at hirq ⊢
        omega
      refine ⟨_, Machine.gicSetIrq_eq hbase hword, ?_⟩
      rw [Bank.ids_set, named_twoPow (by decide), Set.union_comm]
      rfl

theorem foldl_run {m : Machine} (hbase : m.gicGetDistBase = m.distAt) {calls : List Call}
    (hirq : ∀ call ∈ calls, call.irq < 1020) :
    ∃ enable : Bank 32,
      calls.foldl run m = { m with dist := { m.dist with enable := enable } } ∧
      enable.ids = calls.foldl change m.dist.enable.ids := by
  induction calls generalizing m with
  | nil => exact ⟨m.dist.enable, rfl, rfl⟩
  | cons call calls ih =>
      obtain ⟨enable, hrun, hids⟩ := run_eq hbase (hirq call List.mem_cons_self)
      have hrest : ∀ call ∈ calls, call.irq < 1020 := fun call hcall =>
        hirq call (List.mem_cons_of_mem _ hcall)
      rw [List.foldl_cons, List.foldl_cons, hrun, ← hids]
      exact ih (m := { m with dist := { m.dist with enable := enable } }) hbase hrest

end Call

def gicV2DistributorBase (armLocalBase : U64) : U64 := armLocalBase + 0x00041000

def gicV2CpuInterfaceBase (armLocalBase : U64) : U64 := armLocalBase + 0x00042000

/-- The two interfaces that `main` passes are apart on either board. -/
theorem apart_interfaces (armLocalBase : U64) :
    Apart (gicV2DistributorBase armLocalBase) 0x1000
      (gicV2CpuInterfaceBase armLocalBase) 0x1000 :=
  .offset armLocalBase (.inl (by decide))

/-- From any contents of the registers, with as many ids as the type register gives. -/
theorem gicInit_calls (chip : Fin armGicMaxNr) {m : Machine} {cpuBase : U64}
    (hapart : Apart m.distAt 0x1000 cpuBase 0x1000) :
    let after := (gicInit chip m.distAt cpuBase m).1
    let gic := after.gicData chip
    let gicIrqs := gic.gicIrqs.toNat
    (∀ i < gicIrqs, i ∉ after.dist.active.ids ∧ (i ∈ after.dist.enable.ids ↔ i < 16)) ∧
    (∀ i < gicIrqs, 32 ≤ i →
      after.dist.targets i = firstTargets m.dist.target ∧ after.dist.trigger i = .level) ∧
    (∀ s ∈ gicDistStores gic { m with gicData := after.gicData },
      s.reg.Holds s.off ∧
        m.register (s.reg.address gic.rawDistBase s.off) = some (s.reg, s.off / 4)) ∧
    ∀ calls : List Call, (∀ call ∈ calls, call.irq < gicIrqs) →
      ∃ enable : Bank 32,
        calls.foldl Call.run after =
          { after with dist := { after.dist with enable := enable } } ∧
        enable.ids = calls.foldl Call.change after.dist.enable.ids := by
  obtain ⟨cpumask, pri, rest, hbytes, heq⟩ := gicInit_eq chip hapart
  have hn := irqCount_le m.dist.ctr
  intro after gic gicIrqs
  have hafter : after = _ := heq
  have hgic : gic = ⟨m.distAt, cpuBase, irqCount m.dist.ctr⟩ :=
    congrArg (·.gicData chip) hafter
  have hgicIrqs : gicIrqs = (irqCount m.dist.ctr).toNat := congrArg (·.gicIrqs.toNat) hgic
  rw [hgicIrqs]
  refine ⟨fun i hi => ⟨?_, ?_, ?_⟩, fun i hi hlow => ⟨?_, ?_⟩, fun s hs => ?_, fun calls hirq => ?_⟩
  · rw [hafter]
    exact inactive_loopStores _ hi
  · intro hin
    rw [hafter] at hin
    by_contra hsgi
    exact disabled_loopStores _ hi (Nat.not_lt.mp hsgi) hin
  · intro hsgi
    rw [hafter]
    exact enabled_loopStores _ hsgi
  · rw [hafter]
    exact targets_loopStores _ hbytes hlow hi
  · rw [hafter]
    exact trigger_loopStores _ hlow hi
  · have hholds : s.reg.Holds s.off := holds_gicDistStores (by rw [hgic]; exact hn) s hs
    rw [hgic]
    exact ⟨hholds, m.register_address hholds⟩
  · have hbase : after.gicGetDistBase = after.distAt := by rw [hafter]; rfl
    exact Call.foldl_run hbase fun call hcall => Nat.lt_of_lt_of_le (hirq call hcall) hn

theorem gicInit_calls_full :
    let board : Machine :=
      { distAt := gicV2DistributorBase 0xff800000
        dist :=
          { ctrl := 1
            ctr := 31
            enable := fun _ => 0xffffffff
            active := fun _ => 0xffffffff
            pri := fun _ => 0
            target := fun k => if k = 3 then 0x00020100 else 0
            config := fun _ => 0xffffffff }
        rest := fun _ => 0
        gicData := fun _ => ⟨0, 0, 0⟩ }
    let after := (gicInit 0 board.distAt (gicV2CpuInterfaceBase 0xff800000) board).1
    (1019 ∉ after.dist.active.ids ∧ 1019 ∉ after.dist.enable.ids) ∧
    (after.dist.targets 1019 = 3 ∧ after.dist.trigger 1019 = .level) ∧
    (∀ s ∈ gicDistStores (after.gicData 0) { board with gicData := after.gicData },
      s.reg.Holds s.off) ∧
    ∃ enable : Bank 32,
      [Call.unmask 30, .unmask 1019, .mask 30].foldl Call.run after =
        { after with dist := { after.dist with enable := enable } } ∧
      enable.ids = insert 1019 (insert 30 after.dist.enable.ids) \ {30} := by
  intro board
  have hcount : min ((board.dist.ctr.toNat % 32 + 1) * 32) 1020 = 1020 :=
    Nat.min_eq_right (by decide)
  have hgicIrqs := toNat_gicIrqs (m := board) 0 (apart_interfaces 0xff800000)
  have h := gicInit_calls (m := board) 0 (apart_interfaces 0xff800000)
  revert h hgicIrqs
  generalize (gicInit 0 board.distAt (gicV2CpuInterfaceBase 0xff800000) board).1 = after
  rw [hcount]
  rintro hgicIrqs ⟨hquiet, hwired, hmeant, hcalls⟩
  rw [hgicIrqs] at hquiet hwired hcalls
  obtain ⟨hactive, henable⟩ := hquiet 1019 (by decide)
  obtain ⟨htargets, htrigger⟩ := hwired 1019 (by decide) (by decide)
  refine ⟨⟨hactive, fun hin => absurd (henable.mp hin) (by decide)⟩, ⟨?_, htrigger⟩, ?_, ?_⟩
  · exact htargets.trans (by decide)
  · exact fun s hs => (hmeant s hs).1
  · refine hcalls [.unmask 30, .unmask 1019, .mask 30] ?_
    intro call hcall
    simp only [List.mem_cons, List.not_mem_nil, or_false] at hcall
    obtain rfl | rfl | rfl := hcall
    all_goals decide

end YiOS.Gic
