import YiOS.Library.Bank
import YiOS.Library.Memory
import YiOS.Page

namespace YiOS.Gic

open YiOS.Library

/-! The distributor behind its registers, and the word accesses that reach it. -/

abbrev U32 := BitVec 32

/-- The `GIC_DIST_` registers that the driver uses. -/
inductive GicDist where
  | ctrl
  | ctr
  | enableSet
  | enableClear
  | activeClear
  | pri
  | target
  | config

namespace GicDist

def offset : GicDist → Nat
  | ctrl => 0x000
  | ctr => 0x004
  | enableSet => 0x100
  | enableClear => 0x180
  | activeClear => 0x380
  | pri => 0x400
  | target => 0x800
  | config => 0xc00

/-- Registers in the bank: 1020 ids with a bit, a byte or two bits for each. -/
def count : GicDist → Nat
  | ctrl | ctr => 1
  | enableSet | enableClear | activeClear => 32
  | pri | target => 255
  | config => 64

/-- A register of the bank begins `off` bytes into it. -/
def Holds (reg : GicDist) (off : Nat) : Prop := off % 4 = 0 ∧ off / 4 < reg.count

instance : Decidable (Holds reg off) := inferInstanceAs (Decidable (_ ∧ _))

def all : List GicDist :=
  [ctrl, ctr, enableSet, enableClear, activeClear, pri, target, config]

theorem mem_all (reg : GicDist) : reg ∈ all := by
  cases reg <;> simp [all]

theorem offset_add_lt {reg : GicDist} (h : reg.Holds off) : reg.offset + off < 0x1000 := by
  obtain ⟨-, hlt⟩ := h
  cases reg <;> simp only [count] at hlt <;> simp only [offset] <;> omega

/-- No two banks overlap. -/
theorem eq_of_holds {reg reg' : GicDist} (h : reg.Holds off)
    (hle : reg'.offset ≤ reg.offset + off)
    (h' : reg'.Holds (reg.offset + off - reg'.offset)) : reg' = reg := by
  obtain ⟨-, hlt⟩ := h
  obtain ⟨-, hlt'⟩ := h'
  cases reg <;> cases reg' <;> simp only [offset, count] at * <;> omega

end GicDist

/-- The register at an offset into the distributor's frame. -/
def registerAt (x : Nat) : Option (GicDist × Nat) :=
  (GicDist.all.find? fun reg => reg.offset ≤ x ∧ reg.Holds (x - reg.offset)).map
    fun reg => (reg, (x - reg.offset) / 4)

theorem registerAt_offset {reg : GicDist} (h : reg.Holds off) :
    registerAt (reg.offset + off) = some (reg, off / 4) := by
  have hself : reg.offset ≤ reg.offset + off ∧
    reg.Holds (reg.offset + off - reg.offset) := by
    rw [Nat.add_sub_cancel_left]
    exact ⟨Nat.le_add_right _ _, h⟩
  unfold registerAt
  cases hfind : GicDist.all.find? fun r =>
      r.offset ≤ reg.offset + off ∧ r.Holds (reg.offset + off - r.offset) with
  | none =>
      have hnone := List.find?_eq_none.mp hfind reg (GicDist.mem_all reg)
      exact absurd (decide_eq_true hself) hnone
  | some reg' =>
      have hfound := List.find?_some hfind
      obtain ⟨hle, hholds⟩ := of_decide_eq_true hfound
      obtain rfl := GicDist.eq_of_holds h hle hholds
      rw [Option.map_some, Nat.add_sub_cancel_left]

structure Distributor where
  ctrl : U32
  ctr : U32
  enable : Bank 32
  active : Bank 32
  pri : Bank 32
  target : Bank 32
  config : Bank 32

namespace Distributor

def read (dist : Distributor) (k : Nat) : GicDist → U32
  | .ctrl => dist.ctrl
  | .ctr => dist.ctr
  | .enableSet | .enableClear => dist.enable k
  | .activeClear => dist.active k
  | .pri => dist.pri k
  | .target => dist.target k
  | .config => dist.config k

/-- Enable and active bits are set or cleared by the ones of the word, the type is read
only. -/
def write (dist : Distributor) (k : Nat) (v : U32) : GicDist → Distributor
  | .ctrl => { dist with ctrl := v }
  | .ctr => dist
  | .enableSet => { dist with enable := dist.enable.set k v }
  | .enableClear => { dist with enable := dist.enable.clear k v }
  | .activeClear => { dist with active := dist.active.clear k v }
  | .pri => { dist with pri := dist.pri.put k v }
  | .target => { dist with target := dist.target.put k v }
  | .config => { dist with config := dist.config.put k v }

/-- The byte of the processors that an id goes to. -/
def targets (dist : Distributor) (i : Nat) : BitVec 8 := dist.target.field 8 i

inductive Trigger where
  | level
  | edge
  deriving DecidableEq

/-- The upper one of an id's two bits tells. -/
def trigger (dist : Distributor) (i : Nat) : Trigger :=
  if (dist.config.field 2 i).getLsbD 1 then .edge else .level

end Distributor

structure GicChipData where
  rawDistBase : U64
  rawCpuBase : U64
  gicIrqs : U32

abbrev armGicMaxNr : Nat := 1

/-- The distributor at `distAt`, the words stored at other addresses and `gic_data`. -/
structure Machine where
  distAt : U64
  dist : Distributor
  rest : U64 → U32
  gicData : Fin armGicMaxNr → GicChipData

namespace Machine

def register (m : Machine) (a : U64) : Option (GicDist × Nat) :=
  registerAt (a - m.distAt).toNat

/-- Where the distributor has no register nothing is stored and zero is read. -/
def readl (m : Machine) (a : U64) : U32 :=
  if Within m.distAt 0x1000 a then
    match m.register a with
    | some (reg, k) => m.dist.read k reg
    | none => 0
  else m.rest a

def writel (m : Machine) (v : U32) (a : U64) : Machine :=
  if Within m.distAt 0x1000 a then
    match m.register a with
    | some (reg, k) => { m with dist := m.dist.write k v reg }
    | none => m
  else { m with rest := Function.update m.rest a v }

end Machine

namespace GicDist

/-- `base + GIC_DIST_x + off`. -/
def address (reg : GicDist) (base : U64) (off : Nat) : U64 :=
  base + BitVec.ofNat 64 reg.offset + BitVec.ofNat 64 off

theorem toNat_address_sub {reg : GicDist} (h : reg.Holds off) (base : U64) :
    (reg.address base off - base).toNat = reg.offset + off := by
  have hlt := offset_add_lt h
  have hsub : reg.address base off - base = BitVec.ofNat 64 (reg.offset + off) := by
    rw [address, BitVec.add_assoc, BitVec.add_comm, BitVec.add_sub_cancel,
      ← BitVec.ofNat_add]
  rw [hsub, BitVec.toNat_ofNat, Nat.mod_eq_of_lt (by omega)]

end GicDist

namespace Machine

variable {reg : GicDist} (m : Machine)

theorem within_address (h : reg.Holds off) :
    Within m.distAt 0x1000 (reg.address m.distAt off) := by
  rw [Within, GicDist.toNat_address_sub h]
  exact GicDist.offset_add_lt h

theorem register_address (h : reg.Holds off) :
    m.register (reg.address m.distAt off) = some (reg, off / 4) := by
  rw [register, GicDist.toNat_address_sub h, registerAt_offset h]

theorem readl_address (h : reg.Holds off) :
    m.readl (reg.address m.distAt off) = m.dist.read (off / 4) reg := by
  simp only [readl, if_pos (m.within_address h), m.register_address h]

theorem writel_address (h : reg.Holds off) (v : U32) :
    m.writel v (reg.address m.distAt off) =
      { m with dist := m.dist.write (off / 4) v reg } := by
  simp only [writel, if_pos (m.within_address h), m.register_address h]

theorem writel_of_not_within (v : U32) (h : ¬ Within m.distAt 0x1000 a) :
    m.writel v a = { m with rest := Function.update m.rest a v } := if_neg h

end Machine

end YiOS.Gic
