import YiOS.Library.Stage1
import YiOS.Mmu.Dump
import YiOS.Mmu.Live

namespace YiOS

open YiOS.Library
open YiOS.Library.Stage1

/-! `cpu_init` and `enable_mmu`: the registers that put the tables into force. -/

def idAa64mmfr0Tgran4Shift : Nat := 28

def idAa64mmfr0Tgran4Supported : U64 := 0

structure SysRegs where
  cpacr : U64
  mdscr : U64
  mair : U64
  tcr : U64
  ttbr0 : U64
  sctlr : U64
  idAa64mmfr0 : U64

namespace SysRegs

def tgran4 (regs : SysRegs) : U64 := (regs.idAa64mmfr0 >>> idAa64mmfr0Tgran4Shift) &&& 0xf

/-- What the hardware reads of the registers. -/
def control (regs : SysRegs) : Control := ⟨regs.sctlr, regs.mair, regs.tcr, regs.ttbr0⟩

end SysRegs

namespace Layout

instance decidableInText (layout : Layout) (va : U64) : Decidable (layout.InText va) :=
  inferInstanceAs (Decidable (_ ∧ _))

instance decidableInMemory (layout : Layout) (va : U64) : Decidable (layout.InMemory va) :=
  inferInstanceAs (Decidable (_ ∧ _))

end Layout

instance decidableInMmio (va : U64) : Decidable (InMmio va) :=
  inferInstanceAs (Decidable (_ ∧ _))

def Level.depth : Level → Nat
  | .pgd => 3
  | .pud => 2
  | .pmd => 1
  | .pte => 0

/-- The entry of a level that covers an address. -/
def Level.number (l : Level) (va : U64) : Nat := va.toNat / 2 ^ (12 + 9 * l.depth)

namespace Tree

variable {root : U64} {mem : U64 → U64} {tbl : Tables} {bits : Nat} {va : U64}

end Tree

/-- The bits that a leaf leaves alone. -/
def Leaf.bits : Leaf → Nat
  | .block _ => 21
  | .page _ => 12

/-- A leaf as the hardware reports it. -/
def Leaf.found : Option Leaf → Except Fault Found
  | some leaf => .ok ⟨leaf.entry, leaf.bits, .none⟩
  | none => .error .translation

namespace Tree

variable {root : U64} {mem : U64 → U64} {tbl : Tables} {bits : Nat} {va : U64}

end Tree

/-! The registers. -/

namespace SysRegs

/-- The hardware has tables of 4 KiB. -/
def Granule4k (regs : SysRegs) : Prop := regs.tgran4 = idAa64mmfr0Tgran4Supported

instance decidableGranule4k (regs : SysRegs) : Decidable regs.Granule4k :=
  inferInstanceAs (Decidable (_ = _))

end SysRegs

section

variable {layout : Layout} {fuel : Nat} {m : Machine MemMap} {tbl : Tables} {va : U64}
variable {parang root : U64}

end

end YiOS
