import YiOS.Library.Word

namespace YiOS.Library.Stage1

/-! Stage 1 translation at EL1 with tables of 4 KiB: what the system registers and the
descriptors make of a virtual address. -/

abbrev Word := BitVec 64

inductive Access where
  | fetch
  | load
  | store
  deriving DecidableEq, Repr

inductive Fault where
  | translation
  | addressSize
  | accessFlag
  | permission
  deriving DecidableEq, Repr

/-- The registers of the lower half of the address space. -/
structure Control where
  sctlr : Word
  mair : Word
  tcr : Word
  ttbr0 : Word

namespace Control

variable (c : Control)

/-- The size of a virtual address. -/
def inputBits : Nat := 64 - (c.tcr &&& 63).toNat

/-- The size of a physical address. -/
def outputBits : Nat :=
  match (c.tcr >>> 32 &&& 7).toNat with
  | 0 => 32
  | 1 => 36
  | 2 => 40
  | 3 => 42
  | 4 => 44
  | _ => 48

/-- Each level resolves nine bits. -/
def levels : Nat := (c.inputBits - 12 + 8) / 9

/-- The byte of `MAIR` that a descriptor chooses. -/
def memoryType (descriptor : Word) : BitVec 8 :=
  (c.mair >>> (8 * (descriptor >>> 2 &&& 7).toNat)).setWidth 8

end Control

/-- What the tables on the way forbid. -/
structure Limits where
  readOnly : Bool
  neverFetch : Bool
  deriving DecidableEq, Repr

def Limits.none : Limits := ⟨false, false⟩

/-- A last descriptor, and how many bits of the address it leaves alone. -/
structure Found where
  descriptor : Word
  bits : Nat
  limits : Limits
  deriving DecidableEq, Repr

structure Physical where
  address : Word
  memoryType : BitVec 8
  deriving DecidableEq, Repr

def addressMask : Word := 0x0000fffffffff000

/-- The word of a table, with `n` levels below it, that an address selects. -/
def slot (n : Nat) (table va : Word) : Word := table + (va >>> (12 + 9 * n) &&& 511) * 8

namespace Found

variable (found : Found)

/-- Not writable at EL1. -/
def readOnly : Bool := found.limits.readOnly || found.descriptor.getLsbD 7

/-- Nothing that EL0 can write is executed at EL1, and with `WXN` nothing that EL1 can
write. -/
def neverFetch (sctlr : Word) : Bool :=
  found.limits.neverFetch || found.descriptor.getLsbD 53 ||
    !found.readOnly && (found.descriptor.getLsbD 6 || sctlr.getLsbD 19)

def permits (sctlr : Word) : Access → Bool
  | .fetch => !found.neverFetch sctlr
  | .load => true
  | .store => !found.readOnly

def output (va : Word) : Word :=
  (found.descriptor &&& addressMask &&& BitVec.allOnes 64 <<< found.bits) +
    (va &&& ~~~(BitVec.allOnes 64 <<< found.bits))

end Found

/-- What an access comes to once its descriptor is found. -/
def Control.perform (c : Control) (access : Access) (va : Word) (found : Found) :
    Except Fault Physical :=
  if 2 ^ c.outputBits ≤ (found.output va).toNat then
    .error .addressSize
  else if found.descriptor.getLsbD 10 = false then
    .error .accessFlag
  else if found.permits c.sctlr access = false then
    .error .permission
  else
    .ok ⟨found.output va, c.memoryType found.descriptor⟩

section

variable {mem : Word → Word} {outputBits n : Nat} {va table descriptor : Word}
  {limits : Limits}

end

end YiOS.Library.Stage1
