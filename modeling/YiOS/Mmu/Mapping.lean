import YiOS.Library.DoRange
import YiOS.Mmu.Pgtable

namespace YiOS

open YiOS.Library

/-! `mmu.c`: building the tables in physical memory. -/

inductive Level where
  | pgd
  | pud
  | pmd
  | pte
  deriving DecidableEq, Repr

/-- What the code does to memory and to the page allocator, in order. -/
inductive Event where
  | alloc (page : U64)
  | memset (start : U64) (words : Nat)
  | set (level : Level) (address value : U64)
  deriving DecidableEq, Repr

/-- Physical memory as 64-bit words by byte address, and the state of the page
allocator.  The trace is newest first and is never read by the code. -/
structure Machine (σ : Type) where
  mem : U64 → U64
  pool : σ
  trace : List Event

/-- The eight-byte stores of the loop of `memset`. -/
def memsetWords (value : U64) : Nat → U64 → (U64 → U64) → U64 → U64
  | 0, _, mem => mem
  | words + 1, start, mem =>
      memsetWords value words (start + 8) (Function.update mem start value)

namespace Machine

variable {σ : Type}

def memset (m : Machine σ) (start : U64) (words : Nat) : Machine σ :=
  { m with
    mem := memsetWords 0 words start m.mem
    trace := .memset start words :: m.trace }

@[simp] theorem memset_mem (m : Machine σ) (start : U64) (words : Nat) :
    (m.memset start words).mem = memsetWords 0 words start m.mem := rfl

def set (m : Machine σ) (level : Level) (address value : U64) : Machine σ :=
  { m with
    mem := Function.update m.mem address value
    trace := .set level address value :: m.trace }

def setPmd (m : Machine σ) : U64 → U64 → Machine σ := m.set .pmd

def setPte (m : Machine σ) : U64 → U64 → Machine σ := m.set .pte

end Machine

section

variable {σ : Type}

/-- `early_pgtable_alloc` over any page allocator. -/
def earlyPgtableAlloc (getFreePage : σ → U64 × σ) (m : Machine σ) : U64 × Machine σ :=
  let (phys, pool) := getFreePage m.pool
  let m := { m with pool, trace := .alloc phys :: m.trace }
  (phys, m.memset phys (pageSize.toNat / 8))

def noBlockMappings : U64 := 1 <<< 0

def pmdSetSection (pmdp phys prot : U64) (m : Machine σ) : Machine σ :=
  let sectProt := pmdTypeSect ||| mkSectProt prot
  m.setPmd pmdp (pfnPmd (phys >>> pmdShift) sectProt)

variable (allocPgtable : Machine σ → U64 × Machine σ) (fuel : Nat)

/-- The first half of the three functions below: an empty entry gets a new
table. -/
def ensureTable (level : Level) (typeTable entryp : U64) (m : Machine σ) : Machine σ :=
  if m.mem entryp = 0 then
    let (phys, m) := allocPgtable m
    m.set level entryp (phys ||| typeTable)
  else
    m

def allocInitPte (pmdp addr stop phys prot _flags : U64) (m : Machine σ) :
    Option (Machine σ) :=
  let m := ensureTable allocPgtable .pmd pmdTypeTable pmdp m
  doRange (fun addr _ => addr + pageSize)
    (fun ptep _ _ phys m => some (m.setPte ptep (pfnPte (phys >>> pageShift) prot)))
    entrySize stop fuel (pteOffsetPhys (m.mem pmdp) addr) addr phys m

def allocInitPmd (pudp addr stop phys prot flags : U64) (m : Machine σ) :
    Option (Machine σ) :=
  let m := ensureTable allocPgtable .pud pudTypeTable pudp m
  doRange pmdAddrEnd
    (fun pmdp addr next phys m =>
      if (addr ||| next ||| phys) &&& ~~~sectionMask = 0 ∧
        flags &&& noBlockMappings = 0 then
        some (pmdSetSection pmdp phys prot m)
      else
        allocInitPte allocPgtable fuel pmdp addr next phys prot flags m)
    entrySize stop fuel (pmdOffsetPhys (m.mem pudp) addr) addr phys m

def allocInitPud (pgdp addr stop phys prot flags : U64) (m : Machine σ) :
    Option (Machine σ) :=
  let m := ensureTable allocPgtable .pgd pudTypeTable pgdp m
  doRange pudAddrEnd
    (fun pudp addr next phys m =>
      allocInitPmd allocPgtable fuel pudp addr next phys prot flags m)
    entrySize stop fuel (pudOffsetPhys (m.mem pgdp) addr) addr phys m

def createPgdMapping (pgdir phys virt size prot flags : U64) (m : Machine σ) :
    Option (Machine σ) :=
  let pgdp := pgdOffsetRaw pgdir virt
  let phys := phys &&& pageMask
  let addr := virt &&& pageMask
  let stop := pageBalign (virt + size)
  doRange pgdAddrEnd
    (fun pgdp addr next phys m =>
      allocInitPud allocPgtable fuel pgdp addr next phys prot flags m)
    entrySize stop fuel pgdp addr phys m

end

end YiOS
