import YiOS.Library.Word

namespace YiOS

open YiOS.Library

abbrev U64 := BitVec 64

/-! `config.h`, `mm.h`, `page.h` and `base.h`: the memory layout. -/

def vaBits : Nat := 48

def pageShift : Nat := 12

def pageSize : U64 := 1 <<< pageShift

def pageMask : U64 := ~~~(pageSize - 1)

/-- `PAGE_BALIGN`: up to the next page boundary. -/
def pageBalign (x : U64) : U64 := (x + pageSize - 1) &&& ~~~(pageSize - 1)

def lowMemory : U64 := 0x400000

def totalMemory : U64 := 0x100000 * 512

/-- The number of slots of `mem_map`. -/
def nrPages : Nat := 131072

example : nrPages = totalMemory.toNat / 4096 := by decide

/-- Peripheral base of the default board. -/
def pBase : U64 := 0xFE000000

def deviceSize : U64 := 0x2000000

@[simp] theorem pageSize_toNat : pageSize.toNat = 4096 := by decide

@[simp] theorem lowMemory_toNat : lowMemory.toNat = 4194304 := by decide

@[simp] theorem totalMemory_toNat : totalMemory.toNat = 536870912 := by decide

theorem pageMask_eq : pageMask = BitVec.allOnes 64 <<< 12 := by decide

theorem toNat_and_pageMask (x : U64) :
    (x &&& pageMask).toNat = x.toNat / 4096 * 4096 := by
  simp only [pageMask_eq, toNat_and_highMask, Nat.reducePow]

theorem toNat_pageBalign (x : U64) (hx : x.toNat + 4095 < 2 ^ 64) :
    (pageBalign x).toNat = (x.toNat + 4095) / 4096 * 4096 := by
  have hsum : (x + pageSize - 1).toNat = x.toNat + 4095 := by
    have hsize := pageSize_toNat
    simp only [BitVec.toNat_sub, BitVec.toNat_add, hsize]
    simp
    omega
  change ((x + pageSize - 1) &&& pageMask).toNat = _
  rw [toNat_and_pageMask, hsum]

end YiOS
