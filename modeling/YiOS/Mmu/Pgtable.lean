import YiOS.Page

namespace YiOS

open YiOS.Library

/-! `pgtable_hwdef.h`, `pgtable_prot.h` and `pgtable.h`: the descriptors and
the index arithmetic. -/

def pgdirShift : Nat := 39

def pgdirSize : U64 := 1 <<< pgdirShift

def pgdirMask : U64 := ~~~(pgdirSize - 1)

def ptrsPerPgd : U64 := 1 <<< (vaBits - pgdirShift)

def pudShift : Nat := 30

def pudSize : U64 := 1 <<< pudShift

def pudMask : U64 := ~~~(pudSize - 1)

def ptrsPerPud : U64 := 1 <<< (pgdirShift - pudShift)

def pmdShift : Nat := 21

def pmdSize : U64 := 1 <<< pmdShift

def pmdMask : U64 := ~~~(pmdSize - 1)

def ptrsPerPmd : U64 := 1 <<< (pudShift - pmdShift)

def pteShift : Nat := 12

def ptrsPerPte : U64 := 1 <<< (pmdShift - pteShift)

def sectionMask : U64 := ~~~(1 <<< pmdShift - 1)

def pudTypeTable : U64 := 3

def pmdTypeTable : U64 := 3

def pmdTypeSect : U64 := 1

/-- The two type bits of a descriptor. -/
def typeMask : U64 := 3

def pteTypePage : U64 := 3

def pteTableBit : U64 := 1 <<< 1

def pteRdonly : U64 := 1 <<< 7

def pteShared : U64 := 3 <<< 8

def pteAf : U64 := 1 <<< 10

def pteDbm : U64 := 1 <<< 51

def ptePxn : U64 := 1 <<< 53

def pteUxn : U64 := 1 <<< 54

def pteDirty : U64 := 1 <<< 55

def pteWrite : U64 := pteDbm

def pteAddrMask : U64 := (1 <<< (48 - pageShift) - 1) <<< pageShift

def pteAttrindx (t : U64) : U64 := t <<< 2

def pteAttrindxMask : U64 := 7 <<< 2

def mtDeviceNGnRnE : U64 := 0

def mtNormal : U64 := 4

def protDefault : U64 := pteTypePage ||| pteAf ||| pteShared

def protNormal : U64 :=
  protDefault ||| ptePxn ||| pteUxn ||| pteDirty ||| pteWrite ||| pteAttrindx mtNormal

def protDeviceNGnRnE : U64 :=
  protDefault ||| ptePxn ||| pteUxn ||| pteDirty ||| pteWrite |||
    pteAttrindx mtDeviceNGnRnE

def pageKernelRox : U64 := protNormal &&& ~~~(pteWrite ||| ptePxn) ||| pteRdonly

def pageKernel : U64 := protNormal

/-- The common text of the `*_addr_end` macros. -/
def addrEnd (size mask addr stop : U64) : U64 :=
  if ((addr + size) &&& mask) - 1 < stop - 1 then (addr + size) &&& mask else stop

def pgdAddrEnd : U64 → U64 → U64 := addrEnd pgdirSize pgdirMask

def pudAddrEnd : U64 → U64 → U64 := addrEnd pudSize pudMask

def pmdAddrEnd : U64 → U64 → U64 := addrEnd pmdSize pmdMask

/-- The common text of the `*_index` macros. -/
def tableIndex (shift : Nat) (ptrs addr : U64) : U64 := (addr >>> shift) &&& (ptrs - 1)

def pgdIndex : U64 → U64 := tableIndex pgdirShift ptrsPerPgd

def pudIndex : U64 → U64 := tableIndex pudShift ptrsPerPud

def pmdIndex : U64 → U64 := tableIndex pmdShift ptrsPerPmd

def pteIndex : U64 → U64 := tableIndex pageShift ptrsPerPte

/-- The bytes of a descriptor of any level. -/
def entrySize : U64 := 8

def pgdOffsetRaw (pgd addr : U64) : U64 := pgd + pgdIndex addr * entrySize

/-- `pgd_page_paddr`, `pud_page_paddr` and `pmd_page_paddr`. -/
def pagePaddr (entry : U64) : U64 := entry &&& pteAddrMask

/-- The macros take the entry's address; here they take the entry read there. -/
def pudOffsetPhys (pgd addr : U64) : U64 := pagePaddr pgd + pudIndex addr * entrySize

def pmdOffsetPhys (pud addr : U64) : U64 := pagePaddr pud + pmdIndex addr * entrySize

def pteOffsetPhys (pmd addr : U64) : U64 := pagePaddr pmd + pteIndex addr * entrySize

def pfnPmd (pfn prot : U64) : U64 := pfn <<< pmdShift ||| prot

def pfnPte (pfn prot : U64) : U64 := pfn <<< pageShift ||| prot

def mkSectProt (prot : U64) : U64 := prot &&& ~~~pteTableBit

/-! Index arithmetic over the naturals. -/

/-- The end of a range: zero is the top of the address space. -/
def endNat (x : U64) : Nat := if x = 0 then 2 ^ 64 else x.toNat

theorem endNat_le (x : U64) : endNat x ≤ 2 ^ 64 := by
  unfold endNat
  split
  · exact Nat.le_refl _
  · exact Nat.le_of_lt x.isLt

theorem toNat_pred (x : U64) : (x - 1).toNat + 1 = endNat x := by
  have hone : (1 : U64).toNat = 1 := rfl
  have hlt := x.isLt
  unfold endNat
  split
  · next hzero =>
    rw [hzero]
    rfl
  · next hzero =>
    have hne : x.toNat ≠ 0 := fun h => hzero (BitVec.eq_of_toNat_eq h)
    rw [BitVec.toNat_sub, hone]
    omega

theorem endNat_inj (h : endNat a = endNat b) : a = b := by
  have hpred : (a - 1).toNat = (b - 1).toNat := by
    have ha := toNat_pred a
    have hb := toNat_pred b
    omega
  have heq := BitVec.eq_of_toNat_eq hpred
  bv_omega

theorem endNat_of_lt {next stop : U64} (h : endNat next < endNat stop) :
    next.toNat = endNat next := by
  have hne : next ≠ 0 := by
    rintro rfl
    exact absurd h (not_lt.mpr (endNat_le stop))
  exact (if_neg hne).symm

/-- The boundary wraps to zero exactly in the last entry. -/
theorem endNat_boundary {size mask : U64} {shift : Nat} (hshift : shift < 64)
    (hsize : size.toNat = 2 ^ shift) (hmask : mask = BitVec.allOnes 64 <<< shift)
    (addr : U64) :
    endNat ((addr + size) &&& mask) = (addr.toNat / 2 ^ shift + 1) * 2 ^ shift := by
  have hpos : 0 < 2 ^ shift := Nat.two_pow_pos shift
  have hsplit : 2 ^ 64 = 2 ^ shift * 2 ^ (64 - shift) := by
    rw [← Nat.pow_add, Nat.add_sub_cancel' (Nat.le_of_lt hshift)]
  have hindex : addr.toNat / 2 ^ shift < 2 ^ (64 - shift) := by
    rw [Nat.div_lt_iff_lt_mul hpos, Nat.mul_comm, ← hsplit]
    exact addr.isLt
  have hboundary : ((addr + size) &&& mask).toNat =
      (addr.toNat / 2 ^ shift + 1) % 2 ^ (64 - shift) * 2 ^ shift := by
    rw [hmask, toNat_and_highMask, BitVec.toNat_add, hsize, hsplit,
      Nat.mod_mul_right_div_self,
      Nat.add_div_right _ hpos]
  by_cases hlast : addr.toNat / 2 ^ shift + 1 = 2 ^ (64 - shift)
  · have hzero : (addr + size) &&& mask = 0 := by
      apply BitVec.eq_of_toNat_eq
      rw [hboundary, hlast, Nat.mod_self, Nat.zero_mul]
      rfl
    rw [hzero, hlast, Nat.mul_comm, ← hsplit]
    rfl
  · rw [Nat.mod_eq_of_lt (by omega)] at hboundary
    rw [endNat, if_neg, hboundary]
    intro hzero
    rw [hzero] at hboundary
    exact absurd hboundary.symm (Nat.ne_of_gt (Nat.mul_pos (Nat.succ_pos _) hpos))

/-- In that reading the macros take the smaller end. -/
theorem endNat_addrEnd {size mask : U64} {shift : Nat} (hshift : shift < 64)
    (hsize : size.toNat = 2 ^ shift) (hmask : mask = BitVec.allOnes 64 <<< shift)
    (addr stop : U64) :
    endNat (addrEnd size mask addr stop) =
      min ((addr.toNat / 2 ^ shift + 1) * 2 ^ shift) (endNat stop) := by
  have hboundary := endNat_boundary hshift hsize hmask addr
  have hcompare : ((addr + size) &&& mask) - 1 < stop - 1 ↔
      endNat ((addr + size) &&& mask) < endNat stop := by
    rw [BitVec.lt_def, ← toNat_pred, ← toNat_pred]
    omega
  rw [hboundary] at hcompare
  unfold addrEnd
  split
  · next hless =>
    rw [hboundary]
    exact (Nat.min_eq_left (Nat.le_of_lt (hcompare.mp hless))).symm
  · next hless => exact (Nat.min_eq_right (not_lt.mp (mt hcompare.mpr hless))).symm

theorem toNat_addrEnd {addr stop size mask : U64} {shift : Nat} (hshift : shift ≤ 39)
    (hsize : size.toNat = 2 ^ shift) (hmask : mask = BitVec.allOnes 64 <<< shift)
    (hlt : addr.toNat < stop.toNat) (hstop : stop.toNat ≤ 2 ^ 48) :
    (addrEnd size mask addr stop).toNat =
      min ((addr.toNat / 2 ^ shift + 1) * 2 ^ shift) stop.toNat := by
  have hstopNat : endNat stop = stop.toNat := by
    rw [endNat, if_neg]
    rintro rfl
    exact absurd hlt (Nat.not_lt_zero _)
  have hnext := endNat_addrEnd (by omega) hsize hmask addr stop
  have hbelow : endNat (addrEnd size mask addr stop) < endNat 0 := by
    have hlow : endNat (addrEnd size mask addr stop) ≤ endNat stop := by
      rw [hnext]
      exact Nat.min_le_right _ _
    have htop : endNat 0 = 2 ^ 64 := rfl
    omega
  rw [endNat_of_lt hbelow, hnext, hstopNat]

theorem toNat_tableIndex {shift : Nat} {ptrs : U64} (hptrs : ptrs = 512) (addr : U64) :
    (tableIndex shift ptrs addr).toNat = addr.toNat / 2 ^ shift % 512 := by
  have hmask : ptrs - 1 = BitVec.ofNat 64 (2 ^ 9 - 1) := by rw [hptrs]; decide
  rw [tableIndex, hmask, toNat_and_lowMask _ (by omega), toNat_ushiftRight_div,
    show (2 : Nat) ^ 9 = 512 by rfl]

/-- A word of a table: the table's page and an index below 512. -/
def slotAddr (table : U64) (i : Nat) : U64 := table + BitVec.ofNat 64 (8 * i)

theorem add_tableIndex {shift : Nat} {ptrs : U64} (hptrs : ptrs = 512)
    (table addr : U64) :
    table + tableIndex shift ptrs addr * entrySize =
      slotAddr table (addr.toNat / 2 ^ shift % 512) := by
  unfold slotAddr
  congr 1
  apply BitVec.eq_of_toNat_eq
  rw [BitVec.toNat_mul, toNat_tableIndex hptrs, BitVec.toNat_ofNat, Nat.mul_comm]
  rfl

theorem pgdOffsetRaw_eq (pgd addr : U64) :
    pgdOffsetRaw pgd addr = slotAddr pgd (addr.toNat / 2 ^ 39 % 512) :=
  add_tableIndex (by decide) pgd addr

theorem pudOffsetPhys_eq (pgd addr : U64) :
    pudOffsetPhys pgd addr = slotAddr (pagePaddr pgd) (addr.toNat / 2 ^ 30 % 512) :=
  add_tableIndex (by decide) _ addr

theorem pmdOffsetPhys_eq (pud addr : U64) :
    pmdOffsetPhys pud addr = slotAddr (pagePaddr pud) (addr.toNat / 2 ^ 21 % 512) :=
  add_tableIndex (by decide) _ addr

theorem pteOffsetPhys_eq (pmd addr : U64) :
    pteOffsetPhys pmd addr = slotAddr (pagePaddr pmd) (addr.toNat / 2 ^ 12 % 512) :=
  add_tableIndex (by decide) _ addr

/-- A page-aligned address that fits the address field of a descriptor. -/
def IsPage (t : U64) : Prop := t &&& pteAddrMask = t

theorem toNat_pagePaddr (x : U64) :
    (pagePaddr x).toNat = x.toNat % 2 ^ 48 / 4096 * 4096 := by
  have hmask : pteAddrMask =
      BitVec.ofNat 64 (2 ^ 48 - 1) &&& BitVec.allOnes 64 <<< 12 := by decide
  rw [pagePaddr, hmask, ← BitVec.and_assoc, toNat_and_highMask,
    toNat_and_lowMask _ (by omega), show (2 : Nat) ^ 12 = 4096 by rfl]

theorem isPage_iff (t : U64) : IsPage t ↔ t.toNat % 4096 = 0 ∧ t.toNat < 2 ^ 48 := by
  have hpaddr := toNat_pagePaddr t
  constructor
  · intro h
    rw [pagePaddr, h] at hpaddr
    omega
  · rintro ⟨hmod, hlt⟩
    apply BitVec.eq_of_toNat_eq
    change (pagePaddr t).toNat = _
    omega

theorem IsPage.toNat_slotAddr (h : IsPage t) (hi : i < 512) :
    (slotAddr t i).toNat = t.toNat + 8 * i := by
  obtain ⟨_, hlt⟩ := (isPage_iff t).mp h
  rw [slotAddr, BitVec.toNat_add, BitVec.toNat_ofNat]
  omega

/-- Distinct tables have no word in common. -/
theorem slotAddr_inj (ht : IsPage t) (hu : IsPage u) (hi : i < 512) (hj : j < 512)
    (heq : slotAddr t i = slotAddr u j) : t = u ∧ i = j := by
  have htNat := ht.toNat_slotAddr hi
  have huNat := hu.toNat_slotAddr hj
  rw [heq] at htNat
  have htPage := (isPage_iff t).mp ht
  have huPage := (isPage_iff u).mp hu
  exact ⟨BitVec.eq_of_toNat_eq (by omega), by omega⟩

/-! Descriptors. -/

theorem isPage_pagePaddr (x : U64) : IsPage (pagePaddr x) := by
  rw [IsPage, pagePaddr, BitVec.and_assoc, BitVec.and_self]

@[simp] theorem table_typeMask (t : U64) : (t ||| 3) &&& typeMask = 3 := by
  rw [BitVec.and_or_distrib_right]
  apply BitVec.eq_of_getLsbD_eq
  intro i _
  simp only [typeMask, BitVec.getLsbD_or, BitVec.getLsbD_and]
  cases t.getLsbD i <;> cases (3#64).getLsbD i <;> rfl

theorem IsPage.pagePaddr_table (h : IsPage t) : pagePaddr (t ||| 3) = t := by
  rw [pagePaddr, or_and_of_and_eq t (by decide)]
  exact h

/-- Whatever the protection, `pmd_set_section` stores a block. -/
theorem pfnPmd_sect_typeMask (pfn prot : U64) :
    pfnPmd pfn (pmdTypeSect ||| mkSectProt prot) &&& typeMask = 1 := by
  have hbit : (prot &&& 1 = 0) ∨ (prot &&& 1 = 1) := by
    have hmod : (prot &&& 1).toNat = prot.toNat % 2 :=
      toNat_and_lowMask prot (k := 1) (by omega)
    obtain heven | hodd := Nat.mod_two_eq_zero_or_one prot.toNat
    · exact .inl (BitVec.eq_of_toNat_eq (hmod.trans heven))
    · exact .inr (BitVec.eq_of_toNat_eq (hmod.trans hodd))
  have hprot : mkSectProt prot &&& typeMask = prot &&& 1 := by
    rw [mkSectProt, BitVec.and_assoc]
    rfl
  rw [pfnPmd, or_and_right_of_and_eq _ (shiftLeft_and_of_lt pfn (by decide)),
    BitVec.and_or_distrib_right, hprot]
  obtain hzero | hone := hbit
  · rw [hzero]
    decide
  · rw [hone]
    decide

theorem pfnPte_typeMask (pfn : U64) (hprot : prot &&& typeMask = 3) :
    pfnPte pfn prot &&& typeMask = 3 := by
  rw [pfnPte, or_and_right_of_and_eq _ (shiftLeft_and_of_lt pfn (by decide)), hprot]

theorem table_ne_zero (t : U64) : t ||| 3 ≠ 0 := by
  intro heq
  have htype := table_typeMask t
  rw [heq] at htype
  exact absurd htype (by decide)

end YiOS
