import YiOS.Mmu.Levels

namespace YiOS

open YiOS.Library

/-! The leaf that a request puts over an address, and what the hardware makes
of it. -/

namespace Request

def leaf (r : Request) (A B va : Nat) : Leaf :=
  if r.Sect A B (va / 2 ^ 21) then
    .block (r.sectDesc (va / 2 ^ 21))
  else
    .page (r.pageDesc (va / 2 ^ 12))

/-- The output addresses are page aligned below 2^48, and the protection keeps
off the address field. -/
structure Fits (r : Request) (A B : Nat) : Prop where
  bound : ∀ {a}, A ≤ a → a < B → (r.phys a).toNat < 2 ^ 48
  aligned : ∀ {a}, a % 2 ^ 12 = 0 → (r.phys a).toNat % 2 ^ 12 = 0
  prot : r.prot &&& pteAddrMask = 0

theorem phys_add (r : Request) (a d : Nat) :
    r.phys a + BitVec.ofNat 64 d = r.phys (a + d) := by
  rw [phys, phys, BitVec.ofNat_add]
  ac_rfl

end Request

/-- The bits of a descriptor that are neither address nor type. -/
def attributeMask : U64 := ~~~(pteAddrMask ||| typeMask)

theorem isPage_and_attributeMask (h : IsPage p) : p &&& attributeMask = 0 := by
  have hmask : pteAddrMask &&& attributeMask = 0 := by decide
  rw [← h, BitVec.and_assoc, hmask]
  exact BitVec.and_zero

theorem and_pmdMask {p : U64} (h : p.toNat % 2 ^ 21 = 0) : p &&& pmdMask = p := by
  have hmask : pmdMask = BitVec.allOnes 64 <<< 21 := by decide
  apply BitVec.eq_of_toNat_eq
  rw [hmask, toNat_and_highMask, Nat.div_mul_cancel (Nat.dvd_of_mod_eq_zero h)]

theorem and_not_pmdMask (va : U64) :
    va &&& ~~~pmdMask = BitVec.ofNat 64 (va.toNat % 2 ^ 21) := by
  have hmask : ~~~pmdMask = BitVec.ofNat 64 (2 ^ 21 - 1) := by decide
  apply BitVec.eq_of_toNat_eq
  rw [hmask, toNat_and_lowMask _ (by omega), BitVec.toNat_ofNat]
  exact (Nat.mod_eq_of_lt (by omega)).symm

theorem and_not_pageMask (va : U64) :
    va &&& ~~~pageMask = BitVec.ofNat 64 (va.toNat % 2 ^ 12) := by
  have hmask : ~~~pageMask = BitVec.ofNat 64 (2 ^ 12 - 1) := by decide
  apply BitVec.eq_of_toNat_eq
  rw [hmask, toNat_and_lowMask _ (by omega), BitVec.toNat_ofNat]
  exact (Nat.mod_eq_of_lt (by omega)).symm

section

variable {p prot : U64}

theorem sectProt_addrMask (hprot : prot &&& pteAddrMask = 0) :
    (pmdTypeSect ||| mkSectProt prot) &&& pteAddrMask = 0 := by
  have htype : pmdTypeSect &&& pteAddrMask = 0 := by decide
  have hsect : mkSectProt prot &&& pteAddrMask = 0 := by
    rw [mkSectProt, BitVec.and_assoc, BitVec.and_comm (~~~pteTableBit), ← BitVec.and_assoc,
      hprot]
    exact BitVec.zero_and
  exact (or_and_eq_zero _ _ _).mpr ⟨htype, hsect⟩

theorem sectProt_attributeMask (prot : U64) :
    (pmdTypeSect ||| mkSectProt prot) &&& attributeMask = prot &&& attributeMask := by
  have hbit : ~~~pteTableBit &&& attributeMask = attributeMask := by decide
  rw [or_and_right_of_and_eq _ (by decide), mkSectProt, BitVec.and_assoc, hbit]

theorem pfnPmd_eq (hp : p.toNat % 2 ^ 21 = 0) (prot : U64) :
    pfnPmd (p >>> pmdShift) prot = p ||| prot := by
  rw [pfnPmd, pmdShift, shiftRight_shiftLeft_of_mod p hp]

theorem pfnPte_eq (hp : p.toNat % 2 ^ 12 = 0) (prot : U64) :
    pfnPte (p >>> pageShift) prot = p ||| prot := by
  rw [pfnPte, pageShift, shiftRight_shiftLeft_of_mod p hp]

theorem IsPage.pagePaddr_or (h : IsPage p) (hprot : prot &&& pteAddrMask = 0) :
    pagePaddr (p ||| prot) = p := by
  rw [pagePaddr, or_and_of_and_eq p hprot]
  exact h

theorem IsPage.or_attributeMask (h : IsPage p) (prot : U64) :
    (p ||| prot) &&& attributeMask = prot &&& attributeMask :=
  or_and_right_of_and_eq prot (isPage_and_attributeMask h)

end

namespace Request

variable {r : Request} {A B : Nat}

theorem Fits.isPage (hfits : r.Fits A B) (hlow : A ≤ a) (hhigh : a < B)
    (ha : a % 2 ^ 12 = 0) :
    IsPage (r.phys a) :=
  (isPage_iff _).mpr ⟨hfits.aligned ha, hfits.bound hlow hhigh⟩

theorem leaf_output (hfits : r.Fits A B) (hA : A % 2 ^ 12 = 0) {va : U64}
    (hlow : A ≤ va.toNat) (hhigh : va.toNat < B) :
    (r.leaf A B va.toNat).output va = r.phys va.toNat := by
  unfold leaf
  split
  · next hsect =>
    obtain ⟨hstart, hstop, haligned, _⟩ := hsect
    have hpage : IsPage (r.phys (va.toNat / 2 ^ 21 * 2 ^ 21)) :=
      hfits.isPage hstart (by omega) (by omega)
    rw [Leaf.output, sectDesc, pfnPmd_eq haligned,
      hpage.pagePaddr_or (sectProt_addrMask hfits.prot), and_pmdMask haligned,
      and_not_pmdMask, phys_add, Nat.div_add_mod']
  · have hpage : IsPage (r.phys (va.toNat / 2 ^ 12 * 2 ^ 12)) :=
      hfits.isPage (by omega) (by omega) (Nat.mul_mod_left _ _)
    rw [Leaf.output, pageDesc, pfnPte_eq ((isPage_iff _).mp hpage).1,
      hpage.pagePaddr_or hfits.prot, and_not_pageMask, phys_add, Nat.div_add_mod']

theorem leaf_attributes (hfits : r.Fits A B) (hA : A % 2 ^ 12 = 0) (hlow : A ≤ va)
    (hhigh : va < B) : (r.leaf A B va).attributes = r.prot &&& attributeMask := by
  unfold leaf
  split
  · next hsect =>
    obtain ⟨hstart, hstop, haligned, _⟩ := hsect
    have hpage : IsPage (r.phys (va / 2 ^ 21 * 2 ^ 21)) :=
      hfits.isPage hstart (by omega) (by omega)
    rw [Leaf.attributes, Leaf.entry, sectDesc, pfnPmd_eq haligned]
    exact (hpage.or_attributeMask _).trans (sectProt_attributeMask r.prot)
  · have hpage : IsPage (r.phys (va / 2 ^ 12 * 2 ^ 12)) :=
      hfits.isPage (by omega) (by omega) (Nat.mul_mod_left _ _)
    rw [Leaf.attributes, Leaf.entry, pageDesc, pfnPte_eq ((isPage_iff _).mp hpage).1]
    exact hpage.or_attributeMask _

end Request

/-! What a call does to the walks when it maps no pages over a block. -/

section

variable {root : U64} {r : Request} {A B : Nat} {N : Level → Nat → Prop}
variable {mem mem' : U64 → U64} {tbl tbl' : Tables} {events : List Event} {va : U64}

theorem Mapped.walk_in (h : Mapped r A B N mem tbl mem' tbl' events)
    (htree' : Tree root mem' tbl') (hhit : ∀ k, ¬ Hit r A B mem tbl k)
    (hprot : r.prot &&& typeMask = 3) (hlow : A ≤ va.toNat / 2 ^ 12 * 2 ^ 12)
    (hhigh : va.toNat < B) (hva : va.toNat < 2 ^ 48) :
    walk mem' root va = some (r.leaf A B va.toNat) := by
  rw [htree'.walk_eq hva, Request.leaf]
  have hdiv : va.toNat / 2 ^ 12 / 512 = va.toNat / 2 ^ 21 := by omega
  have hmeets : Meets (2 ^ 21) A B (va.toNat / 2 ^ 21) :=
    hdiv ▸ page_meets hlow (by omega)
  split
  · next hsect =>
    have htype : r.sectDesc (va.toNat / 2 ^ 21) &&& typeMask = 1 :=
      pfnPmd_sect_typeMask _ _
    rw [h.pmd_sect _ hsect, Leaf.ofEntries, htype, if_neg (by decide), if_pos rfl]
  · next hsect =>
    have hblock : ¬ IsBlock (entry mem tbl .pmd (va.toNat / 2 ^ 21)) :=
      fun hblock => hhit _ ⟨hmeets, hsect, hblock⟩
    have hpte : entry mem' tbl' .pte (va.toNat / 2 ^ 12) = r.pageDesc (va.toNat / 2 ^ 12) :=
      h.pte_in _ hlow (by omega) (by rwa [hdiv]) (by rwa [hdiv])
    have htype : r.pageDesc (va.toNat / 2 ^ 12) &&& typeMask = 3 := pfnPte_typeMask _ hprot
    rw [Leaf.ofEntries, if_pos (h.pmd_page _ hmeets hsect hblock), hpte, if_pos htype]

theorem Mapped.walk_out (h : Mapped r A B N mem tbl mem' tbl' events)
    (htree : Tree root mem tbl) (htree' : Tree root mem' tbl')
    (hA : A % 2 ^ 12 = 0) (hB : B % 2 ^ 12 = 0)
    (hout : ¬ (A ≤ va.toNat ∧ va.toNat < B)) (hva : va.toNat < 2 ^ 48) :
    walk mem' root va = walk mem root va := by
  have hpte : entry mem' tbl' .pte (va.toNat / 2 ^ 12) =
    entry mem tbl .pte (va.toNat / 2 ^ 12) :=
    h.pte_out _ (by omega)
  rw [htree'.walk_eq hva, htree.walk_eq hva, hpte]
  by_cases hmeets : Meets (2 ^ 21) A B (va.toNat / 2 ^ 21)
  · have hsect : ¬ r.Sect A B (va.toNat / 2 ^ 21) := fun hsect =>
      hout ⟨hsect.1.trans (Nat.div_mul_le_self _ _), by have := hsect.2.1; omega⟩
    by_cases hblock : IsBlock (entry mem tbl .pmd (va.toNat / 2 ^ 21))
    · rw [h.pmd_hit _ ⟨hmeets, hsect, hblock⟩]
    have hpmd := h.pmd_page _ hmeets hsect hblock
    cases htbl : tbl .pte (va.toNat / 2 ^ 21) with
    | some t =>
        have htype := htree.type_of_tbl (l := .pmd) (by decide) htbl
        rw [Leaf.ofEntries, Leaf.ofEntries, if_pos hpmd, if_pos htype]
    | none =>
        -- a region without a table has no entries to read
        have hempty : entry mem tbl .pte (va.toNat / 2 ^ 12) = 0 := by
          apply entry_of_none
          rwa [show va.toNat / 2 ^ 12 / 512 = va.toNat / 2 ^ 21 by omega]
        have hzero := (htree.entry_none (l := .pmd) (by decide) htbl).resolve_right
          fun hside => hblock hside.2
        rw [Leaf.ofEntries, if_pos hpmd, hempty, hzero]
        rfl
  · rw [h.pmd_out _ hmeets]

end

end YiOS
