import YiOS.Mmu.Reach

namespace YiOS

open YiOS.Library

/-! `paging_init`: the tables of the boot layout. -/

namespace Leaf

def Writable (leaf : Leaf) : Prop := leaf.entry &&& pteRdonly = 0

/-- Executable at EL1. -/
def Executable (leaf : Leaf) : Prop := leaf.entry &&& ptePxn = 0

def Device (leaf : Leaf) : Prop :=
  leaf.entry &&& pteAttrindxMask = pteAttrindx mtDeviceNGnRnE

theorem entry_and (leaf : Leaf) (hmask : attributeMask &&& bits = bits) :
    leaf.entry &&& bits = leaf.attributes &&& bits := by
  rw [attributes, BitVec.and_assoc]
  exact congrArg (leaf.entry &&& ·) hmask.symm

end Leaf

/-- Symbols of the linker script. -/
structure Layout where
  textBoot : U64
  etext : U64
  idmapPgDir : U64

structure Layout.WellFormed (layout : Layout) : Prop where
  textBoot : layout.textBoot.toNat % 4096 = 0
  text : layout.textBoot.toNat < layout.etext.toNat
  etext : layout.etext.toNat ≤ lowMemory.toNat
  idmapPgDir : layout.idmapPgDir.toNat % 4096 = 0
  data : (pageBalign layout.etext).toNat ≤ layout.idmapPgDir.toNat
  low : layout.idmapPgDir.toNat + pageSize.toNat ≤ lowMemory.toNat

section

variable {σ : Type} (getFreePage : σ → U64 × σ) (fuel : Nat) (layout : Layout)

def createIdenticalMapping (m : Machine σ) : Option (Machine σ) :=
  let start := layout.textBoot
  let stop := layout.etext
  (createPgdMapping (earlyPgtableAlloc getFreePage) fuel layout.idmapPgDir start start
    (stop - start) pageKernelRox 0 m).bind fun m =>
      let start := pageBalign layout.etext
      let stop := totalMemory
      createPgdMapping (earlyPgtableAlloc getFreePage) fuel layout.idmapPgDir start start
        (stop - start) pageKernel 0 m

def createMmioMapping (m : Machine σ) : Option (Machine σ) :=
  createPgdMapping (earlyPgtableAlloc getFreePage) fuel layout.idmapPgDir pBase pBase
    deviceSize protDeviceNGnRnE 0 m

/-- `paging_init` up to `cpu_init`. -/
def pagingInit (m : Machine σ) : Option (Machine σ) :=
  (createIdenticalMapping getFreePage fuel layout
    (m.memset layout.idmapPgDir (pageSize.toNat / 8))).bind
      (createMmioMapping getFreePage fuel layout)

end

namespace Layout

def textCall (layout : Layout) : Call :=
  ⟨layout.textBoot, layout.textBoot, layout.etext - layout.textBoot, pageKernelRox, 0⟩

def memoryCall (layout : Layout) : Call :=
  ⟨pageBalign layout.etext, pageBalign layout.etext, totalMemory - pageBalign layout.etext,
    pageKernel, 0⟩

def mmioCall : Call := ⟨pBase, pBase, deviceSize, protDeviceNGnRnE, 0⟩

def calls (layout : Layout) : List Call := [layout.textCall, layout.memoryCall, mmioCall]

end Layout

theorem pagingInit_eq (getFreePage : σ → U64 × σ) (fuel : Nat) (layout : Layout)
    (m : Machine σ) :
    pagingInit getFreePage fuel layout m =
      createAll getFreePage fuel layout.idmapPgDir layout.calls
        (m.memset layout.idmapPgDir 512) := by
  have hwords : pageSize.toNat / 8 = 512 := by decide
  simp only [pagingInit, createIdenticalMapping, createAll, Layout.calls, hwords,
    Option.bind_assoc]
  refine congrArg (Option.bind _) (funext fun m => congrArg (Option.bind _) (funext fun m => ?_))
  exact (Option.bind_fun_some _).symm

namespace Layout.WellFormed

variable {layout : Layout}

/-- The end of the text, up to a page. -/
theorem toNat_etext (h : layout.WellFormed) :
    (pageBalign layout.etext).toNat = (layout.etext.toNat + 4095) / 4096 * 4096 := by
  have hetext := h.etext
  rw [lowMemory_toNat] at hetext
  exact toNat_pageBalign _ (by omega)

/-- The three ranges. -/
theorem textCall_low (h : layout.WellFormed) :
    layout.textCall.low = layout.textBoot.toNat := by
  have hboot := h.textBoot
  rw [Call.low_eq]
  exact Nat.div_mul_cancel (Nat.dvd_of_mod_eq_zero hboot)

theorem textCall_high (layout : Layout) :
    layout.textCall.high = (pageBalign layout.etext).toNat := by
  have hsum : layout.textBoot + (layout.etext - layout.textBoot) = layout.etext := by
    rw [BitVec.add_comm, BitVec.sub_add_cancel]
  rw [Call.high, textCall, hsum]

theorem memoryCall_low (h : layout.WellFormed) :
    layout.memoryCall.low = (pageBalign layout.etext).toNat := by
  rw [Call.low_eq, memoryCall, h.toNat_etext, Nat.mul_div_cancel _ (by omega)]

theorem memoryCall_high (layout : Layout) : layout.memoryCall.high = totalMemory.toNat := by
  have hsum : pageBalign layout.etext + (totalMemory - pageBalign layout.etext) =
      totalMemory := by
    rw [BitVec.add_comm, BitVec.sub_add_cancel]
  rw [Call.high, memoryCall, hsum]
  decide

theorem mmioCall_low : mmioCall.low = pBase.toNat := by decide

theorem mmioCall_high : mmioCall.high = pBase.toNat + deviceSize.toNat := by decide

/-- The text ends inside of the low memory. -/
theorem etext_le (h : layout.WellFormed) :
    layout.textBoot.toNat < (pageBalign layout.etext).toNat ∧
      (pageBalign layout.etext).toNat ≤ 4194304 := by
  have htext := h.text
  have hetext := h.etext
  rw [lowMemory_toNat] at hetext
  rw [h.toNat_etext]
  have hpages : (layout.etext.toNat + 4095) / 4096 < 1025 := by
    rw [Nat.div_lt_iff_lt_mul (by omega)]
    omega
  constructor <;> omega

theorem textCall_bounded (h : layout.WellFormed) : layout.textCall.Bounded := by
  have htext := h.text
  have hetext := h.etext
  rw [lowMemory_toNat] at hetext
  have hsize : (layout.etext - layout.textBoot).toNat =
      layout.etext.toNat - layout.textBoot.toNat := by
    rw [BitVec.toNat_sub]
    omega
  refine ⟨?_, ?_⟩ <;> simp only [textCall, hsize] <;> omega

theorem memoryCall_bounded (h : layout.WellFormed) : layout.memoryCall.Bounded := by
  have hetext := h.etext_le.2
  have hsize : (totalMemory - pageBalign layout.etext).toNat =
      536870912 - (pageBalign layout.etext).toNat := by
    rw [BitVec.toNat_sub, totalMemory_toNat]
    omega
  refine ⟨?_, ?_⟩ <;> simp only [memoryCall, hsize] <;> omega

theorem mmioCall_bounded : mmioCall.Bounded := ⟨by decide, by decide⟩

theorem calls_valid (h : layout.WellFormed) : ∀ c ∈ layout.calls, c.Valid := by
  have hphys : ∀ {c : Call}, c.Bounded → c.phys = c.virt →
      (c.phys &&& pageMask).toNat + (c.high - c.low) ≤ 2 ^ 48 := by
    intro c hc heq
    have hregion := Call.inRegion hc
    have hlow : (c.phys &&& pageMask).toNat = c.low := by rw [heq]; rfl
    have hlt := hregion.lt
    have hbound := hregion.bound
    omega
  have hrox : pageKernelRox &&& typeMask = 3 ∧ pageKernelRox &&& pteAddrMask = 0 := by
    decide
  have hkernel : pageKernel &&& typeMask = 3 ∧ pageKernel &&& pteAddrMask = 0 := by decide
  intro c hc
  simp only [calls, List.mem_cons, List.not_mem_nil, or_false] at hc
  obtain rfl | rfl | rfl := hc
  · exact ⟨h.textCall_bounded, hphys h.textCall_bounded rfl, hrox.1, hrox.2⟩
  · exact ⟨h.memoryCall_bounded, hphys h.memoryCall_bounded rfl, hkernel.1, hkernel.2⟩
  · exact ⟨mmioCall_bounded, by decide, by decide, by decide⟩

theorem calls_apart (h : layout.WellFormed) : layout.calls.Pairwise Call.Apart := by
  have hetext := h.etext_le.2
  have htotal : totalMemory.toNat ≤ pBase.toNat := by decide
  simp only [calls, List.pairwise_cons, List.mem_cons, List.not_mem_nil, or_false,
    forall_eq_or_imp, forall_eq, false_imp_iff, implies_true, and_true, List.Pairwise.nil,
    Call.Apart, textCall_high, h.memoryCall_low, memoryCall_high, mmioCall_low]
  rw [totalMemory_toNat] at htotal ⊢
  omega

theorem calls_small (h : layout.WellFormed) :
    ∀ c ∈ layout.calls, c.Bounded ∧ ∃ j, InRegion (2 ^ 30) j c.low c.high := by
  intro c hc
  have hbounded := (h.calls_valid c hc).bounded
  obtain ⟨hstart, hstop, hlt, _, _, hbound⟩ := Call.inRegion hbounded
  have hetext := h.etext_le.2
  refine ⟨hbounded, ?_⟩
  simp only [calls, List.mem_cons, List.not_mem_nil, or_false] at hc
  obtain rfl | rfl | rfl := hc
  · refine ⟨0, hstart, hstop, hlt, ?_, ?_, hbound⟩
    · rw [Nat.zero_mul]
      exact Nat.zero_le _
    · rw [textCall_high]
      exact hetext.trans (by decide)
  · refine ⟨0, hstart, hstop, hlt, ?_, ?_, hbound⟩
    · rw [Nat.zero_mul]
      exact Nat.zero_le _
    · rw [memoryCall_high]
      decide
  · exact ⟨3, hstart, hstop, hlt, by decide, by decide, hbound⟩

theorem isPage_idmapPgDir (h : layout.WellFormed) : IsPage layout.idmapPgDir := by
  have hlow := h.low
  rw [pageSize_toNat, lowMemory_toNat] at hlow
  exact (isPage_iff _).mpr ⟨h.idmapPgDir, by omega⟩

theorem idmapPgDir_ne (h : layout.WellFormed) (i : Fin nrPages) :
    layout.idmapPgDir ≠ pageAddr i := by
  intro heq
  have hlow := h.low
  have haddr := toNat_pageAddr i
  rw [← heq] at haddr
  rw [pageSize_toNat, lowMemory_toNat] at hlow
  omega

end Layout.WellFormed

theorem memset_cleared (root : U64) (mem : U64 → U64) (pool : σ) :
    Cleared root (Machine.memset ⟨mem, pool, []⟩ root 512) where
  zero := by
    intro i hi
    rw [Machine.memset_mem]
    exact memsetWords_slotAddr 0 root mem hi
  allocs := rfl
  installed := rfl
  writes := by
    intro e he a ha
    obtain rfl := List.mem_singleton.mp he
    exact ha

/-! The three kinds of memory. -/

namespace Layout

def InText (layout : Layout) (va : U64) : Prop :=
  layout.textBoot.toNat ≤ va.toNat ∧ va.toNat < (pageBalign layout.etext).toNat

def InMemory (layout : Layout) (va : U64) : Prop :=
  layout.textBoot.toNat ≤ va.toNat ∧ va.toNat < totalMemory.toNat

end Layout

def InMmio (va : U64) : Prop :=
  pBase.toNat ≤ va.toNat ∧ va.toNat < pBase.toNat + deviceSize.toNat

structure IdentityMapped (layout : Layout) (mem : U64 → U64) : Prop where
  translates : ∀ va : U64, va.toNat < 2 ^ 48 →
    ((walk mem layout.idmapPgDir va).isSome ↔ layout.InMemory va ∨ InMmio va)
  leaf : ∀ (va : U64) leaf, va.toNat < 2 ^ 48 → walk mem layout.idmapPgDir va = some leaf →
    leaf.output va = va ∧ (leaf.Executable ↔ layout.InText va) ∧
      (leaf.Executable → ¬ leaf.Writable) ∧ (¬ leaf.Executable → leaf.Writable) ∧
      (leaf.Device ↔ InMmio va)
  tables : ∀ {l t}, Reaches mem layout.idmapPgDir l t → ∀ va : U64,
    t.toNat ≤ va.toNat → va.toNat < t.toNat + pageSize.toNat →
    ∃ leaf, walk mem layout.idmapPgDir va = some leaf ∧ leaf.output va = va ∧ leaf.Writable

section

variable {layout : Layout} {fuel : Nat} {m : Machine MemMap} {tbl : Tables} {va : U64}

theorem textCall_contains (h : layout.WellFormed) :
    layout.textCall.Contains va.toNat ↔ layout.InText va := by
  rw [Call.Contains, h.textCall_low, Layout.WellFormed.textCall_high]
  rfl

theorem memoryCall_contains (h : layout.WellFormed) :
    layout.memoryCall.Contains va.toNat ↔
      (pageBalign layout.etext).toNat ≤ va.toNat ∧ va.toNat < totalMemory.toNat := by
  rw [Call.Contains, h.memoryCall_low, Layout.WellFormed.memoryCall_high]

theorem mmioCall_contains : Layout.mmioCall.Contains va.toNat ↔ InMmio va := by
  rw [Call.Contains, Layout.WellFormed.mmioCall_low, Layout.WellFormed.mmioCall_high]
  rfl

/-- The boot ranges cover memory and the devices. -/
theorem calls_contain (h : layout.WellFormed) :
    (∃ c ∈ layout.calls, c.Contains va.toNat) ↔ layout.InMemory va ∨ InMmio va := by
  have hetext := h.etext_le
  simp only [Layout.calls, List.mem_cons, List.not_mem_nil, or_false, exists_eq_or_imp,
    exists_eq_left, textCall_contains h, memoryCall_contains h, mmioCall_contains]
  rw [← or_assoc]
  refine or_congr_left ?_
  rw [Layout.InText, Layout.InMemory, totalMemory_toNat]
  omega

theorem pagingInit_built (h : layout.WellFormed) (hfuel : 512 ≤ fuel) (mem : U64 → U64) :
    ∃ m tbl, pagingInit getFreePage fuel layout ⟨mem, .empty, []⟩ = some m ∧
      Built layout.idmapPgDir layout.calls.reverse m tbl ∧
      ∀ p ∈ allocs m.trace, ∃ i : Fin nrPages, i.val < 1542 ∧ p = pageAddr i := by
  have hbounded : ∀ c ∈ layout.calls, c.Bounded := fun c hc => (h.calls_valid c hc).bounded
  have hcleared := memset_cleared layout.idmapPgDir mem MemMap.empty
  obtain ⟨m, hrun⟩ := createAll_isSome getFreePage hfuel layout.idmapPgDir hbounded
    (Machine.memset ⟨mem, .empty, []⟩ layout.idmapPgDir 512)
  obtain ⟨hpages, hslots⟩ :=
    createAll_lowPages h.calls_small (by decide : 514 * 3 ≤ nrPages)
    h.isPage_idmapPgDir h.idmapPgDir_ne hcleared rfl hrun
  obtain ⟨tbl, hbuilt⟩ :=
    (Built.start h.isPage_idmapPgDir hcleared).createAll hpages hbounded
    (fun _ h => absurd h List.not_mem_nil) h.calls_apart hrun
  rw [List.append_nil] at hbuilt
  exact ⟨m, tbl, by rw [pagingInit_eq, hrun], hbuilt, hslots⟩

/-- An address of a boot range translates to itself with the attributes of the
range. -/
theorem Built.identity (hbuilt : Built layout.idmapPgDir layout.calls.reverse m tbl)
    (h : layout.WellFormed) (hc : c ∈ layout.calls) (hva : c.Contains va.toNat) :
    ∃ leaf, walk m.mem layout.idmapPgDir va = some leaf ∧ leaf.output va = va ∧
      ∀ bits, attributeMask &&& bits = bits → leaf.entry &&& bits = c.prot &&& bits := by
  obtain ⟨leaf, hwalk, houtput, hattributes⟩ :=
    hbuilt.translates (List.mem_reverse.mpr hc) (h.calls_valid c hc) hva
  have hphys : c.phys = c.virt := by
    simp only [Layout.calls, List.mem_cons, List.not_mem_nil, or_false] at hc
    obtain rfl | rfl | rfl := hc <;> rfl
  refine ⟨leaf, hwalk, ?_, fun bits hbits => ?_⟩
  · rw [houtput, hphys, BitVec.add_comm, BitVec.sub_add_cancel]
  · rw [leaf.entry_and hbits, hattributes, BitVec.and_assoc, hbits]

theorem Built.walk_isSome (hbuilt : Built layout.idmapPgDir layout.calls.reverse m tbl)
    (h : layout.WellFormed) (hva : va.toNat < 2 ^ 48) :
    (walk m.mem layout.idmapPgDir va).isSome ↔ ∃ c ∈ layout.calls, c.Contains va.toNat := by
  constructor
  · intro hsome
    by_contra hnone
    have hwalk := hbuilt.outside va hva fun c hc hin =>
      hnone ⟨c, List.mem_reverse.mp hc, hin⟩
    rw [hwalk] at hsome
    exact absurd hsome (by decide)
  · rintro ⟨c, hc, hin⟩
    obtain ⟨leaf, hwalk, _⟩ := hbuilt.identity h hc hin
    rw [hwalk]
    rfl

theorem pageKernelRox_bits :
    pageKernelRox &&& ptePxn = 0 ∧ pageKernelRox &&& pteRdonly ≠ 0 ∧
    pageKernelRox &&& pteAttrindxMask ≠ pteAttrindx mtDeviceNGnRnE := by
  decide

theorem pageKernel_bits : pageKernel &&& ptePxn ≠ 0 ∧ pageKernel &&& pteRdonly = 0 ∧
    pageKernel &&& pteAttrindxMask ≠ pteAttrindx mtDeviceNGnRnE := by
  decide

theorem protDevice_bits :
    protDeviceNGnRnE &&& ptePxn ≠ 0 ∧ protDeviceNGnRnE &&& pteRdonly = 0 ∧
    protDeviceNGnRnE &&& pteAttrindxMask = pteAttrindx mtDeviceNGnRnE := by
  decide

/-- What a leaf allows, by the range that the address lies in. -/
theorem leaf_kind (h : layout.WellFormed) (hc : c ∈ layout.calls)
    (hva : c.Contains va.toNat)
    {leaf : Leaf}
    (hbits : ∀ bits, attributeMask &&& bits = bits →
      leaf.entry &&& bits = c.prot &&& bits) :
    (leaf.Executable ↔ layout.InText va) ∧ (leaf.Executable → ¬ leaf.Writable) ∧
      (¬ leaf.Executable → leaf.Writable) ∧ (leaf.Device ↔ InMmio va) := by
  have hetext := h.etext_le.2
  have htotal : 536870912 ≤ pBase.toNat := by decide
  rw [Leaf.Executable, Leaf.Writable, Leaf.Device, hbits ptePxn (by decide),
    hbits pteRdonly (by decide), hbits pteAttrindxMask (by decide)]
  simp only [Layout.calls, List.mem_cons, List.not_mem_nil, or_false] at hc
  obtain rfl | rfl | rfl := hc
  · obtain ⟨hpxn, hrdonly, hindex⟩ := pageKernelRox_bits
    have hin := (textCall_contains h).mp hva
    have hmmio : ¬ InMmio va := fun hmmio => by
      have hlow := hmmio.1
      have hhigh := hin.2
      omega
    exact ⟨iff_of_true hpxn hin, fun _ => hrdonly, fun hne => absurd hpxn hne,
      iff_of_false hindex hmmio⟩
  · obtain ⟨hpxn, hrdonly, hindex⟩ := pageKernel_bits
    have hin := (memoryCall_contains h).mp hva
    rw [totalMemory_toNat] at hin
    have htext : ¬ layout.InText va := fun htext => by
      have hhigh := htext.2
      omega
    have hmmio : ¬ InMmio va := fun hmmio => by
      have hlow := hmmio.1
      omega
    exact ⟨iff_of_false hpxn htext, fun heq => absurd heq hpxn, fun _ => hrdonly,
      iff_of_false hindex hmmio⟩
  · obtain ⟨hpxn, hrdonly, hindex⟩ := protDevice_bits
    have hin := mmioCall_contains.mp hva
    have htext : ¬ layout.InText va := fun htext => by
      have hlow := hin.1
      have hhigh := htext.2
      omega
    exact ⟨iff_of_false hpxn htext, fun heq => absurd heq hpxn, fun _ => hrdonly,
      iff_of_true hindex hin⟩

/-- The data range is writable. -/
theorem Built.identity_memory (hbuilt : Built layout.idmapPgDir layout.calls.reverse m tbl)
    (h : layout.WellFormed) (hlow : (pageBalign layout.etext).toNat ≤ va.toNat)
    (hhigh : va.toNat < totalMemory.toNat) :
    ∃ leaf, walk m.mem layout.idmapPgDir va = some leaf ∧ leaf.output va = va ∧
      leaf.Writable := by
  have hc : layout.memoryCall ∈ layout.calls := by simp [Layout.calls]
  obtain ⟨leaf, hwalk, houtput, hbits⟩ :=
    hbuilt.identity h hc ((memoryCall_contains h).mpr ⟨hlow, hhigh⟩)
  refine ⟨leaf, hwalk, houtput, ?_⟩
  rw [Leaf.Writable, hbits pteRdonly (by decide)]
  exact pageKernel_bits.2.1

/-- The tables of `paging_init` for every link layout. -/
theorem pagingInit_identity (h : layout.WellFormed) (hfuel : 512 ≤ fuel) (mem : U64 → U64) :
    ∃ m, pagingInit getFreePage fuel layout ⟨mem, .empty, []⟩ = some m ∧
      IdentityMapped layout m.mem := by
  obtain ⟨m, tbl, hrun, hbuilt, hslots⟩ := pagingInit_built h hfuel mem
  refine ⟨m, hrun, ⟨fun va hva => ?_, fun va leaf hva hwalk => ?_, ?_⟩⟩
  · rw [hbuilt.walk_isSome h hva, calls_contain h]
  · obtain ⟨c, hc, hin⟩ := (hbuilt.walk_isSome h hva).mp (by rw [hwalk]; rfl)
    obtain ⟨leaf', hwalk', houtput, hbits⟩ := hbuilt.identity h hc hin
    obtain rfl : leaf = leaf' := Option.some.inj (hwalk.symm.trans hwalk')
    exact ⟨houtput, leaf_kind h hc hin hbits⟩
  · intro l t hreach va hlow hhigh
    obtain ⟨n, ht⟩ := hbuilt.tree.tbl_of_reaches hreach
    have hetext := h.etext_le.2
    rw [pageSize_toNat] at hhigh
    obtain rfl | halloc := hbuilt.origin ht
    · have hdata := h.data
      have hroot := h.low
      rw [pageSize_toNat, lowMemory_toNat] at hroot
      exact hbuilt.identity_memory h (by omega) (by rw [totalMemory_toNat]; omega)
    · obtain ⟨i, hi, rfl⟩ := hslots t halloc
      rw [toNat_pageAddr] at hlow hhigh
      exact hbuilt.identity_memory h (by omega) (by rw [totalMemory_toNat]; omega)

end

theorem pagingInit_identity_layout :
    ∃ m, pagingInit getFreePage 512 ⟨0x80000, 0x85004, 0x90000⟩
        ⟨fun _ => 0xff, .empty, []⟩ = some m ∧
      IdentityMapped ⟨0x80000, 0x85004, 0x90000⟩ m.mem :=
  pagingInit_identity ⟨by decide, by decide, by decide, by decide, by decide, by decide⟩
    (Nat.le_refl 512) fun _ => 0xff

end YiOS
