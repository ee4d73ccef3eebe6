import YiOS.Library.Cuts
import YiOS.Mmu.Traversal

namespace YiOS

open YiOS.Library

namespace Dump

/-! The traversal over any `print_pgtable`, and what it reads and prints. -/

section

variable {α : Type} (fuel : Nat) (mem : U64 → U64)
variable (read : Level → U64 → U64 → α → α) (print : U64 → U64 → Nat → U64 → α → Option α)

def traversePte (pmd start stop : U64) (s : α) : Option α :=
  doRange (fun addr _ => addr + pageSize)
    (fun ptep addr _ _ s =>
      print addr (addr + pageSize) 4 (mem ptep) (read .pte ptep addr s))
    entrySize stop fuel (pteOffsetPhys pmd start) start start s

def traversePmd (pud start stop : U64) (s : α) : Option α :=
  doRange pmdAddrEnd
    (fun pmdp addr next _ s =>
      let pmd := mem pmdp
      if pmd = 0 ∨ pmd &&& typeMask = pmdTypeSect then
        print addr next 3 pmd (read .pmd pmdp addr s)
      else
        traversePte fuel mem read print pmd addr next (read .pmd pmdp addr s))
    entrySize stop fuel (pmdOffsetPhys pud start) start start s

def traversePud (pgd start stop : U64) (s : α) : Option α :=
  doRange (fun _ stop => pudAddrEnd start stop)
    (fun pudp addr next _ s =>
      let pud := mem pudp
      if pud = 0 ∨ pud &&& typeMask = pmdTypeSect then
        print addr next 2 pud (read .pud pudp addr s)
      else
        traversePmd fuel mem read print pud addr next (read .pud pudp addr s))
    entrySize stop fuel (pudOffsetPhys pgd start) start start s

def traversePgd (pgd start size : U64) (s : α) : Option α :=
  doRange pgdAddrEnd
    (fun pgdp addr next _ s =>
      let entry := mem pgdp
      if entry = 0 then
        print addr next 1 entry (read .pgd pgdp addr s)
      else
        traversePud fuel mem read print entry addr next (read .pgd pgdp addr s))
    entrySize (start + size) fuel (pgdOffsetRaw pgd start) start start s

end

theorem walkPgd_eq (fuel : Nat) (mem : U64 → U64) (levels : List PgLevel) :
    walkPgd fuel mem levels =
      traversePgd fuel mem (fun _ _ _ lines => lines) (printPgtable fuel levels) := rfl

inductive Act where
  | read (level : Level) (ptr addr : U64)
  | print (start stop : U64) (level : Nat) (val : U64)
  deriving DecidableEq

/-- The entries read and the calls of `print_pgtable`, in order. -/
def record (fuel : Nat) (mem : U64 → U64) (pgd start size : U64) : Option (List Act) :=
  traversePgd fuel mem (fun level ptr addr acts => acts ++ [.read level ptr addr])
    (fun start stop level val acts => some (acts ++ [.print start stop level val]))
    pgd start size []

def intervals (acts : List Act) : List (Nat × Nat) :=
  acts.filterMap fun
    | .print start stop _ _ => some (start.toNat, stop.toNat)
    | .read _ _ _ => none

/-! The entries that the index macros select for an address. -/

section

variable (mem : U64 → U64) (pgd addr : U64)

def pudPtr : U64 := pudOffsetPhys (mem (pgdOffsetRaw pgd addr)) addr

def pmdPtr : U64 := pmdOffsetPhys (mem (pudPtr mem pgd addr)) addr

def ptePtr : U64 := pteOffsetPhys (mem (pmdPtr mem pgd addr)) addr

def entryPtr : Level → U64
  | .pgd => pgdOffsetRaw pgd addr
  | .pud => pudPtr mem pgd addr
  | .pmd => pmdPtr mem pgd addr
  | .pte => ptePtr mem pgd addr

/-- The table that the entry is in. -/
def tableAt : Level → U64
  | .pgd => pgd
  | .pud => pagePaddr (mem (pgdOffsetRaw pgd addr))
  | .pmd => pagePaddr (mem (pudPtr mem pgd addr))
  | .pte => pagePaddr (mem (pmdPtr mem pgd addr))

theorem entryPtr_slot (l : Level) :
    ∃ i < 512, entryPtr mem pgd addr l = slotAddr (tableAt mem pgd addr l) i := by
  have hlt (n : Nat) : n % 512 < 512 := Nat.mod_lt n (by omega)
  cases l with
  | pgd => exact ⟨_, hlt _, pgdOffsetRaw_eq pgd addr⟩
  | pud => exact ⟨_, hlt _, pudOffsetPhys_eq _ addr⟩
  | pmd => exact ⟨_, hlt _, pmdOffsetPhys_eq _ addr⟩
  | pte => exact ⟨_, hlt _, pteOffsetPhys_eq _ addr⟩

end

/-- What `print_pgtable` calls the level. -/
def levelNumber : Level → Nat
  | .pgd => 1
  | .pud => 2
  | .pmd => 3
  | .pte => 4

/-- The entries read are those that the macros select, and the intervals printed cover
`[A, B)` once, each with the entry of its start. -/
structure Recorded (mem : U64 → U64) (pgd : U64) (A B : Nat) (acts : List Act) : Prop where
  tiles : Tiles A B (intervals acts)
  nonempty : ∀ interval ∈ intervals acts, interval.1 < interval.2
  reads : ∀ {l ptr addr}, Act.read l ptr addr ∈ acts → ptr = entryPtr mem pgd addr l ∧
    ∃ i < 512, ptr = slotAddr (tableAt mem pgd addr l) i
  prints : ∀ {start stop n val}, Act.print start stop n val ∈ acts →
    ∃ l, n = levelNumber l ∧
    val = mem (entryPtr mem pgd start l) ∧
      Act.read l (entryPtr mem pgd start l) start ∈ acts

namespace Recorded

variable {mem : U64 → U64} {pgd : U64} {A b B : Nat} {acts acts' : List Act}

theorem nil (mem : U64 → U64) (pgd : U64) (A : Nat) : Recorded mem pgd A A [] where
  tiles := rfl
  nonempty := fun _ h => absurd h List.not_mem_nil
  reads := fun h => absurd h List.not_mem_nil
  prints := fun h => absurd h List.not_mem_nil

theorem append (h₁ : Recorded mem pgd A b acts) (h₂ : Recorded mem pgd b B acts') :
    Recorded mem pgd A B (acts ++ acts') := by
  have hintervals : intervals (acts ++ acts') = intervals acts ++ intervals acts' :=
    List.filterMap_append
  constructor
  · rw [hintervals]
    exact h₁.tiles.append h₂.tiles
  · rw [hintervals]
    exact fun interval h => (List.mem_append.mp h).elim (h₁.nonempty interval)
      (h₂.nonempty interval)
  · exact fun h => (List.mem_append.mp h).elim h₁.reads h₂.reads
  · intro start stop n val h
    cases List.mem_append.mp h with
    | inl h =>
        obtain ⟨l, hn, hval, hread⟩ := h₁.prints h
        exact ⟨l, hn, hval, List.mem_append_left _ hread⟩
    | inr h =>
        obtain ⟨l, hn, hval, hread⟩ := h₂.prints h
        exact ⟨l, hn, hval, List.mem_append_right _ hread⟩

theorem read (h : Recorded mem pgd A B acts) (l : Level) (addr : U64) :
    Recorded mem pgd A B (.read l (entryPtr mem pgd addr l) addr :: acts) := by
  refine ⟨h.tiles, h.nonempty, fun hmem => ?_, fun hmem => ?_⟩
  · cases hmem with
    | head => exact ⟨rfl, entryPtr_slot mem pgd addr l⟩
    | tail _ hmem => exact h.reads hmem
  · cases hmem with
    | tail _ hmem =>
        obtain ⟨l, hn, hval, hread⟩ := h.prints hmem
        exact ⟨l, hn, hval, List.mem_cons_of_mem _ hread⟩

theorem print (mem : U64 → U64) (pgd : U64) (l : Level) {start stop : U64}
    (hlt : start.toNat < stop.toNat) :
    Recorded mem pgd start.toNat stop.toNat
      [.read l (entryPtr mem pgd start l) start,
        .print start stop (levelNumber l) (mem (entryPtr mem pgd start l))] := by
  refine ⟨⟨rfl, rfl⟩, List.forall_mem_singleton.mpr hlt, fun hmem => ?_, fun hmem => ?_⟩
  · simp only [List.mem_cons, Act.read.injEq, List.not_mem_nil, or_false,
      reduceCtorEq] at hmem
    obtain ⟨rfl, rfl, rfl⟩ := hmem
    exact ⟨rfl, entryPtr_slot mem pgd _ _⟩
  · simp only [List.mem_cons, Act.print.injEq, List.not_mem_nil, or_false, reduceCtorEq,
      false_or] at hmem
    obtain ⟨rfl, rfl, rfl, rfl⟩ := hmem
    exact ⟨l, rfl, rfl, List.mem_cons_self⟩

end Recorded

/-! The traversal returns where every gigabyte is crossed by `walk_pgd` alone. -/

/-- A relation between the states before and after a piece that each step keeps. -/
structure Carries {α : Type} (mem : U64 → U64) (pgd : U64)
    (read : Level → U64 → U64 → α → α)
    (print : U64 → U64 → Nat → U64 → α → Option α)
    (R : Nat → Nat → α → α → Prop) : Prop where
  refl : ∀ A s, R A A s s
  trans : ∀ {A b B s s' s''}, R A b s s' → R b B s' s'' → R A B s s''
  descend : ∀ {l A B addr s s'}, R A B (read l (entryPtr mem pgd addr l) addr s) s' → R A B s s'
  piece : ∀ l {start stop : U64} s, start.toNat % 2 ^ 12 = 0 → stop.toNat % 2 ^ 12 = 0 →
    start.toNat < stop.toNat →
    ∃ s', print start stop (levelNumber l) (mem (entryPtr mem pgd start l))
        (read l (entryPtr mem pgd start l) start s) = some s' ∧
      R start.toNat stop.toNat s s'

theorem InRegion.index {size k A B : Nat} (h : InRegion size k A B) : A / size = k :=
  Nat.div_eq_of_lt_le h.low (Nat.lt_of_lt_of_le h.lt h.high)

section

variable {α : Type} {fuel : Nat} {mem : U64 → U64} {pgd start stop : U64}
variable {read : Level → U64 → U64 → α → α} {print : U64 → U64 → Nat → U64 → α → Option α}
variable {R : Nat → Nat → α → α → Prop}

theorem traversePte_total (h : Carries mem pgd read print R) (hfuel : 512 ≤ fuel)
    (hregion : InRegion (2 ^ 21) k start.toNat stop.toNat) {pmd : U64}
    (hpmd : ∀ addr : U64, addr.toNat / 2 ^ 21 = k →
      mem (pmdPtr mem pgd addr) = pmd) (s : α) :
    ∃ s', traversePte fuel mem read print pmd start stop s = some s' ∧
      R start.toNat stop.toNat s s' := by
  simp only [traversePte, pteOffsetPhys_eq]
  refine regionLoop_total (2 ^ 12) (by decide) (by decide) ?_ h.refl
    (fun _ _ => h.trans) ?_ hregion hfuel start s
  · exact pageSize_next
  · intro i addr upto _ s hi hpiece _ _
    have hptr : slotAddr (pagePaddr pmd) (i % 512) = entryPtr mem pgd addr .pte := by
      have hindex := InRegion.index hpiece
      change _ = pteOffsetPhys (mem (pmdPtr mem pgd addr)) addr
      rw [hpmd addr (by omega), pteOffsetPhys_eq, hindex]
    rw [hptr, InRegion.add_pageSize hpiece]
    exact h.piece .pte s hpiece.start hpiece.stop hpiece.lt

theorem traversePmd_total (h : Carries mem pgd read print R) (hfuel : 512 ≤ fuel)
    (hregion : InRegion (2 ^ 30) j start.toNat stop.toNat) {pud : U64}
    (hpud : ∀ addr : U64, addr.toNat / 2 ^ 30 = j →
      mem (pudPtr mem pgd addr) = pud) (s : α) :
    ∃ s', traversePmd fuel mem read print pud start stop s = some s' ∧
      R start.toNat stop.toNat s s' := by
  simp only [traversePmd, pmdOffsetPhys_eq]
  refine regionLoop_total (2 ^ 21) (by decide) (by decide) ?_ h.refl
    (fun _ _ => h.trans) ?_ hregion hfuel start s
  · exact fun hlt hbound _ _ => toNat_addrEnd (by decide) (by decide) (by decide) hlt hbound
  · intro i addr upto _ s hi hpiece _ _
    have hptr : ∀ a : U64, a.toNat / 2 ^ 21 = i →
        pmdPtr mem pgd a = slotAddr (pagePaddr pud) (i % 512) := by
      intro a ha
      rw [pmdPtr, hpud a (by omega), pmdOffsetPhys_eq, ha]
    rw [← hptr addr (InRegion.index hpiece)]
    split
    · exact h.piece .pmd s hpiece.start hpiece.stop hpiece.lt
    · obtain ⟨s', hrun, hR⟩ := traversePte_total h hfuel hpiece
        (fun a ha => congrArg mem ((hptr a ha).trans (hptr addr (InRegion.index hpiece)).symm))
        (read .pmd (pmdPtr mem pgd addr) addr s)
      exact ⟨s', hrun, h.descend (l := .pmd) hR⟩

theorem pudAddrEnd_eq_iff (hregion : InRegion (2 ^ 39) j start.toNat stop.toNat) :
    pudAddrEnd start stop = stop ↔ start.toNat / 2 ^ 30 = (stop.toNat - 1) / 2 ^ 30 := by
  have hend : (pudAddrEnd start stop).toNat =
      min ((start.toNat / 2 ^ 30 + 1) * 2 ^ 30) stop.toNat :=
    toNat_addrEnd (by decide) (by decide) (by decide) hregion.lt hregion.bound
  have hlt := hregion.lt
  constructor
  · intro heq
    rw [heq] at hend
    omega
  · intro heq
    apply BitVec.eq_of_toNat_eq
    rw [hend]
    omega

theorem traversePud_once (hstop : pudAddrEnd start stop = stop) (entry : U64) (s : α) :
    traversePud (fuel + 1) mem read print entry start stop s =
      if mem (pudOffsetPhys entry start) = 0 ∨
          mem (pudOffsetPhys entry start) &&& typeMask = pmdTypeSect then
        print start stop 2 (mem (pudOffsetPhys entry start))
          (read .pud (pudOffsetPhys entry start) start s)
      else
        traversePmd (fuel + 1) mem read print (mem (pudOffsetPhys entry start)) start stop
          (read .pud (pudOffsetPhys entry start) start s) :=
  doRange_once hstop

/-- Past a gigabyte every round ends where the first one has. -/
theorem traversePud_endless (hstop : pudAddrEnd start stop ≠ stop) (entry : U64) (s : α) :
    traversePud fuel mem read print entry start stop s = none :=
  doRange_endless fun _ => hstop

theorem traversePud_total (h : Carries mem pgd read print R) (hfuel : 512 ≤ fuel)
    (hregion : InRegion (2 ^ 39) j start.toNat stop.toNat)
    (hgigabyte : start.toNat / 2 ^ 30 = (stop.toNat - 1) / 2 ^ 30) {entry : U64}
    (hentry : ∀ addr : U64, addr.toNat / 2 ^ 39 = j → mem (pgdOffsetRaw pgd addr) = entry)
    (s : α) :
    ∃ s', traversePud fuel mem read print entry start stop s = some s' ∧
      R start.toNat stop.toNat s s' := by
  obtain ⟨more, rfl⟩ : ∃ more, fuel = more + 1 := ⟨fuel - 1, by omega⟩
  have hpiece : InRegion (2 ^ 30) (start.toNat / 2 ^ 30) start.toNat stop.toNat := by
    have hlt := hregion.lt
    exact ⟨hregion.start, hregion.stop, hlt, by omega, by omega, hregion.bound⟩
  have hptr : ∀ a : U64, a.toNat / 2 ^ 30 = start.toNat / 2 ^ 30 →
      pudPtr mem pgd a = pudOffsetPhys entry start := by
    intro a ha
    have hindex := InRegion.index hregion
    rw [pudPtr, hentry a (by omega), pudOffsetPhys_eq, pudOffsetPhys_eq, ha]
  have hptrStart : pudOffsetPhys entry start = entryPtr mem pgd start .pud :=
    (hptr start rfl).symm
  rw [traversePud_once ((pudAddrEnd_eq_iff hregion).mpr hgigabyte), hptrStart]
  split
  · exact h.piece .pud s hregion.start hregion.stop hregion.lt
  · obtain ⟨s', hrun, hR⟩ := traversePmd_total h hfuel hpiece
      (fun a ha => congrArg mem ((hptr a ha).trans hptrStart))
      (read .pud (entryPtr mem pgd start .pud) start s)
    exact ⟨s', hrun, h.descend hR⟩

/-- The part of `[A, B)` in the region of the `k`-th entry of the root lies in one
gigabyte. -/
def OneGigabyte (A B k : Nat) : Prop :=
  max A (k * 2 ^ 39) / 2 ^ 30 = (min B ((k + 1) * 2 ^ 39) - 1) / 2 ^ 30

/-- No table below the root covers two gigabytes of `[A, B)`. -/
def Fits (mem : U64 → U64) (pgd : U64) (A B : Nat) : Prop :=
  ∀ k, Meets (2 ^ 39) A B k → mem (slotAddr pgd k) = 0 ∨ OneGigabyte A B k

theorem inRegion_root (hstart : start.toNat % 2 ^ 12 = 0) (hstop : stop.toNat % 2 ^ 12 = 0)
    (hlt : start.toNat < stop.toNat) (hbound : stop.toNat ≤ 2 ^ 48) :
    InRegion (512 * 2 ^ 39) 0 start.toNat stop.toNat :=
  ⟨hstart, hstop, hlt, by rw [Nat.zero_mul]; exact Nat.zero_le _, hbound, hbound⟩

theorem traversePgd_total (h : Carries mem pgd read print R) (hfuel : 512 ≤ fuel)
    (hregion : InRegion (512 * 2 ^ 39) 0 start.toNat stop.toNat)
    (hfits : Fits mem pgd start.toNat stop.toNat) (s : α) :
    ∃ s', traversePgd fuel mem read print pgd start (stop - start) s = some s' ∧
      R start.toNat stop.toNat s s' := by
  have hend : start + (stop - start) = stop := by bv_omega
  simp only [traversePgd, hend, pgdOffsetRaw_eq]
  refine regionLoop_total (2 ^ 39) (by decide) (by decide) ?_ h.refl
    (fun _ _ => h.trans) ?_ hregion hfuel start s
  · exact fun hlt hbound _ _ => toNat_addrEnd (by decide) (by decide) (by decide) hlt hbound
  · intro k addr upto _ s hk hpiece hlow hhigh
    have hptr : ∀ a : U64, a.toNat / 2 ^ 39 = k →
        pgdOffsetRaw pgd a = slotAddr pgd (k % 512) := by
      intro a ha
      rw [pgdOffsetRaw_eq, ha]
    have hindex := InRegion.index hpiece
    rw [← hptr addr hindex]
    split
    · exact h.piece .pgd s hpiece.start hpiece.stop hpiece.lt
    · next hentry =>
      have hmeets : Meets (2 ^ 39) start.toNat stop.toNat k := by
        have hlt := hpiece.lt
        exact ⟨hregion.lt, by omega, by omega⟩
      have hgigabyte : addr.toNat / 2 ^ 30 = (upto.toNat - 1) / 2 ^ 30 := by
        obtain hzero | hgigabyte := hfits k hmeets
        · rw [hptr addr hindex, Nat.mod_eq_of_lt (by omega)] at hentry
          exact absurd hzero hentry
        · rwa [OneGigabyte, ← hlow, ← hhigh] at hgigabyte
      obtain ⟨s', hrun, hR⟩ := traversePud_total h hfuel hpiece hgigabyte
        (fun a ha => congrArg mem ((hptr a ha).trans (hptr addr hindex).symm))
        (read .pgd (pgdOffsetRaw pgd addr) addr s)
      exact ⟨s', hrun, h.descend (l := .pgd) hR⟩

/-- The condition on a range is that on its two parts at the boundary of an entry. -/
theorem Fits.append {A b B : Nat} (hlow : A ≤ b) (hhigh : b ≤ B)
    (hcut : b % 2 ^ 39 = 0 ∨ A = b) (h₁ : Fits mem pgd A b) (h₂ : Fits mem pgd b B) :
    Fits mem pgd A B := by
  rintro k ⟨hlt, hleft, hright⟩
  by_cases hside : k * 2 ^ 39 < b ∧ A < b
  · have hb : (k + 1) * 2 ^ 39 ≤ b := by omega
    refine (h₁ k ⟨hside.2, hleft, hside.1⟩).imp_right fun hone => ?_
    rwa [OneGigabyte, Nat.min_eq_right hb, ← Nat.min_eq_right (hb.trans hhigh)] at hone
  · have hb : b < B ∧ b < (k + 1) * 2 ^ 39 ∧ max A (k * 2 ^ 39) = max b (k * 2 ^ 39) := by
      omega
    refine (h₂ k ⟨hb.1, hb.2.1, hright⟩).imp_right fun hone => ?_
    rwa [OneGigabyte, hb.2.2]

theorem Fits.of_run (hregion : InRegion (512 * 2 ^ 39) 0 start.toNat stop.toNat)
    (hrun : traversePgd fuel mem read print pgd start (stop - start) s = some s') :
    Fits mem pgd start.toNat stop.toNat := by
  have hend : start + (stop - start) = stop := by bv_omega
  simp only [traversePgd, hend, pgdOffsetRaw_eq] at hrun
  refine regionLoop (2 ^ 39) (P := fun A B _ _ => Fits mem pgd A B) (by decide) (by decide)
    id_next ?_ ?_ (fun hlow hhigh hcut => Fits.append hlow hhigh hcut) ?_ hregion hrun
  · exact fun hlt hbound _ _ => toNat_addrEnd (by decide) (by decide) (by decide) hlt hbound
  · exact fun A _ k hmeets => absurd hmeets.1 (Nat.lt_irrefl A)
  · intro k addr upto s s' hk hpiece hbody i hmeets
    obtain rfl := hpiece.meets_iff.mp hmeets
    rw [Nat.mod_eq_of_lt (by omega)] at hbody
    split at hbody
    · next hzero => exact .inl hzero
    · right
      have hstop : pudAddrEnd addr upto = upto := by
        by_contra hstop
        rw [traversePud_endless hstop] at hbody
        cases hbody
      rw [OneGigabyte, Nat.max_eq_left hpiece.low, Nat.min_eq_left hpiece.high]
      exact (pudAddrEnd_eq_iff hpiece).mp hstop

end

/-! The record and the dump itself. -/

theorem carries_record (mem : U64 → U64) (pgd : U64) :
    Carries mem pgd (fun level ptr addr acts => acts ++ [.read level ptr addr])
      (fun start stop level val acts => some (acts ++ [.print start stop level val]))
      fun A B acts acts' => ∃ new, acts' = acts ++ new ∧ Recorded mem pgd A B new where
  refl := fun A acts => ⟨[], (List.append_nil _).symm, .nil mem pgd A⟩
  trans := by
    rintro A b B acts _ _ ⟨first, rfl, hfirst⟩ ⟨second, rfl, hsecond⟩
    exact ⟨first ++ second, List.append_assoc _ _ _, hfirst.append hsecond⟩
  descend := by
    rintro l A B addr acts _ ⟨new, rfl, hnew⟩
    exact ⟨_, List.append_assoc _ _ _, hnew.read l addr⟩
  piece := fun l start stop acts _ _ hlt =>
    ⟨_, rfl, _, List.append_assoc _ _ _, .print mem pgd l hlt⟩

theorem carries_print {fuel : Nat} (hfuel : 512 ≤ fuel) (mem : U64 → U64) (pgd : U64)
    (levels : List PgLevel) :
    Carries mem pgd (fun _ _ _ lines => lines)
      (printPgtable fuel levels) fun _ _ _ _ => True where
  refl := fun _ _ => trivial
  trans := fun _ _ => trivial
  descend := fun _ => trivial
  piece := by
    intro l start stop lines hstart hstop hlt
    obtain ⟨lines', hlines⟩ := Option.isSome_iff_exists.mp
      (printPgtable_isSome hfuel levels (add_le_of_aligned hstart hstop hlt) (levelNumber l)
        (mem (entryPtr mem pgd start l)) lines)
    exact ⟨lines', hlines, trivial⟩

/-- `walk_pgd` returns, and what it does on the way is as it should be. -/
def Covers (mem : U64 → U64) (pgd start stop : U64) : Prop :=
  ∃ bound, ∀ fuel, bound ≤ fuel →
    (∀ levels lines, (walkPgd fuel mem levels pgd start (stop - start) lines).isSome) ∧
    ∃ acts, record fuel mem pgd start (stop - start) = some acts ∧
      Recorded mem pgd start.toNat stop.toNat acts

theorem covers_iff {pgd start stop : U64} (mem : U64 → U64)
    (hstart : start.toNat % 4096 = 0)
    (hstop : stop.toNat % 4096 = 0) (hlt : start.toNat < stop.toNat)
    (hbound : stop.toNat ≤ 2 ^ 48) :
    Covers mem pgd start stop ↔ Fits mem pgd start.toNat stop.toNat := by
  have hregion := inRegion_root hstart hstop hlt hbound
  constructor
  · rintro ⟨bound, hcovers⟩
    obtain ⟨_, acts, hrecord, _⟩ := hcovers bound (Nat.le_refl _)
    exact .of_run hregion hrecord
  · intro hfits
    refine ⟨512, fun fuel hfuel => ⟨fun levels lines => ?_, ?_⟩⟩
    · obtain ⟨lines', hrun, _⟩ :=
        traversePgd_total (carries_print hfuel mem pgd levels) hfuel hregion hfits lines
      rw [walkPgd_eq, hrun]
      rfl
    · obtain ⟨acts, hrun, _, rfl, hrecorded⟩ :=
        traversePgd_total (carries_record mem pgd) hfuel hregion hfits []
      exact ⟨_, hrun, hrecorded⟩

theorem covers_iff_total : totalMemory.toNat ≤ 2 ^ 48 ∧
    (Covers (fun _ => 0) 0x1000 0 totalMemory ↔
      Fits (fun _ => 0) 0x1000 (0 : U64).toNat totalMemory.toNat) :=
  ⟨by decide, covers_iff _ (by decide) (by decide) (by decide) (by decide)⟩

/-- Every entry of every table is zero, a table or a leaf. -/
def EntriesLegal (mem : U64 → U64) (root : U64) : Prop :=
  ∀ {l t}, Reaches mem root l t → ∀ i < 512, mem (slotAddr t i) = 0 ∨
    Legal l (mem (slotAddr t i)) ∨ l = .pud ∧ mem (slotAddr t i) &&& typeMask = 1

/-- One empty table below the root. -/
def emptyTable : U64 → U64 := Function.update (fun _ => 0) 0x1000 0x2003

theorem emptyTable_ne_zero {t : U64} (ht : IsPage t) (hi : i < 512)
    (h : emptyTable (slotAddr t i) ≠ 0) : t = 0x1000 ∧ i = 0 := by
  have haddr : slotAddr t i = slotAddr 0x1000 0 := by
    by_contra hne
    exact h (Function.update_of_ne hne _ _)
  exact slotAddr_inj ht isPage_4096 hi (by omega) haddr

theorem isPage_8192 : IsPage 0x2000 := by
  unfold IsPage
  decide

theorem emptyTable_reaches (h : Reaches emptyTable 0x1000 l t) :
    l = .pgd ∧ t = 0x1000 ∨ l = .pud ∧ t = 0x2000 := by
  induction h with
  | root => exact .inl ⟨rfl, rfl⟩
  | step _ _ hi htype ih =>
      obtain ⟨rfl, rfl⟩ | ⟨rfl, rfl⟩ := ih
      · have hne : emptyTable (slotAddr 0x1000 _) ≠ 0 := fun hzero =>
          absurd (hzero ▸ htype) (by decide)
        obtain ⟨_, rfl⟩ := emptyTable_ne_zero isPage_4096 hi hne
        exact .inr ⟨rfl, by decide⟩
      · have hne : emptyTable (slotAddr 0x2000 _) ≠ 0 := fun hzero =>
          absurd (hzero ▸ htype) (by decide)
        exact absurd (emptyTable_ne_zero isPage_8192 hi hne).1 (by decide)

theorem emptyTable_legal : EntriesLegal emptyTable 0x1000 := by
  intro l t hreaches i hi
  by_cases hzero : emptyTable (slotAddr t i) = 0
  · exact .inl hzero
  · have ht : IsPage t := by
      obtain ⟨_, rfl⟩ | ⟨_, rfl⟩ := emptyTable_reaches hreaches
      · exact isPage_4096
      · exact isPage_8192
    obtain ⟨rfl, rfl⟩ := emptyTable_ne_zero ht hi hzero
    obtain ⟨rfl, _⟩ | ⟨_, heq⟩ := emptyTable_reaches hreaches
    · exact .inr (.inl (by unfold Legal; decide))
    · exact absurd heq (by decide)

/-- Two gigabytes below one entry of the root. -/
theorem not_covers :
    ¬ ∀ (mem : U64 → U64) (pgd start stop : U64), IsPage pgd → EntriesLegal mem pgd →
      start.toNat % 4096 = 0 → stop.toNat % 4096 = 0 → start.toNat < stop.toNat →
      stop.toNat ≤ 2 ^ 48 → Covers mem pgd start stop := by
  intro hall
  obtain ⟨bound, hcovers⟩ :=
    hall emptyTable 0x1000 0 0x80000000 isPage_4096 emptyTable_legal
    (by decide) (by decide) (by decide) (by decide)
  obtain ⟨_, acts, hrecord, _⟩ := hcovers bound (Nat.le_refl _)
  have hfits := Fits.of_run
    (inRegion_root (by decide) (by decide) (by decide) (by decide)) hrecord
  obtain hzero | hone := hfits 0 (by decide)
  · exact absurd hzero (by decide)
  · exact absurd hone (by unfold OneGigabyte; decide)

end Dump

end YiOS
