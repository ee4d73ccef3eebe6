import YiOS.Mmu.Mapping

namespace YiOS

open YiOS.Library

/-! The table walk of the hardware: four indices, a block at the third level. -/

inductive Leaf where
  | block (entry : U64)
  | page (entry : U64)
  deriving DecidableEq, Repr

namespace Leaf

def entry : Leaf → U64
  | .block e => e
  | .page e => e

/-- The physical address a leaf gives to a virtual one. -/
def output : Leaf → U64 → U64
  | .block e, va => (pagePaddr e &&& pmdMask) + (va &&& ~~~pmdMask)
  | .page e, va => pagePaddr e + (va &&& ~~~pageMask)

/-- Everything in a descriptor but the address and the type. -/
def attributes (leaf : Leaf) : U64 := leaf.entry &&& ~~~(pteAddrMask ||| typeMask)

/-- The leaf that the last two entries on the way encode. -/
def ofEntries (pmd pte : U64) : Option Leaf :=
  if pmd &&& typeMask = 3 then
    if pte &&& typeMask = 3 then some (.page pte) else none
  else if pmd &&& typeMask = 1 then
    some (.block pmd)
  else
    none

end Leaf

def walk (mem : U64 → U64) (root va : U64) : Option Leaf :=
  let pgd := mem (pgdOffsetRaw root va)
  if pgd &&& typeMask = 3 then
    let pud := mem (pudOffsetPhys pgd va)
    if pud &&& typeMask = 3 then
      let pmd := mem (pmdOffsetPhys pud va)
      Leaf.ofEntries pmd (mem (pteOffsetPhys pmd va))
    else
      none
  else
    none

theorem slotAddr_succ (start : U64) (i : Nat) :
    slotAddr (start + 8) i = slotAddr start (i + 1) := by
  apply BitVec.eq_of_toNat_eq
  simp only [slotAddr, BitVec.toNat_add, BitVec.toNat_ofNat,
    show (8 : U64).toNat = 8 from rfl]
  omega

theorem memsetWords_of_ne (value : U64) :
    ∀ {words : Nat} {start a : U64} {mem : U64 → U64},
      (∀ i < words, a ≠ slotAddr start i) → memsetWords value words start mem a = mem a
  | 0, _, _, _, _ => rfl
  | words + 1, start, a, mem, hne => by
      have hstart : a ≠ start := by simpa [slotAddr] using hne 0 (by omega)
      rw [memsetWords, memsetWords_of_ne value, Function.update_of_ne hstart]
      intro i hi
      rw [slotAddr_succ]
      exact hne (i + 1) (by omega)

theorem memsetWords_slotAddr (value : U64) :
    ∀ {words : Nat} (start : U64) (mem : U64 → U64) {i : Nat}, i < words →
      memsetWords value words start mem (slotAddr start i) = value
  | 0, _, _, _, hi => absurd hi (by omega)
  | words + 1, start, mem, i, hi => by
      by_cases hlater : ∃ j < words, slotAddr start i = slotAddr (start + 8) j
      · obtain ⟨j, hj, heq⟩ := hlater
        rw [heq, memsetWords, memsetWords_slotAddr value _ _ hj]
      · have hfirst : slotAddr start i = start := by
          cases i with
          | zero => simp [slotAddr]
          | succ j => exact absurd ⟨j, by omega, (slotAddr_succ start j).symm⟩ hlater
        rw [memsetWords, memsetWords_of_ne value, hfirst, Function.update_self]
        intro j hj heq
        exact hlater ⟨j, hj, heq⟩

/-! The tables as a tree.  `tbl l n` is the table of level `l` for the `n`-th
region of the size such a table covers; its entries are the numbers
`512 * n, …, 512 * n + 511` of that level. -/

abbrev Tables := Level → Nat → Option U64

def Level.below : Level → Level
  | .pgd => .pud
  | .pud => .pmd
  | .pmd => .pte
  | .pte => .pte

def entry (mem : U64 → U64) (tbl : Tables) (l : Level) (n : Nat) : U64 :=
  match tbl l (n / 512) with
  | some t => mem (slotAddr t (n % 512))
  | none => 0

/-- What an entry holds, given the table it links, if any. -/
def Linked (l : Level) : Option U64 → U64 → Prop
  | some t, e => e = t ||| 3
  | none, e => e = 0 ∨ l = .pmd ∧ e &&& typeMask = 1

structure Tree (root : U64) (mem : U64 → U64) (tbl : Tables) : Prop where
  root : ∀ n, tbl .pgd n = if n = 0 then some root else none
  page : ∀ {l n t}, tbl l n = some t → IsPage t
  inj : ∀ {l n l' n' t}, tbl l n = some t → tbl l' n' = some t → l = l' ∧ n = n'
  link : ∀ {l}, l ≠ .pte → ∀ n, Linked l (tbl l.below n) (entry mem tbl l n)

theorem entry_of_some (h : tbl l (n / 512) = some t) :
    entry mem tbl l n = mem (slotAddr t (n % 512)) := by
  simp [entry, h]

theorem entry_of_none (h : tbl l (n / 512) = none) : entry mem tbl l n = 0 := by
  simp [entry, h]

/-- Entries only depend on the words of the tables. -/
theorem entry_congr {mem mem' : U64 → U64} {tbl : Tables}
    (h : ∀ l n t, tbl l n = some t → ∀ i < 512, mem' (slotAddr t i) = mem (slotAddr t i)) :
    entry mem' tbl = entry mem tbl := by
  funext l n
  cases ht : tbl l (n / 512) with
  | none => rw [entry_of_none ht, entry_of_none ht]
  | some t =>
      rw [entry_of_some ht, entry_of_some ht]
      exact h _ _ _ ht _ (Nat.mod_lt _ (by omega))

namespace Tree

variable {root : U64} {mem : U64 → U64} {tbl : Tables}

theorem entry_table (h : Tree root mem tbl) (hl : l ≠ .pte)
    (ht : tbl l.below n = some t) : entry mem tbl l n = t ||| 3 := by
  have hlink := h.link hl n
  rwa [ht] at hlink

theorem entry_none (h : Tree root mem tbl) (hl : l ≠ .pte)
    (ht : tbl l.below n = none) :
    entry mem tbl l n = 0 ∨ l = .pmd ∧ entry mem tbl l n &&& typeMask = 1 := by
  have hlink := h.link hl n
  rwa [ht] at hlink

/-- A table hangs below a table. -/
theorem parent (h : Tree root mem tbl) (hl : l ≠ .pte) (ht : tbl l.below n = some t) :
    ∃ p, tbl l (n / 512) = some p := by
  cases hp : tbl l (n / 512) with
  | some p => exact ⟨p, rfl⟩
  | none =>
      have hentry := h.entry_table hl ht
      rw [entry_of_none hp] at hentry
      exact absurd hentry.symm (table_ne_zero t)

theorem below_none (h : Tree root mem tbl) (hl : l ≠ .pte) (hp : tbl l (n / 512) = none) :
    tbl l.below n = none := by
  cases ht : tbl l.below n with
  | none => rfl
  | some t =>
      obtain ⟨p, hsome⟩ := h.parent hl ht
      rw [hp] at hsome
      contradiction

/-- A table entry names its table. -/
theorem tbl_of_type (h : Tree root mem tbl) (hl : l ≠ .pte)
    (htype : entry mem tbl l n &&& typeMask = 3) :
    tbl l.below n = some (pagePaddr (entry mem tbl l n)) := by
  cases ht : tbl l.below n with
  | some t => rw [h.entry_table hl ht, (h.page ht).pagePaddr_table]
  | none =>
      obtain hzero | ⟨_, hblock⟩ := h.entry_none hl ht
      · rw [hzero] at htype
        exact absurd htype (by decide)
      · rw [hblock] at htype
        exact absurd htype (by decide)

theorem type_of_tbl (h : Tree root mem tbl) (hl : l ≠ .pte)
    (ht : tbl l.below n = some t) : entry mem tbl l n &&& typeMask = 3 := by
  rw [h.entry_table hl ht, table_typeMask]

theorem read_below (h : Tree root mem tbl) (hl : l ≠ .pte)
    (htype : entry mem tbl l n &&& typeMask = 3) (hn : i / 512 = n) :
    mem (slotAddr (pagePaddr (entry mem tbl l n)) (i % 512)) = entry mem tbl l.below i := by
  have htbl := h.tbl_of_type hl htype
  rw [← hn] at htbl
  rw [entry_of_some htbl, hn]

/-- The walk reads the last two entries that cover the address. -/
theorem walk_eq (h : Tree root mem tbl) (hva : va.toNat < 2 ^ 48) :
    walk mem root va =
      Leaf.ofEntries (entry mem tbl .pmd (va.toNat / 2 ^ 21))
        (entry mem tbl .pte (va.toNat / 2 ^ 12)) := by
  have hpgd : mem (pgdOffsetRaw root va) = entry mem tbl .pgd (va.toNat / 2 ^ 39) := by
    have hroot : tbl .pgd (va.toNat / 2 ^ 39 / 512) = some root := by
      rw [h.root, if_pos (by omega)]
    rw [entry_of_some hroot, pgdOffsetRaw_eq]
  -- without a table of the third level both entries are empty
  have hnone : tbl .pmd (va.toNat / 2 ^ 30) = none →
      none = Leaf.ofEntries (entry mem tbl .pmd (va.toNat / 2 ^ 21))
        (entry mem tbl .pte (va.toNat / 2 ^ 12)) := by
    intro hnone
    have hpmd : tbl .pmd (va.toNat / 2 ^ 21 / 512) = none := by
      rwa [show va.toNat / 2 ^ 21 / 512 = va.toNat / 2 ^ 30 by omega]
    rw [entry_of_none hpmd]
    rfl
  simp only [walk, hpgd]
  split
  · next hpgdType =>
    have hpud := h.read_below (l := .pgd) (i := va.toNat / 2 ^ 30) (by decide) hpgdType
      (by omega)
    rw [pudOffsetPhys_eq, hpud]
    split
    · next hpudType =>
      have hpmd := h.read_below (l := .pud) (i := va.toNat / 2 ^ 21) (by decide) hpudType
        (by omega)
      simp only [Level.below] at hpmd ⊢
      rw [pmdOffsetPhys_eq, hpmd]
      by_cases hpmdType : entry mem tbl .pmd (va.toNat / 2 ^ 21) &&& typeMask = 3
      · have hpte := h.read_below (l := .pmd) (i := va.toNat / 2 ^ 12) (by decide) hpmdType
          (by omega)
        rw [pteOffsetPhys_eq, hpte]
        rfl
      · simp only [Leaf.ofEntries, if_neg hpmdType]
    · next hpudType =>
      apply hnone
      cases htbl : tbl .pmd (va.toNat / 2 ^ 30) with
      | none => rfl
      | some t => exact absurd (h.type_of_tbl (l := .pud) (by decide) htbl) hpudType
  · next hpgdType =>
    apply hnone
    apply h.below_none (l := .pud) (by decide)
    rw [show va.toNat / 2 ^ 30 / 512 = va.toNat / 2 ^ 39 by omega]
    cases htbl : tbl .pud (va.toNat / 2 ^ 39) with
    | none => rfl
    | some t => exact absurd (h.type_of_tbl (l := .pgd) (by decide) htbl) hpgdType

/-! Single stores. -/

/-- A store into one entry changes that entry and no other. -/
theorem entry_update (h : Tree root mem tbl) (ht : tbl l (n / 512) = some t) (v : U64)
    (l' : Level) (n' : Nat) :
    entry (Function.update mem (slotAddr t (n % 512)) v) tbl l' n' =
      if l' = l ∧ n' = n then v else entry mem tbl l' n' := by
  have hn : n % 512 < 512 := Nat.mod_lt _ (by omega)
  have hn' : n' % 512 < 512 := Nat.mod_lt _ (by omega)
  split
  · next heq =>
    obtain ⟨rfl, rfl⟩ := heq
    rw [entry_of_some ht, Function.update_self]
  · next hne =>
    cases ht' : tbl l' (n' / 512) with
    | none => rw [entry_of_none ht', entry_of_none ht']
    | some t' =>
        rw [entry_of_some ht', entry_of_some ht', Function.update_of_ne]
        intro heq
        obtain ⟨rfl, hindex⟩ := slotAddr_inj (h.page ht') (h.page ht) hn' hn heq
        obtain ⟨rfl, hdiv⟩ := h.inj ht' ht
        exact hne ⟨rfl, by omega⟩

/-- The tables without the one below the `k`-th entry of the third level. -/
def dropPte (tbl : Tables) (k : Nat) : Tables := fun l n =>
  if l = .pte ∧ n = k then none else tbl l n

theorem dropPte_some (h : dropPte tbl k l n = some t) : tbl l n = some t := by
  unfold dropPte at h
  split at h
  · contradiction
  · exact h

theorem dropPte_of_ne (hne : ¬(l = .pte ∧ n = k)) : dropPte tbl k l n = tbl l n :=
  if_neg hne

theorem entry_dropPte (hne : ¬(l = .pte ∧ n / 512 = k)) :
    entry mem (dropPte tbl k) l n = entry mem tbl l n := by
  simp only [entry, dropPte_of_ne hne]

theorem setBlock (h : Tree root mem tbl) (ht : tbl .pmd (k / 512) = some t)
    (hv : v &&& typeMask = 1) :
    Tree root (Function.update mem (slotAddr t (k % 512)) v) (dropPte tbl k) where
  root := fun n => by rw [dropPte_of_ne (by simp), h.root]
  page := fun htbl => h.page (dropPte_some htbl)
  inj := fun htbl htbl' => h.inj (dropPte_some htbl) (dropPte_some htbl')
  link := by
    intro l hl n
    rw [entry_dropPte fun heq => hl heq.1, h.entry_update ht]
    by_cases heq : l = .pmd ∧ n = k
    · obtain ⟨rfl, rfl⟩ := heq
      rw [if_pos ⟨rfl, rfl⟩, show dropPte tbl n (Level.below .pmd) n = none from
        if_pos ⟨rfl, rfl⟩]
      exact .inr ⟨rfl, hv⟩
    · have hbelow : ¬(l.below = .pte ∧ n = k) := by
        rintro ⟨hbelow, rfl⟩
        cases l <;> simp_all [Level.below]
      rw [if_neg heq, dropPte_of_ne hbelow]
      exact h.link hl n

/-- The tables with a new one below an entry of level `l`. -/
def addTable (tbl : Tables) (l : Level) (n : Nat) (t : U64) : Tables := fun l' n' =>
  if l' = l.below ∧ n' = n then some t else tbl l' n'

theorem addTable_self : addTable tbl l n p l.below n = some p :=
  if_pos ⟨rfl, rfl⟩

theorem addTable_of_ne (hne : ¬(l' = l.below ∧ n' = n)) :
    addTable tbl l n p l' n' = tbl l' n' :=
  if_neg hne

theorem addTable_some (h : addTable tbl l n p l' n' = some t) :
    l' = l.below ∧ n' = n ∧ t = p ∨ tbl l' n' = some t := by
  unfold addTable at h
  split at h
  · next heq => exact .inl ⟨heq.1, heq.2, (Option.some.inj h).symm⟩
  · exact .inr h

variable {l : Level} {n : Nat} {t p : U64}

theorem below_ne (hl : l ≠ .pte) : l ≠ l.below := by
  cases l <;> simp_all [Level.below]

/-- Linking a cleared page that is no table yet changes the one entry. -/
theorem entry_addTable (h : Tree root mem tbl) (hl : l ≠ .pte)
    (ht : tbl l (n / 512) = some t) (hbelow : tbl l.below n = none)
    (hp : IsPage p) (hfresh : ∀ l n, tbl l n ≠ some p) (l' : Level) (n' : Nat) :
    entry (Function.update (memsetWords 0 512 p mem) (slotAddr t (n % 512)) (p ||| 3))
        (addTable tbl l n p) l' n' =
      if l' = l ∧ n' = n then p ||| 3 else entry mem tbl l' n' := by
  have hn' : n' % 512 < 512 := Nat.mod_lt _ (by omega)
  have hclear : ∀ u i, IsPage u → u ≠ p → i < 512 →
      memsetWords 0 512 p mem (slotAddr u i) = mem (slotAddr u i) := by
    intro u i hu hne hi
    apply memsetWords_of_ne
    intro j hj heq
    exact hne (slotAddr_inj hu hp hi hj heq).1
  by_cases hnew : l' = l.below ∧ n' / 512 = n
  · -- an entry of the new table reads zero, as it did without a table
    obtain ⟨rfl, hdiv⟩ := hnew
    have hne : ¬(l.below = l ∧ n' = n) := fun heq => below_ne hl heq.1.symm
    have hnone : tbl l.below (n' / 512) = none := by rw [hdiv, hbelow]
    have hsome : addTable tbl l n p l.below (n' / 512) = some p := by
      rw [hdiv, addTable_self]
    rw [if_neg hne, entry_of_none hnone, entry_of_some hsome, Function.update_of_ne,
      memsetWords_slotAddr _ _ _ hn']
    intro heq
    obtain ⟨rfl, _⟩ :=
      slotAddr_inj hp (h.page ht) hn' (Nat.mod_lt _ (by omega)) heq
    exact hfresh _ _ ht
  · have hold : addTable tbl l n p l' (n' / 512) = tbl l' (n' / 512) :=
      addTable_of_ne hnew
    have hentry := h.entry_update ht (p ||| 3) l' n'
    rw [← hentry]
    cases ht' : tbl l' (n' / 512) with
    | none => rw [entry_of_none ht', entry_of_none (hold.trans ht')]
    | some u =>
        have hu : u ≠ p := fun heq => hfresh _ _ (heq ▸ ht')
        rw [entry_of_some ht', entry_of_some (hold.trans ht')]
        by_cases heq : slotAddr u (n' % 512) = slotAddr t (n % 512)
        · rw [heq, Function.update_self, Function.update_self]
        · rw [Function.update_of_ne heq, Function.update_of_ne heq,
            hclear u _ (h.page ht') hu hn']

theorem linkTable (h : Tree root mem tbl) (hl : l ≠ .pte)
    (ht : tbl l (n / 512) = some t) (hbelow : tbl l.below n = none)
    (hp : IsPage p) (hfresh : ∀ l n, tbl l n ≠ some p) :
    Tree root
      (Function.update (memsetWords 0 512 p mem) (slotAddr t (n % 512)) (p ||| 3))
      (addTable tbl l n p) where
  root := fun n' => by
    rw [addTable_of_ne, h.root]
    rintro ⟨heq, _⟩
    cases l <;> simp_all [Level.below]
  page := by
    intro l' n' t' ht'
    obtain ⟨_, _, rfl⟩ | hold := addTable_some ht'
    · exact hp
    · exact h.page hold
  inj := by
    intro l₁ n₁ l₂ n₂ t' h₁ h₂
    obtain ⟨rfl, rfl, rfl⟩ | hold₁ := addTable_some h₁
    · obtain ⟨rfl, rfl, _⟩ | hold₂ := addTable_some h₂
      · exact ⟨rfl, rfl⟩
      · exact absurd hold₂ (hfresh _ _)
    · obtain ⟨rfl, rfl, rfl⟩ | hold₂ := addTable_some h₂
      · exact absurd hold₁ (hfresh _ _)
      · exact h.inj hold₁ hold₂
  link := by
    intro l' hl' n'
    rw [h.entry_addTable hl ht hbelow hp hfresh]
    by_cases heq : l' = l ∧ n' = n
    · obtain ⟨rfl, rfl⟩ := heq
      rw [if_pos ⟨rfl, rfl⟩, addTable_self]
      rfl
    · have hne : ¬(l'.below = l.below ∧ n' = n) := by
        rintro ⟨hb, rfl⟩
        cases l <;> cases l' <;> simp_all [Level.below]
      rw [if_neg heq, addTable_of_ne hne]
      exact h.link hl' n'

/-- A store outside of the tables changes no entry. -/
theorem frame (h : Tree root mem tbl)
    (hmem : ∀ l n t, tbl l n = some t → ∀ i < 512,
      mem' (slotAddr t i) = mem (slotAddr t i)) :
    Tree root mem' tbl where
  root := h.root
  page := h.page
  inj := h.inj
  link := by
    intro l hl n
    rw [entry_congr hmem]
    exact h.link hl n

end Tree

end YiOS
