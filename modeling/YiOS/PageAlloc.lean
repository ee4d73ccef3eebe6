import Mathlib.Data.Finset.Card
import Mathlib.Data.Fintype.Card
import Mathlib.Data.List.Nodup
import YiOS.Page

namespace YiOS

/-! `page_alloc.c`: one slot per page, scanned from the bottom. -/

abbrev MemMap := Fin nrPages → BitVec 16

def MemMap.empty : MemMap := fun _ => 0

/-- `LOW_MEMORY + i * PAGE_SIZE`. -/
def pageAddr (i : Fin nrPages) : U64 := lowMemory + BitVec.ofNat 64 (i.val * 4096)

/-- The scan of `get_free_page` with `left` slots still to look at. -/
def scanFree (memMap : MemMap) : (left : Nat) → left ≤ nrPages → Option (Fin nrPages)
  | 0, _ => none
  | left + 1, hleft =>
      let i : Fin nrPages := ⟨nrPages - (left + 1), by omega⟩
      if memMap i = 0 then some i else scanFree memMap left (by omega)

def getFreePage (memMap : MemMap) : U64 × MemMap :=
  match scanFree memMap nrPages (Nat.le_refl nrPages) with
  | some i => (pageAddr i, Function.update memMap i 1)
  | none => (0, memMap)

/-- `none` is a store outside of `mem_map`. -/
def freePage (p : U64) (memMap : MemMap) : Option MemMap :=
  if h : ((p - lowMemory) / pageSize).toNat < nrPages then
    some (Function.update memMap ⟨((p - lowMemory) / pageSize).toNat, h⟩ 0)
  else
    none

theorem toNat_pageAddr (i : Fin nrPages) :
    (pageAddr i).toNat = 4194304 + i.val * 4096 := by
  have hlow := lowMemory_toNat
  have hi : i.val < 131072 := i.isLt
  simp only [pageAddr, BitVec.toNat_add, BitVec.toNat_ofNat, hlow]
  omega

theorem pageAddr_ne_zero (i : Fin nrPages) : pageAddr i ≠ 0 := by
  intro heq
  have haddr := toNat_pageAddr i
  rw [heq] at haddr
  simp at haddr
  omega

theorem pageAddr_injective : Function.Injective pageAddr := by
  intro i j heq
  have hi := toNat_pageAddr i
  have hj := toNat_pageAddr j
  rw [heq] at hi
  exact Fin.ext (by omega)

theorem slot_pageAddr (i : Fin nrPages) :
    ((pageAddr i - lowMemory) / pageSize).toNat = i.val := by
  have hsize := pageSize_toNat
  have hlow := lowMemory_toNat
  have haddr := toNat_pageAddr i
  have hi : i.val < 131072 := i.isLt
  rw [BitVec.toNat_udiv, BitVec.toNat_sub, hlow, haddr, hsize]
  omega

@[simp] theorem freePage_pageAddr (memMap : MemMap) (i : Fin nrPages) :
    freePage (pageAddr i) memMap = some (Function.update memMap i 0) := by
  unfold freePage
  rw [dif_pos (by rw [slot_pageAddr]; exact i.isLt)]
  congr 2
  exact Fin.ext (slot_pageAddr i)

private theorem scanFree_sound {memMap : MemMap} :
    ∀ {left : Nat} {hleft : left ≤ nrPages} {i : Fin nrPages},
      scanFree memMap left hleft = some i →
      memMap i = 0 ∧ nrPages - left ≤ i.val ∧
        ∀ j : Fin nrPages, nrPages - left ≤ j.val → j < i → memMap j ≠ 0
  | 0, _, _, h => by simp [scanFree] at h
  | left + 1, hleft, i, h => by
      simp only [scanFree] at h
      split at h
      · next hfree =>
        cases h
        exact ⟨hfree, Nat.le_refl _, fun j hlow hlt =>
          absurd (Fin.lt_def.mp hlt) (by simp; omega)⟩
      · next hused =>
        obtain ⟨hfree, hlow, hbelow⟩ := scanFree_sound h
        refine ⟨hfree, by omega, ?_⟩
        intro j hj hlt
        by_cases hfirst : j.val = nrPages - (left + 1)
        · have hj : j = ⟨nrPages - (left + 1), by omega⟩ := Fin.ext hfirst
          exact hj ▸ hused
        · exact hbelow j (by omega) hlt

private theorem scanFree_none {memMap : MemMap} :
    ∀ {left : Nat} {hleft : left ≤ nrPages},
      scanFree memMap left hleft = none →
      ∀ j : Fin nrPages, nrPages - left ≤ j.val → memMap j ≠ 0
  | 0, _, _, j, hj => absurd j.isLt (by omega)
  | left + 1, hleft, h, j, hj => by
      simp only [scanFree] at h
      split at h
      · exact absurd h (by simp)
      · next hused =>
        by_cases hfirst : j.val = nrPages - (left + 1)
        · have hj : j = ⟨nrPages - (left + 1), by omega⟩ := Fin.ext hfirst
          exact hj ▸ hused
        · exact scanFree_none h j (by omega)

/-- All that `get_free_page` can do: claim the lowest free slot, or report that
there is none. -/
theorem getFreePage_cases (memMap : MemMap) :
    (∃ i, memMap i = 0 ∧ (∀ j < i, memMap j ≠ 0) ∧
      getFreePage memMap = (pageAddr i, Function.update memMap i 1)) ∨
    ((∀ i, memMap i ≠ 0) ∧ getFreePage memMap = (0, memMap)) := by
  unfold getFreePage
  cases hscan : scanFree memMap nrPages (Nat.le_refl nrPages) with
  | some i =>
      obtain ⟨hfree, _, hbelow⟩ := scanFree_sound hscan
      exact .inl ⟨i, hfree, fun j hlt => hbelow j (by omega) hlt, rfl⟩
  | none => exact .inr ⟨fun i => scanFree_none hscan i (by omega), rfl⟩

/-- The number of pages that `get_free_page` has left. -/
def MemMap.free (memMap : MemMap) : Nat := (Finset.univ.filter fun i => memMap i = 0).card

theorem MemMap.free_update {memMap : MemMap} (hfree : memMap i = 0) :
    MemMap.free (Function.update memMap i 1) + 1 = memMap.free := by
  have herase : (Finset.univ.filter fun j => Function.update memMap i 1 j = 0) =
      (Finset.univ.filter fun j => memMap j = 0).erase i := by
    ext j
    by_cases hj : j = i
    · subst hj
      simp
    · simp [hj]
  rw [free, herase]
  exact Finset.card_erase_add_one (Finset.mem_filter.mpr ⟨Finset.mem_univ i, hfree⟩)

end YiOS
