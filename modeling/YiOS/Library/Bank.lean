import Mathlib.Data.BitVec
import Mathlib.Data.Set.Insert

namespace YiOS.Library

/-! Registers that hold a field for each of a range of ids, and loops that go over the ids
register by register. -/

/-- The values of the counter of `for (i = first; i < bound; i += stride)`. -/
def counters (first bound stride : Nat) : List Nat :=
  List.range' first ((bound - first + stride - 1) / stride) stride

theorem mem_counters (hstride : 0 < stride) :
    c ∈ counters first bound stride ↔ first ≤ c ∧ c < bound ∧ stride ∣ c - first := by
  rw [counters, List.mem_range']
  have hcount : ∀ i, i < (bound - first + stride - 1) / stride ↔
    first + stride * i < bound := by
    intro i
    rw [Nat.lt_div_iff_mul_lt hstride, Nat.mul_comm]
    omega
  constructor
  · rintro ⟨i, hi, rfl⟩
    exact ⟨Nat.le_add_right _ _, (hcount i).mp hi, ⟨i, Nat.add_sub_cancel_left _ _⟩⟩
  · rintro ⟨hfirst, hbound, i, hi⟩
    have heq : c = first + stride * i := by omega
    exact ⟨i, (hcount i).mpr (heq ▸ hbound), heq⟩

theorem lt_and_dvd_of_mem_counters (hstride : 0 < stride) (hdvd : stride ∣ first)
    (hc : c ∈ counters first bound stride) : c < bound ∧ stride ∣ c := by
  obtain ⟨hfirst, hbound, hoff⟩ := (mem_counters hstride).mp hc
  refine ⟨hbound, ?_⟩
  simpa [Nat.sub_add_cancel hfirst] using Nat.dvd_add hoff hdvd

/-- With as many ids in a register as the loop steps over, the register of each id has its
turn. -/
theorem exists_counter (hstride : 0 < stride) (hdvd : stride ∣ first) (hfirst : first ≤ i)
    (hi : i < bound) : ∃ c ∈ counters first bound stride, c / stride = i / stride := by
  obtain ⟨q, rfl⟩ := hdvd
  have hq : q ≤ i / stride :=
    (Nat.le_div_iff_mul_le hstride).mpr (Nat.mul_comm q stride ▸ hfirst)
  refine ⟨stride * (i / stride), (mem_counters hstride).mpr ⟨?_, ?_, ?_⟩, ?_⟩
  · exact Nat.mul_le_mul_left stride hq
  · exact lt_of_le_of_lt (Nat.mul_div_le i stride) hi
  · exact ⟨i / stride - q, (Nat.mul_sub stride _ q).symm⟩
  · exact Nat.mul_div_cancel_left _ hstride

/-- What one of the steps brings about and none of them undoes holds in the end. -/
theorem foldl_settles {step : σ → α → σ} {P : σ → Prop} {l : List α}
    (hkeep : ∀ a ∈ l, ∀ s, P s → P (step s a)) (hdo : ∃ a ∈ l, ∀ s, P (step s a)) (s : σ) :
    P (l.foldl step s) := by
  obtain ⟨a, ha, hdo⟩ := hdo
  obtain ⟨before, after, rfl⟩ := List.append_of_mem ha
  rw [List.foldl_append, List.foldl_cons]
  exact List.foldlRecOn after step (hdo _) fun s hs a' ha' => hkeep a' (by simp [ha']) s hs

/-- Registers of `w` bits. -/
abbrev Bank (w : Nat) := Nat → BitVec w

/-- The ids with a one in `v`, when it is register `k`. -/
def named (k : Nat) (v : BitVec w) : Set Nat := {i | i / w = k ∧ v.getLsbD (i % w) = true}

theorem named_twoPow (hw : 0 < w) (i : Nat) : named (i / w) (1#w <<< (i % w)) = {i} := by
  ext j
  have hlt := Nat.mod_lt j hw
  have hone : (1#w <<< (i % w)).getLsbD (j % w) = true ↔ j % w = i % w := by
    rw [← BitVec.twoPow_eq, BitVec.getLsbD_twoPow]
    simp [eq_comm, Nat.mod_lt i hw]
  constructor
  · rintro ⟨hdiv, hbit⟩
    have hmod := hone.mp hbit
    calc
      j = w * (j / w) + j % w := (Nat.div_add_mod j w).symm
      _ = w * (i / w) + i % w := by rw [hdiv, hmod]
      _ = i := Nat.div_add_mod i w
  · rintro rfl
    exact ⟨rfl, hone.mpr rfl⟩

theorem mem_named_allOnes (hw : 0 < w) : i ∈ named k (BitVec.allOnes w) ↔ i / w = k := by
  simp [named, Nat.mod_lt i hw]

namespace Bank

variable (bank : Bank w) (k : Nat) (v : BitVec w)

def put : Bank w := Function.update bank k v

/-- A one that is written sets the bit. -/
def set : Bank w := bank.put k (bank k ||| v)

/-- A one that is written clears the bit. -/
def clear : Bank w := bank.put k (bank k &&& ~~~v)

/-- The ids whose bit is set, with a bit for each. -/
def ids : Set Nat := {i | (bank (i / w)).getLsbD (i % w) = true}

/-- The field of an id, with `n` bits for each. -/
def field (n i : Nat) : BitVec n := (bank (i / (w / n))).extractLsb' (i % (w / n) * n) n

theorem ids_set : (bank.set k v).ids = bank.ids ∪ named k v := by
  ext i
  by_cases hk : i / w = k
  · subst hk
    simp [ids, named, set, put]
  · simp [ids, named, set, put, hk]

theorem ids_clear : (bank.clear k v).ids = bank.ids \ named k v := by
  ext i
  by_cases hk : i / w = k
  · subst hk
    have hlt : (bank (i / w)).getLsbD (i % w) = true → i % w < w := BitVec.lt_of_getLsbD
    simpa [ids, named, clear, put] using fun hbit _ => hlt hbit
  · simp [ids, named, clear, put, hk]

theorem field_put (n i : Nat) : (bank.put k v).field n i =
    if i / (w / n) = k then v.extractLsb' (i % (w / n) * n) n else bank.field n i := by
  unfold field put
  by_cases hk : i / (w / n) = k
  · rw [if_pos hk, hk, Function.update_self]
  · rw [if_neg hk, Function.update_of_ne hk]

end Bank

end YiOS.Library
