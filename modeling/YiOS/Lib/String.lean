import YiOS.Library.Memory
import YiOS.Page

namespace YiOS

open YiOS.Library

/-! `memcpy` of `string.c`. -/

/-- The loop of `memcpy`, with `count` bytes still to go. -/
def memcpyLoop (m : Memory) (tmp s : U64) : Nat → Memory
  | 0 => m
  | count + 1 => memcpyLoop (Function.update m tmp (m s)) (tmp + 1) (s + 1) count

/-- The memory after the call, and `dest`. -/
def memcpy (m : Memory) (dest src count : U64) : Memory × U64 :=
  (memcpyLoop m dest src count.toNat, dest)

/-- Where a byte of `dest` has come from: a destination that begins `gap` bytes into the
source repeats these. -/
def copied (m : Memory) (src : U64) (gap i : Nat) : BitVec 8 :=
  m (src + BitVec.ofNat 64 (i % gap))

/-- `done` bytes have been copied. -/
structure Copying (m : Memory) (dest src : U64) (done : Nat) (m' : Memory) : Prop where
  copied : ∀ i < done, m' (dest + BitVec.ofNat 64 i) = copied m src (dest - src).toNat i
  kept : ∀ b, ¬ Within dest done b → m' b = m b

theorem within_ofNat_iff (dest : U64) {i done : Nat} (hi : i < 2 ^ 64) :
    Within dest done (dest + BitVec.ofNat 64 i) ↔ i < done := by
  unfold Within
  rw [BitVec.add_comm, BitVec.add_sub_cancel, BitVec.toNat_ofNat, Nat.mod_eq_of_lt hi]

theorem exists_of_within {dest b : U64} (h : Within dest done b) :
    ∃ i < done, b = dest + BitVec.ofNat 64 i := by
  refine ⟨(b - dest).toNat, h, ?_⟩
  rw [BitVec.ofNat_toNat, BitVec.setWidth_eq, BitVec.add_comm, BitVec.sub_add_cancel]

namespace Copying

theorem start (m : Memory) (dest src : U64) : Copying m dest src 0 m where
  copied := fun _ hi => absurd hi (Nat.not_lt_zero _)
  kept := fun _ _ => rfl

/-- The byte to be read next is still the source's, or has been copied itself. -/
theorem next_byte (h : Copying m dest src done m') (hdone : done < 2 ^ 64) :
    m' (src + BitVec.ofNat 64 done) = YiOS.copied m src (dest - src).toNat done := by
  have hgap := (dest - src).isLt
  by_cases hwithin : Within dest done (src + BitVec.ofNat 64 done)
  · obtain ⟨i, hi, haddr⟩ := exists_of_within hwithin
    have hsum : done = i + (dest - src).toNat := by
      have hdiff : BitVec.ofNat 64 done = BitVec.ofNat 64 i + (dest - src) := by bv_omega
      have hnat := congrArg BitVec.toNat hdiff
      rw [BitVec.toNat_add, BitVec.toNat_ofNat, BitVec.toNat_ofNat] at hnat
      omega
    rw [haddr, h.copied i hi, hsum, YiOS.copied, YiOS.copied, Nat.add_mod_right]
  · have hmod : done % (dest - src).toNat = done := by
      cases Nat.eq_zero_or_pos (dest - src).toNat with
      | inl hzero => rw [hzero, Nat.mod_zero]
      | inr hpos =>
          apply Nat.mod_eq_of_lt
          by_contra hle
          have haddr : src + BitVec.ofNat 64 done =
              dest + BitVec.ofNat 64 (done - (dest - src).toNat) := by bv_omega
          rw [haddr, within_ofNat_iff _ (by omega)] at hwithin
          omega
    rw [h.kept _ hwithin, YiOS.copied, hmod]

theorem step (h : Copying m dest src done m') (hdone : done < 2 ^ 64) :
    Copying m dest src (done + 1) (Function.update m' (dest + BitVec.ofNat 64 done)
      (m' (src + BitVec.ofNat 64 done))) where
  copied := by
    intro i hi
    by_cases hlast : i = done
    · rw [hlast, Function.update_self, h.next_byte hdone]
    · have hne : dest + BitVec.ofNat 64 i ≠ dest + BitVec.ofNat 64 done := by bv_omega
      rw [Function.update_of_ne hne, h.copied i (by omega)]
  kept := by
    intro b hb
    have hne : b ≠ dest + BitVec.ofNat 64 done := by
      intro heq
      exact hb (heq ▸ (within_ofNat_iff dest hdone).mpr (Nat.lt_succ_self done))
    rw [Function.update_of_ne hne, h.kept b fun hwithin => hb (hwithin.mono (Nat.le_succ done))]

theorem loop (h : Copying m dest src done m') (hcount : done + count ≤ 2 ^ 64) :
    Copying m dest src (done + count)
      (memcpyLoop m' (dest + BitVec.ofNat 64 done) (src + BitVec.ofNat 64 done) count) := by
  induction count generalizing done m' with
  | zero => exact h
  | succ count ih =>
      have hnext : ∀ a : U64, a + BitVec.ofNat 64 done + 1 = a +
        BitVec.ofNat 64 (done + 1) := by
        intro a
        rw [BitVec.ofNat_add, BitVec.add_assoc]
        rfl
      rw [memcpyLoop, hnext, hnext, Nat.add_comm count, ← Nat.add_assoc]
      exact ih (h.step (by omega)) (by omega)

end Copying

/-- Every byte of the destination has one origin, with any overlap, and nothing else
changes. -/
theorem memcpy_copying (m : Memory) (dest src count : U64) :
    Copying m dest src count.toNat (memcpy m dest src count).1 := by
  have hcount : 0 + count.toNat ≤ 2 ^ 64 := by
    rw [Nat.zero_add]
    exact count.isLt.le
  have hloop := (Copying.start m dest src).loop hcount
  simpa [memcpy] using hloop

/-- The origin of every byte, for any overlap, and for which overlaps the destination is a
copy of what the source was. -/
theorem memcpy_overlap (dest src count : U64) :
    (∀ m : Memory, Copying m dest src count.toNat (memcpy m dest src count).1) ∧
      ((∀ m : Memory, ∀ i < count.toNat,
        (memcpy m dest src count).1 (dest + BitVec.ofNat 64 i) =
          m (src + BitVec.ofNat 64 i)) ↔
        dest = src ∨ count.toNat ≤ (dest - src).toNat) := by
  refine ⟨fun m => memcpy_copying m dest src count, ?_, ?_⟩
  · intro h
    by_contra hoverlap
    push Not at hoverlap
    obtain ⟨hne, hlt⟩ := hoverlap
    have hgap : (dest - src).toNat ≠ 0 := fun hzero => hne (by bv_omega)
    let m : Memory := fun b => if b = src then 1 else 0
    have hcopied := (memcpy_copying m dest src count).copied _ hlt
    rw [h m _ hlt, copied, Nat.mod_self] at hcopied
    have hbyte : m (src + BitVec.ofNat 64 (dest - src).toNat) = 0 := if_neg (by bv_omega)
    rw [hbyte] at hcopied
    simp [m] at hcopied
  · intro h m i hi
    rw [(memcpy_copying m dest src count).copied i hi, copied]
    congr 3
    cases h with
    | inl heq => rw [heq, BitVec.sub_self, BitVec.toNat_zero, Nat.mod_zero]
    | inr hle => exact Nat.mod_eq_of_lt (lt_of_lt_of_le hi hle)

end YiOS
