import Mathlib.Tactic.IntervalCases
import YiOS.Library.Routine
import YiOS.Page

namespace YiOS

open YiOS.Library

/-! `memset` of `memset.S`: the buffer is in `x0`, the character in `x1` and the size in
`x2`. -/

def memsetCode : List Line :=
  [.op (.plain (.mov (.x 4) (.x 0))),
    .op (.andw 1 1 0xff),
    .op (.orrw 1 1 1 8),
    .op (.orrw 1 1 1 16),
    .op (.orr 1 1 1 32),
    .op (.subs 2 2 8),
    .b .mi 10,
    -- 1:
    .op (.store 8 1 4 8),
    .op (.subs 2 2 8),
    .b .pl 7,
    -- 2:
    .op (.adds 2 2 4),
    .b .mi 14,
    .op (.plain (.sub (.x 2) (.x 2) 4)),
    .op (.store 4 1 4 4),
    -- 3:
    .op (.adds 2 2 2),
    .b .mi 18,
    .op (.plain (.sub (.x 2) (.x 2) 2)),
    .op (.store 2 1 4 2),
    -- 4:
    .op (.adds 2 2 1),
    .b .mi 21,
    .op (.store 1 1 4 0),
    -- 5:
    .ret]

def memset (base : U64) : Routine := ⟨base, memsetCode⟩

/-- What the first five instructions leave in `x1`. -/
def eightTimes (c : U64) : U64 :=
  let w := c.setWidth 32 &&& 0xff
  let w := w ||| w <<< 8
  let w := w ||| w <<< 16
  let x : U64 := w.setWidth 64
  x ||| x <<< 32

theorem eightTimes_byte (c : U64) (i : Nat) (hi : i < 8) :
    (eightTimes c).extractLsb' (8 * i) 8 = c.setWidth 8 := by
  apply BitVec.eq_of_getLsbD_eq
  intro j hj
  have hmask : ∀ k, (0xff : BitVec 32).getLsbD k = decide (k < 8) := by
    intro k
    by_cases hk : k < 32
    · revert k
      decide
    · rw [BitVec.getLsbD_of_ge _ _ (by omega)]
      simp
      omega
  simp only [eightTimes, BitVec.getLsbD_extractLsb', BitVec.getLsbD_or,
    BitVec.getLsbD_shiftLeft,
    BitVec.getLsbD_setWidth, BitVec.getLsbD_and, hmask]
  interval_cases i <;> grind

/-- `done` bytes from `buf` on have been filled, and `x2` is at `left`. -/
structure Filling (m : Memory) (buf : U64) (byte : BitVec 8) (done : Nat)
    (left : U64) (c : Cpu) :
    Prop where
  x1 : ∀ i < 8, (c.x 1).extractLsb' (8 * i) 8 = byte
  x2 : c.x 2 = left
  x4 : c.x 4 = buf + BitVec.ofNat 64 done
  mem : c.mem = m.fill buf done byte

section Run

variable {base buf left : U64} {m : Memory} {byte : BitVec 8} {done i k n rest target : Nat}
  {imm : U64} {c : Cpu}

namespace Filling

theorem jump (h : Filling m buf byte done left c) (pc : U64) :
    Filling m buf byte done left (c.b pc) := ⟨h.x1, h.x2, h.x4, h.mem⟩

/-- The next `k` bytes are stored, of a word that is the same byte all over. -/
theorem store (h : Filling m buf byte done left c) (hk : k ≤ 8)
    (hdone : done + k ≤ 2 ^ 64) :
    Filling m buf byte (done + k) left (c.perform (.store k 1 4 (BitVec.ofNat 64 k))) where
  x1 := h.x1
  x2 := h.x2
  x4 := by
    rw [BitVec.ofNat_add, ← BitVec.add_assoc, ← h.x4]
    rfl
  mem := by
    have hmem : (c.perform (.store k 1 4 (BitVec.ofNat 64 k))).mem =
        c.mem.storeLow (c.x 4) k (c.x 1) := rfl
    rw [hmem, Memory.storeLow_eq_fill _ _ h.x1 hk, h.mem, h.x4,
      Memory.fill_fill _ _ _ hdone]

theorem adds (h : Filling m buf byte done left c) (imm : U64) :
    Filling m buf byte done (left + imm) (c.perform (.adds 2 2 imm)) where
  x1 := h.x1
  x2 := congrArg (· + imm) h.x2
  x4 := h.x4
  mem := h.mem

theorem subs (h : Filling m buf byte done left c) (imm : U64) :
    Filling m buf byte done (left - imm) (c.perform (.subs 2 2 imm)) where
  x1 := h.x1
  x2 := congrArg (· - imm) h.x2
  x4 := h.x4
  mem := h.mem

theorem sub (h : Filling m buf byte done left c) (imm : U64) :
    Filling m buf byte done (left - imm) (c.perform (.plain (.sub (.x 2) (.x 2) imm))) where
  x1 := h.x1
  x2 := congrArg (· - imm) h.x2
  x4 := h.x4
  mem := h.mem

end Filling

/-- The character is in each byte of `x1`. -/
def memsetPrologue : List Op :=
  [.plain (.mov (.x 4) (.x 0)), .andw 1 1 0xff, .orrw 1 1 1 8, .orrw 1 1 1 16,
    .orr 1 1 1 32]

theorem memsetPrologue_x1 (c : Cpu) :
    (c.performs memsetPrologue).x 1 = eightTimes (c.x 1) := by
  simp [memsetPrologue, Cpu.perform, Cpu.act, Cpu.setw, Cpu.getw, eightTimes]

theorem memsetPrologue_filling (c : Cpu) :
    Filling c.mem (c.x 0) ((c.x 1).setWidth 8) 0 (c.x 2)
    (c.performs memsetPrologue) where
  x1 := fun i hi => by rw [memsetPrologue_x1, eightTimes_byte _ i hi]
  x2 := by simp [memsetPrologue, Cpu.perform, Cpu.act, Cpu.setw, Cpu.getw]
  x4 := by simp [memsetPrologue, Cpu.perform, Cpu.act, Cpu.setw, Cpu.getw]
  mem := by simp [memsetPrologue, Cpu.perform, Cpu.act, Cpu.setw, Cpu.getw]

theorem memset_entry (hpc : c.pc = base) : ∃ c', (memset base).Reaches c c' ∧
    c'.pc = (memset base).label (if (c.x 2 - 8).msb then 10 else 7) ∧
    Filling c.mem (c.x 0) ((c.x 1).setWidth 8) 0 (c.x 2 - 8) c' := by
  have hlabel : c.pc = (memset base).label 0 := by simp [Listing.label, memset, hpc]
  obtain ⟨hprologue, hpc'⟩ := Routine.reaches_ops memsetPrologue hlabel rfl (by decide)
  have hfilling := memsetPrologue_filling c
  generalize c.performs memsetPrologue = c' at hprologue hpc' hfilling
  obtain ⟨hsubs, hpc''⟩ := Routine.reaches_ops [.subs 2 2 8] hpc' rfl (by decide)
  have hline : (memset base).code[6]? = some (.b .mi 10) := rfl
  have hbranch := Routine.reaches_b hpc'' hline (by decide)
  refine ⟨_, (hprologue.trans hsubs).trans hbranch, ?_, ((hfilling.subs 8).jump _).jump _⟩
  have hnegative : (c'.performs [.subs 2 2 8]).holds .mi = (c.x 2 - 8).msb := by
    rw [← hfilling.x2]
    exact Cpu.subs_negative _ 2 2 8
  rw [hnegative]
  rfl

/-- The loop at 1, a word at a time. -/
theorem memset_word (hpc : c.pc = (memset base).label 7)
    (h : Filling m buf byte done left c)
    (hdone : done + 8 ≤ 2 ^ 64) : ∃ c', (memset base).Reaches c c' ∧
      c'.pc = (memset base).label (if (left - 8).msb then 10 else 7) ∧
      Filling m buf byte (done + 8) (left - 8) c' := by
  obtain ⟨hops, hpc'⟩ := Routine.reaches_ops [.store 8 1 4 8, .subs 2 2 8] hpc rfl (by decide)
  have hline : (memset base).code[9]? = some (.b .pl 7) := rfl
  have hbranch := Routine.reaches_b hpc' hline (by decide)
  refine ⟨_, hops.trans hbranch, ?_, ((((h.store (by decide) hdone).jump _).subs 8).jump _).jump _⟩
  have hnegative : (c.performs [.store 8 1 4 8, .subs 2 2 8]).holds .pl =
    !(left - 8).msb := by
    rw [← h.x2]
    exact congrArg (!·) (Cpu.subs_negative _ 2 2 8)
  rw [hnegative]
  cases (left - 8).msb with
  | true => rfl
  | false => rfl

/-- One of the pieces behind the loop, at 2, 3 and 4, which is left out when `x2` stays
negative. -/
theorem memset_skip (hline : memsetCode[i]? = some (.op (.adds 2 2 imm)))
    (hbranch : memsetCode[i + 1]? = some (.b .mi target))
    (hpc : c.pc = (memset base).label i)
    (h : Filling m buf byte done left c) : ∃ c', (memset base).Reaches c c' ∧
      c'.pc = (memset base).label (if (left + imm).msb then target else i + 2) ∧
      Filling m buf byte done (left + imm) c' := by
  have hi : i < 22 := (List.getElem?_eq_some_iff.mp hline).1
  obtain ⟨hadds, hpc'⟩ := Routine.reaches_ops [.adds 2 2 imm] hpc
    (by simp [memset, List.take_one, hline]) (by simp; omega)
  have htaken := Routine.reaches_b hpc' hbranch (by simp; omega)
  refine ⟨_, hadds.trans htaken, ?_, ((h.adds imm).jump _).jump _⟩
  have hnegative : (c.performs [.adds 2 2 imm]).holds .mi = (left + imm).msb := by
    rw [← h.x2]
    exact Cpu.adds_negative _ 2 2 imm
  rw [hnegative]
  rfl

theorem ofNat_sub_msb (hn : n < 2 ^ 63 + k) (hk : k ≤ 8) :
    (BitVec.ofNat 64 n - BitVec.ofNat 64 k).msb = decide (n < k) := by
  rw [BitVec.msb_eq_decide, BitVec.toNat_sub, BitVec.toNat_ofNat, BitVec.toNat_ofNat,
    decide_eq_decide]
  omega

theorem ofNat_sub_ofNat (h : k ≤ n) :
    BitVec.ofNat 64 n - BitVec.ofNat 64 k = BitVec.ofNat 64 (n - k) := by
  apply BitVec.eq_of_toNat_eq
  rw [BitVec.toNat_sub, BitVec.toNat_ofNat, BitVec.toNat_ofNat, BitVec.toNat_ofNat]
  omega

theorem ofNat_sub_add (n k : Nat) : BitVec.ofNat 64 n - BitVec.ofNat 64 (k + k) +
    BitVec.ofNat 64 k = BitVec.ofNat 64 n - BitVec.ofNat 64 k := by
  apply BitVec.eq_of_toNat_eq
  simp only [BitVec.toNat_add, BitVec.toNat_sub, BitVec.toNat_ofNat]
  omega

/-- The whole words of `n` bytes. -/
theorem memset_loop (hn : n < 2 ^ 63 + 8) (hword : 8 ≤ n)
    (hpc : c.pc = (memset base).label 7)
    (h : Filling m buf byte 0 (BitVec.ofNat 64 (n - 8)) c) :
    ∃ c', (memset base).Reaches c c' ∧ c'.pc = (memset base).label 10 ∧
      Filling m buf byte (n - n % 8) (BitVec.ofNat 64 (n % 8) - 8) c' := by
  apply reaches_loop (fun c => (c.x 2).toNat)
    (I := fun c => c.pc = (memset base).label 7 ∧ ∃ done, 8 ∣ done ∧ done + 8 ≤ n ∧
      Filling m buf byte done (BitVec.ofNat 64 (n - 8 - done)) c)
  · rintro c ⟨hpc, done, ⟨words, rfl⟩, hdone, h⟩
    obtain ⟨c', hreaches, hpc', h'⟩ := memset_word hpc h (by omega)
    have hmsb := ofNat_sub_msb (n := n - 8 - 8 * words) (k := 8) (by omega) le_rfl
    refine ⟨c', hreaches, ?_⟩
    by_cases hlast : n - 8 - 8 * words < 8
    · have hrest : n - 8 - 8 * words = n % 8 := by omega
      have hall : 8 * words + 8 = n - n % 8 := by omega
      rw [hrest, hall] at h'
      rw [hrest] at hpc' hmsb
      refine .inl ⟨hpc'.trans ?_, h'⟩
      rw [show (8 : U64) = BitVec.ofNat 64 8 from rfl, hmsb,
        if_pos (by simpa using hrest ▸ hlast)]
    · refine .inr ⟨⟨hpc'.trans ?_, 8 * words + 8, ⟨words + 1, by omega⟩, by omega, ?_⟩, ?_⟩
      · rw [show (8 : U64) = BitVec.ofNat 64 8 from rfl, hmsb,
          if_neg (by simpa using hlast)]
      · have hleft := ofNat_sub_ofNat (n := n - 8 - 8 * words) (k := 8) (by omega)
        rw [show n - 8 - (8 * words + 8) = n - 8 - 8 * words - 8 by omega, ← hleft]
        exact h'
      · rw [h.x2, h'.x2, show (8 : U64) = BitVec.ofNat 64 8 from rfl,
          ofNat_sub_ofNat (by omega),
          BitVec.toNat_ofNat, BitVec.toNat_ofNat]
        omega
  · exact ⟨hpc, 0, dvd_zero 8, by omega, h⟩

/-- Two of the pieces behind the loop: half of what may be left is stored when so much
is. -/
theorem memset_half (hk : k = 4 ∧ i = 10 ∨ k = 2 ∧ i = 14) (hrest : rest < k + k)
    (hdone : done + rest ≤ 2 ^ 64) (hpc : c.pc = (memset base).label i)
    (h : Filling m buf byte done (BitVec.ofNat 64 rest - BitVec.ofNat 64 (k + k)) c) :
    ∃ c' done', (memset base).Reaches c c' ∧ c'.pc = (memset base).label (i + 4) ∧
      done' + rest % k = done + rest ∧
      Filling m buf byte done' (BitVec.ofNat 64 (rest % k) - BitVec.ofNat 64 k) c' := by
  have hlines : memsetCode[i]? = some (.op (.adds 2 2 (BitVec.ofNat 64 k))) ∧
      memsetCode[i + 1]? = some (.b .mi (i + 4)) ∧
      (memsetCode.drop (i + 2)).take 2 =
        [.op (.plain (.sub (.x 2) (.x 2) (BitVec.ofNat 64 k))),
        .op (.store k 1 4 (BitVec.ofNat 64 k))] := by
    rcases hk with ⟨rfl, rfl⟩ | ⟨rfl, rfl⟩ <;> decide
  have hbound : k ≤ 8 ∧ i < 22 := by omega
  obtain ⟨hline, hbranch, hcode⟩ := hlines
  obtain ⟨c', hreaches, hpc', h'⟩ := memset_skip hline hbranch hpc h
  rw [ofNat_sub_add, ofNat_sub_msb (by omega) hbound.1] at hpc'
  rw [ofNat_sub_add] at h'
  by_cases hless : rest < k
  · rw [Nat.mod_eq_of_lt hless]
    exact ⟨c', done, hreaches, by simpa [hless] using hpc', rfl, h'⟩
  · rw [if_neg (by simpa using hless)] at hpc'
    obtain ⟨hops, hpc''⟩ := Routine.reaches_ops
      [.plain (.sub (.x 2) (.x 2) (BitVec.ofNat 64 k)),
        .store k 1 4 (BitVec.ofNat 64 k)] hpc'
      hcode (by simp; omega)
    have hmod : rest % k = rest - k := by
      rw [Nat.mod_eq_sub_mod (by omega), Nat.mod_eq_of_lt (by omega)]
    have hstored : Filling m buf byte (done + k)
        (BitVec.ofNat 64 rest - BitVec.ofNat 64 k - BitVec.ofNat 64 k)
        (c'.performs [.plain (.sub (.x 2) (.x 2) (BitVec.ofNat 64 k)),
          .store k 1 4 (BitVec.ofNat 64 k)]) :=
      (((h'.sub (BitVec.ofNat 64 k)).jump _).store hbound.1 (by omega)).jump _
    rw [ofNat_sub_ofNat (by omega), ← hmod] at hstored
    exact ⟨_, done + k, hreaches.trans hops, hpc'', by omega, hstored⟩

/-- The last byte, at 4. -/
theorem memset_byte (hrest : rest < 2) (hdone : done + rest ≤ 2 ^ 64)
    (hpc : c.pc = (memset base).label 18)
    (h : Filling m buf byte done (BitVec.ofNat 64 rest - 2) c) :
    ∃ c', (memset base).Reaches c c' ∧ c'.pc = (memset base).label 21 ∧
      c'.mem = m.fill buf (done + rest) byte := by
  obtain ⟨c', hreaches, hpc', h'⟩ := memset_skip (i := 18) rfl rfl hpc h
  have hleft : BitVec.ofNat 64 rest - 2 + 1 = BitVec.ofNat 64 rest - BitVec.ofNat 64 1 :=
    ofNat_sub_add rest 1
  rw [hleft, ofNat_sub_msb (by omega) (by omega)] at hpc'
  cases rest with
  | zero => exact ⟨c', hreaches, hpc', h'.mem⟩
  | succ rest =>
      obtain rfl : rest = 0 := by omega
      obtain ⟨hops, hpc''⟩ := Routine.reaches_ops [.store 1 1 4 0] hpc' rfl (by decide)
      refine ⟨_, hreaches.trans hops, hpc'', ?_⟩
      exact (h'.store (by decide) hdone).mem

/-- Behind the loop fewer than eight bytes are left. -/
theorem memset_tail (hrest : rest < 8) (hdone : done + rest ≤ 2 ^ 64)
    (hpc : c.pc = (memset base).label 10)
    (h : Filling m buf byte done (BitVec.ofNat 64 rest - 8) c) :
    ∃ c', (memset base).Reaches c c' ∧ c'.pc = (memset base).label 21 ∧
      c'.mem = m.fill buf (done + rest) byte := by
  obtain ⟨c₁, done₁, hreaches₁, hpc₁, hsum₁, h₁⟩ :=
    memset_half (k := 4) (.inl ⟨rfl, rfl⟩) hrest hdone hpc h
  obtain ⟨c₂, done₂, hreaches₂, hpc₂, hsum₂, h₂⟩ :=
    memset_half (k := 2) (.inr ⟨rfl, rfl⟩) (Nat.mod_lt _ (by decide))
      (hsum₁ ▸ hdone) hpc₁ h₁
  obtain ⟨c₃, hreaches₃, hpc₃, hmem⟩ :=
    memset_byte (Nat.mod_lt _ (by decide)) (by omega) hpc₂ h₂
  refine ⟨c₃, (hreaches₁.trans hreaches₂).trans hreaches₃, hpc₃, ?_⟩
  rw [hmem, hsum₂, hsum₁]

/-- A size that is negative, when eight is subtracted from it, is so at each of the
pieces. -/
theorem memset_negative (hn : 2 ^ 63 + 8 ≤ n) (hlt : n < 2 ^ 64)
    (hpc : c.pc = (memset base).label 10)
    (h : Filling m buf byte 0 (BitVec.ofNat 64 n - 8) c) :
    ∃ c', (memset base).Reaches c c' ∧ c'.pc = (memset base).label 21 ∧ c'.mem = m := by
  have hmsb : ∀ k, k ≤ 8 → (BitVec.ofNat 64 n - BitVec.ofNat 64 k).msb = true := by
    intro k hk
    rw [BitVec.msb_eq_decide, BitVec.toNat_sub, BitVec.toNat_ofNat, BitVec.toNat_ofNat,
      decide_eq_true_iff]
    omega
  obtain ⟨c₁, hreaches₁, hpc₁, h₁⟩ := memset_skip (i := 10) rfl rfl hpc h
  rw [show BitVec.ofNat 64 n - 8 + 4 = _ from ofNat_sub_add n 4] at hpc₁ h₁
  rw [hmsb 4 (by decide)] at hpc₁
  obtain ⟨c₂, hreaches₂, hpc₂, h₂⟩ := memset_skip (i := 14) rfl rfl hpc₁ h₁
  rw [show BitVec.ofNat 64 n - BitVec.ofNat 64 4 + 2 = _ from ofNat_sub_add n 2] at hpc₂ h₂
  rw [hmsb 2 (by decide)] at hpc₂
  obtain ⟨c₃, hreaches₃, hpc₃, h₃⟩ := memset_skip (i := 18) rfl rfl hpc₂ h₂
  rw [show BitVec.ofNat 64 n - BitVec.ofNat 64 2 + 1 = _ from ofNat_sub_add n 1] at hpc₃ h₃
  rw [hmsb 1 (by decide)] at hpc₃
  refine ⟨c₃, (hreaches₁.trans hreaches₂).trans hreaches₃, hpc₃, ?_⟩
  rw [h₃.mem, Memory.fill_zero]

/-- How many bytes a size means: from `2 ^ 63 + 8` on it is taken for a negative number. -/
def memsetLength (n : U64) : Nat := if n.toNat < 2 ^ 63 + 8 then n.toNat else 0

theorem memset_last (hpc : c.pc = base) : ∃ c', (memset base).Reaches c c' ∧
    c'.pc = (memset base).label 21 ∧
    c'.mem = c.mem.fill (c.x 0) (memsetLength (c.x 2)) ((c.x 1).setWidth 8) := by
  obtain ⟨c₁, hreaches₁, hpc₁, h₁⟩ := memset_entry hpc
  have hlt := (c.x 2).isLt
  have hsize : c.x 2 - 8 = BitVec.ofNat 64 (c.x 2).toNat - BitVec.ofNat 64 8 := by
    rw [BitVec.ofNat_toNat, BitVec.setWidth_eq]
    rfl
  rw [hsize] at hpc₁ h₁
  unfold memsetLength
  generalize (c.x 2).toNat = n at *
  by_cases hn : n < 2 ^ 63 + 8
  · rw [ofNat_sub_msb hn le_rfl] at hpc₁
    rw [if_pos hn]
    by_cases hsmall : n < 8
    · rw [if_pos (by simpa using hsmall)] at hpc₁
      obtain ⟨c₂, hreaches₂, hpc₂, hmem⟩ := memset_tail hsmall (by omega) hpc₁ h₁
      exact ⟨c₂, hreaches₁.trans hreaches₂, hpc₂, by rw [hmem, Nat.zero_add]⟩
    · rw [if_neg (by simpa using hsmall)] at hpc₁
      rw [ofNat_sub_ofNat (by omega)] at h₁
      obtain ⟨c₂, hreaches₂, hpc₂, h₂⟩ := memset_loop hn (by omega) hpc₁ h₁
      obtain ⟨c₃, hreaches₃, hpc₃, hmem⟩ :=
        memset_tail (Nat.mod_lt n (by decide)) (by omega) hpc₂ h₂
      refine ⟨c₃, (hreaches₁.trans hreaches₂).trans hreaches₃, hpc₃, ?_⟩
      rw [hmem, Nat.sub_add_cancel (Nat.mod_le n 8)]
  · have hmsb : (BitVec.ofNat 64 n - BitVec.ofNat 64 8).msb = true := by
      rw [BitVec.msb_eq_decide, BitVec.toNat_sub, BitVec.toNat_ofNat, BitVec.toNat_ofNat,
        decide_eq_true_iff]
      omega
    rw [hmsb] at hpc₁
    obtain ⟨c₂, hreaches₂, hpc₂, hmem⟩ := memset_negative (by omega) hlt hpc₁ h₁
    refine ⟨c₂, hreaches₁.trans hreaches₂, hpc₂, ?_⟩
    rw [hmem, if_neg hn, Memory.fill_zero]

end Run

theorem memset_returns (base : U64) (c : Cpu) :
    ∃ c', (memset base).Reaches (c.bl base) c' ∧ c'.pc = c.pc + 4 ∧
      c'.mem = c.mem.fill (c.x 0) (memsetLength (c.x 2)) ((c.x 1).setWidth 8) := by
  obtain ⟨c', hreaches, hpc', hmem⟩ := memset_last (c := c.bl base) rfl
  have hkept : (c.bl base).Kept [1, 2, 4] c' := Routine.Reaches.kept rfl hreaches
  have hret := hreaches.trans (Routine.reaches_ret hpc' rfl (by decide))
  exact ⟨c'.ret, hret, hkept.x 30 (by decide), hmem⟩

/-- The call returns with the bytes filled and all else as it was. -/
theorem memset_fills (base : U64) (c : Cpu) :
    ∃ c', (memset base).Reaches (c.bl base) c' ∧ c'.pc = c.pc + 4 ∧
      (c.bl base).Kept [1, 2, 4] c' ∧
      c'.mem = c.mem.fill (c.x 0) (memsetLength (c.x 2)) ((c.x 1).setWidth 8) := by
  obtain ⟨c', hreaches, hpc, hmem⟩ := memset_returns base c
  exact ⟨c', hreaches, hpc, Routine.Reaches.kept rfl hreaches, hmem⟩

/-- What `copy_thread` and `start.S` count on. -/
theorem memset_clears (base : U64) (c : Cpu) (hc : c.x 1 = 0)
    (hn : (c.x 2).toNat < 2 ^ 63) :
    ∃ c', (memset base).Reaches (c.bl base) c' ∧ c'.pc = c.pc + 4 ∧
      c'.mem = c.mem.clear (c.x 0) (c.x 2).toNat := by
  obtain ⟨c', hreaches, hpc, hmem⟩ := memset_returns base c
  refine ⟨c', hreaches, hpc, ?_⟩
  rw [hmem, hc, memsetLength, if_pos (by omega), Memory.clear_eq_fill]
  rfl

end YiOS
