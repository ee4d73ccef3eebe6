import YiOS.Library.Memory

namespace YiOS.Library

/-! Stacks that grow downwards, in memory whose addresses wrap. -/

theorem Within.iff_toNat {a b : BitVec 64} {n : Nat} (h : a.toNat + n ≤ 2 ^ 64) :
    Within a n b ↔ a.toNat ≤ b.toNat ∧ b.toNat < a.toNat + n := by
  have hlt := b.isLt
  unfold Within
  rw [BitVec.toNat_sub]
  omega

structure Stack where
  top : BitVec 64
  size : BitVec 64

namespace Stack

variable {s : Stack} {sp sp' b : BitVec 64} {n : Nat} {m m' m'' : Memory}

/-- The byte at `b` belongs to the stack. -/
def Has (s : Stack) (b : BitVec 64) : Prop := Within (s.top - s.size) s.size.toNat b

/-- How much of the stack is in use. -/
def depth (s : Stack) (sp : BitVec 64) : Nat := (s.top - sp).toNat

/-- The byte at `b` is in use. -/
def Used (s : Stack) (sp b : BitVec 64) : Prop := Within sp (s.depth sp) b

/-- What is in use reads the same. -/
def Same (s : Stack) (sp : BitVec 64) (m m' : Memory) : Prop :=
  ∀ b, s.Used sp b → m' b = m b

theorem used_iff : s.Used sp b ↔ 2 ^ 64 ≤ (b - s.top).toNat + s.depth sp := by
  have hsplit : (b - sp).toNat = ((b - s.top).toNat + (s.top - sp).toNat) % 2 ^ 64 := by
    simp only [BitVec.toNat_sub]
    omega
  have hlt := (b - s.top).isLt
  have hlt' := (s.top - sp).isLt
  unfold Used Within depth
  omega

theorem used_mono (h : s.depth sp ≤ s.depth sp') (hb : s.Used sp b) : s.Used sp' b := by
  rw [used_iff] at hb ⊢
  omega

theorem depth_bottom : s.depth (s.top - s.size) = s.size.toNat := by
  rw [depth, sub_sub_self]

theorem has_iff_used : s.Has b ↔ s.Used (s.top - s.size) b := by
  rw [Has, Used, depth_bottom]

theorem Used.has (h : s.depth sp ≤ s.size.toNat) (hb : s.Used sp b) : s.Has b := by
  rw [has_iff_used]
  refine used_mono ?_ hb
  rwa [depth_bottom]

/-- The stack pointer goes down by a frame. -/
theorem depth_sub {k : BitVec 64} (h : s.depth sp + k.toNat < 2 ^ 64) :
    s.depth (sp - k) = s.depth sp + k.toNat := by
  unfold depth at h ⊢
  simp only [BitVec.toNat_sub] at h ⊢
  omega

theorem Used.frame {k : BitVec 64} (h : s.depth sp + k.toNat < 2 ^ 64)
    (hb : Within (sp - k) k.toNat b) : s.Used (sp - k) b := by
  refine Within.mono hb ?_
  rw [depth_sub h]
  omega

/-- A new frame is below what is in use. -/
theorem Used.not_frame {k : BitVec 64} (h : s.depth sp + k.toNat < 2 ^ 64)
    (hb : s.Used sp b) :
    ¬ Within (sp - k) k.toNat b := by
  rw [used_iff] at hb
  intro hframe
  have hsplit : (b - (sp - k)).toNat =
      ((b - s.top).toNat + (s.depth sp + k.toNat)) % 2 ^ 64 := by
    unfold depth
    simp only [BitVec.toNat_sub]
    omega
  have hlt := (b - s.top).isLt
  unfold Within at hframe
  omega

namespace Same

theorem refl (s : Stack) (sp : BitVec 64) (m : Memory) : s.Same sp m m := fun _ _ => rfl

theorem trans (h : s.Same sp m m') (h' : s.Same sp m' m'') : s.Same sp m m'' :=
  fun b hb => (h' b hb).trans (h b hb)

theorem mono (h : s.Same sp' m m') (hdepth : s.depth sp ≤ s.depth sp') : s.Same sp m m' :=
  fun b hb => h b (used_mono hdepth hb)

/-- It is enough that the whole stack reads the same. -/
theorem of_has (h : ∀ b, s.Has b → m' b = m b) (hdepth : s.depth sp ≤ s.size.toNat) :
    s.Same sp m m' :=
  fun b hb => h b (hb.has hdepth)

theorem loadWords {k : BitVec 64} (h : s.Same (sp - k) m m')
    (hdepth : s.depth sp + k.toNat < 2 ^ 64) (hn : 8 * n = k.toNat) :
    m'.loadWords (sp - k) n = m.loadWords (sp - k) n := by
  refine Memory.loadWords_congr (by have := k.isLt; omega) fun b hb => h b ?_
  rw [hn] at hb
  exact Used.frame hdepth hb

end Same

end Stack

end YiOS.Library
