import YiOS.Entry.Code

namespace YiOS

open YiOS.Library

/-! Nested interrupts and their frames. -/

/-- Where the frame of an interrupt taken in `c` begins. -/
def frame (c : Cpu) : U64 := c.sp - stackFrameSize

def ptRegs (c : Cpu) : List U64 := List.ofFn c.x ++ [c.sp, c.pc, c.pstate]

/-- The processor, and where it was when the interrupts were taken that it has not returned
from, innermost first. -/
structure Nest where
  cpu : Cpu
  taken : List Cpu

/-- The stack pointer is below every live frame, and one more frame does not come round to
where the stack began. -/
def Room (c : Cpu) (taken : List Cpu) : Prop :=
  (∀ c' ∈ taken, ((taken.getLastD c).sp - frame c').toNat ≤
    ((taken.getLastD c).sp - c.sp).toNat) ∧
  ((taken.getLastD c).sp - c.sp).toNat + 272 < 2 ^ 64

/-- An interrupt is taken; the code between does anything but write to a live frame; or the
innermost handler, with its stack pointer restored, returns. -/
inductive IrqStep : Nest → Nest → Prop
  | take (vector pstate : U64) : Room c taken →
      IrqStep ⟨c, taken⟩ ⟨el1IrqEntry vector pstate c, c :: taken⟩
  | handler : (∀ c₀ ∈ taken, ∀ a, Within (frame c₀) 272 a → c'.mem a = c.mem a) →
      IrqStep ⟨c, taken⟩ ⟨c', taken⟩
  | exit : c.sp = frame c₀ → IrqStep ⟨c, c₀ :: taken⟩ ⟨el1IrqExit c, taken⟩

inductive IrqRun : Nest → Prop
  | start (c : Cpu) : IrqRun ⟨c, []⟩
  | step : IrqRun n → IrqStep n n' → IrqRun n'

section Frames

variable {c c₀ : Cpu} {taken : List Cpu}

theorem el1IrqEntry_mem (vector pstate : U64) (c : Cpu) :
    (el1IrqEntry vector pstate c).mem = c.mem.storeWords (frame c) (ptRegs c) := by
  have hsp : c.sp - stackFrameSize + stackFrameSize = c.sp := BitVec.sub_add_cancel ..
  simp [el1IrqEntry, trapEntry, frame, ptRegs, Memory.storeWords, BitVec.add_assoc,
    hsp, sLr, sPc]

theorem el1IrqEntry_sp (vector pstate : U64) (c : Cpu) :
    (el1IrqEntry vector pstate c).sp = frame c := by
  simp [el1IrqEntry, trapEntry, frame]

theorem el1IrqExit_x (c : Cpu) : List.ofFn (el1IrqExit c).x = c.mem.loadWords c.sp 31 := by
  simp [List.ofFn_succ, el1IrqExit, Cpu.eret, trapExit, sLr, sPc, Memory.loadWords,
    BitVec.add_assoc]

theorem el1IrqExit_sp (c : Cpu) : (el1IrqExit c).sp = c.sp + stackFrameSize := by
  simp [el1IrqExit, Cpu.eret, trapExit]

theorem el1IrqExit_state (c : Cpu) : (el1IrqExit c).pc = c.mem.load64 (c.sp + sPc) ∧
    (el1IrqExit c).pstate = c.mem.load64 (c.sp + sPc + 8) := by
  have helr : (c.run trapExit).getSys .elrEl1 = c.mem.load64 (c.sp + sPc) := by
    simp [trapExit, sPc, Cpu.setSys_getSys_of_ne]
  have hspsr : (c.run trapExit).getSys .spsrEl1 = c.mem.load64 (c.sp + sPc + 8) := by
    simp [trapExit, sPc]
  exact ⟨helr, hspsr⟩

theorem el1IrqExit_restores (h : c.sp = frame c₀)
    (hframe : c.mem.loadWords (frame c₀) 34 = ptRegs c₀) :
    (el1IrqExit c).x = c₀.x ∧ (el1IrqExit c).sp = c₀.sp ∧ (el1IrqExit c).pc = c₀.pc ∧
      (el1IrqExit c).pstate = c₀.pstate := by
  have hsplit := c.mem.loadWords_add c.sp 31 3
  rw [h, hframe, ptRegs] at hsplit
  have hlength : (List.ofFn c₀.x).length = (c.mem.loadWords (frame c₀) 31).length := by
    rw [Memory.length_loadWords, List.length_ofFn]
  obtain ⟨hregs, hstate⟩ := List.append_inj hsplit hlength
  simp only [Memory.loadWords, List.cons.injEq, and_true] at hstate
  refine ⟨List.ofFn_injective ?_, ?_, ?_, ?_⟩
  · rw [el1IrqExit_x, h, hregs]
  · rw [el1IrqExit_sp, h]
    exact BitVec.sub_add_cancel ..
  · rw [(el1IrqExit_state c).1, h, hstate.2.1, BitVec.add_assoc]
    rfl
  · rw [(el1IrqExit_state c).2, h, hstate.2.2, BitVec.add_assoc, BitVec.add_assoc,
      BitVec.add_assoc]
    rfl

end Frames

/-- The live frames lie one below the other and hold what was interrupted. -/
structure Nest.Framed (n : Nest) : Prop where
  saved : ∀ c ∈ n.taken, n.cpu.mem.loadWords (frame c) 34 = ptRegs c
  apart : n.taken.Pairwise fun inner outer => Apart (frame inner) 272 (frame outer) 272
  extent : ∀ c ∈ n.taken, 272 ≤ ((n.taken.getLastD n.cpu).sp - frame c).toNat

namespace Nest.Framed

variable {c : Cpu} {taken : List Cpu}

theorem frame_depth (top : U64) (c : Cpu) (h : (top - c.sp).toNat + 272 < 2 ^ 64) :
    (top - frame c).toNat = (top - c.sp).toNat + 272 := by
  have hsplit : top - frame c = (top - c.sp) + 272 := by
    unfold frame stackFrameSize
    apply BitVec.eq_of_toNat_eq
    simp only [BitVec.toNat_add, BitVec.toNat_sub]
    omega
  rw [hsplit, BitVec.toNat_add, Nat.mod_eq_of_lt]
  · rfl
  · exact h

theorem take (h : Framed ⟨c, taken⟩) (hroom : Room c taken) (vector pstate : U64) :
    Framed ⟨el1IrqEntry vector pstate c, c :: taken⟩ := by
  have hdepth := frame_depth _ c hroom.2
  have hlength : (ptRegs c).length = 34 := by simp [ptRegs]
  have hapart : ∀ c₀ ∈ taken, Apart (frame c) 272 (frame c₀) 272 := by
    intro c₀ hc₀
    have hbelow := hroom.1 c₀ hc₀
    have hextent : 272 ≤ ((taken.getLastD c).sp - frame c₀).toNat := h.extent c₀ hc₀
    exact (Apart.of_below (by omega) hextent).symm
  have hlast : (c :: taken).getLastD (el1IrqEntry vector pstate c) = taken.getLastD c := by
    cases taken <;> rfl
  refine ⟨?_, List.pairwise_cons.mpr ⟨hapart, h.apart⟩, ?_⟩
  · intro c₀ hc₀
    rw [show (Nest.mk (el1IrqEntry vector pstate c) (c :: taken)).cpu.mem =
      c.mem.storeWords (frame c) (ptRegs c) from el1IrqEntry_mem vector pstate c]
    rcases List.mem_cons.mp hc₀ with rfl | hold
    · rw [← hlength]
      exact Memory.loadWords_storeWords (by rw [hlength]; decide)
    · rw [Memory.loadWords_storeWords_of_apart (by rw [hlength]; decide) (by decide)
        (by rw [hlength]; exact hapart c₀ hold)]
      exact h.saved c₀ hold
  · intro c₀ hc₀
    simp only [hlast]
    rcases List.mem_cons.mp hc₀ with rfl | hold
    · omega
    · exact h.extent c₀ hold

theorem handler (h : Framed ⟨c, taken⟩)
    (hkept : ∀ c₀ ∈ taken, ∀ a, Within (frame c₀) 272 a → c'.mem a = c.mem a) :
    Framed ⟨c', taken⟩ := by
  refine ⟨fun c₀ hc₀ => ?_, h.apart, fun c₀ hc₀ => ?_⟩
  · rw [← h.saved c₀ hc₀]
    exact Memory.loadWords_congr (by decide) (hkept c₀ hc₀)
  · have hextent := h.extent c₀ hc₀
    cases taken with
    | nil => simp at hc₀
    | cons => exact hextent

theorem exit (h : Framed ⟨c, c₀ :: taken⟩) : Framed ⟨el1IrqExit c, taken⟩ := by
  have hmem : (el1IrqExit c).mem = c.mem := by simp [el1IrqExit, Cpu.eret, trapExit]
  refine ⟨fun c' hc' => ?_, (List.pairwise_cons.mp h.apart).2, fun c' hc' => ?_⟩
  · rw [hmem]
    exact h.saved c' (List.mem_cons_of_mem _ hc')
  · have hextent := h.extent c' (List.mem_cons_of_mem _ hc')
    cases taken with
    | nil => simp at hc'
    | cons => exact hextent

theorem step {n n' : Nest} (h : n.Framed) (hstep : IrqStep n n') : n'.Framed := by
  cases hstep with
  | take vector pstate hroom => exact h.take hroom vector pstate
  | handler hkept => exact h.handler hkept
  | exit => exact h.exit

end Nest.Framed

theorem IrqRun.framed {n : Nest} (h : IrqRun n) : n.Framed := by
  induction h with
  | start => exact ⟨by simp, .nil, by simp⟩
  | step _ hstep ih => exact ih.step hstep

/-- However interrupts have been nested: the live frames are apart from each other, the next
`trap_entry` writes one frame and nothing else, and a handler that returns leaves everything
as it was when its interrupt was taken. -/
theorem irqRun_restores {n : Nest} (h : IrqRun n) :
    n.taken.Pairwise (fun inner outer =>
      Apart (frame inner) stackFrameSize.toNat (frame outer) stackFrameSize.toNat) ∧
    (∀ vector pstate a, ¬ Within (frame n.cpu) stackFrameSize.toNat a →
      (el1IrqEntry vector pstate n.cpu).mem a = n.cpu.mem a) ∧
    ∀ c taken, n.taken = c :: taken → n.cpu.sp = frame c →
      (el1IrqExit n.cpu).x = c.x ∧ (el1IrqExit n.cpu).sp = c.sp ∧
        (el1IrqExit n.cpu).pc = c.pc ∧ (el1IrqExit n.cpu).pstate = c.pstate := by
  have hframed := h.framed
  refine ⟨hframed.apart, fun vector pstate a ha => ?_, fun c taken htaken hsp => ?_⟩
  · have hlength : 8 * (ptRegs n.cpu).length = 272 := by simp [ptRegs]
    rw [el1IrqEntry_mem]
    refine Memory.storeWords_of_not_within (by rw [hlength]; decide) ?_
    rw [hlength]
    exact ha
  · exact el1IrqExit_restores hsp (hframed.saved c (by simp [htaken]))

/-- An interrupt in the handler of another one. -/
theorem irqRun_nested (vector pstate : U64) (c : Cpu) :
    IrqRun ⟨el1IrqEntry vector pstate (el1IrqEntry vector pstate c),
      [el1IrqEntry vector pstate c, c]⟩ := by
  have hfirst : Room c [] := by simp [Room]
  have hdepth : (c.sp - frame c).toNat = 272 := by
    rw [Nest.Framed.frame_depth c.sp c (by simp)]
    simp
  have hsecond : Room (el1IrqEntry vector pstate c) [c] := by
    unfold Room
    rw [el1IrqEntry_sp]
    refine ⟨fun c' hc' => ?_, ?_⟩
    · rw [List.mem_singleton.mp hc']
    · change (c.sp - frame c).toNat + 272 < 2 ^ 64
      omega
  exact ((IrqRun.start c).step (.take vector pstate hfirst)).step
    (.take vector pstate hsecond)

theorem irqRun_restores_nested :
    (el1IrqExit (el1IrqEntry 0x280 0x3c5 (el1IrqEntry 0x280 0x3c5 kernelCpu))).x =
        (el1IrqEntry 0x280 0x3c5 kernelCpu).x ∧
      Apart (frame (el1IrqEntry 0x280 0x3c5 kernelCpu)) stackFrameSize.toNat
        (frame kernelCpu)
        stackFrameSize.toNat := by
  obtain ⟨hapart, _, hrestores⟩ := irqRun_restores (irqRun_nested 0x280 0x3c5 kernelCpu)
  refine ⟨(hrestores _ _ rfl (el1IrqEntry_sp ..)).1, ?_⟩
  exact (List.pairwise_cons.mp hapart).1 kernelCpu (by simp)

end YiOS
