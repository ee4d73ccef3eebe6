import Mathlib.Data.List.Induction
import YiOS.Sched.Simple

namespace YiOS

open YiOS.Library

/-! What `pick_next_task_simple` chooses. -/

/-- `p` has the largest weight, and of those with the same weight it comes first. -/
def Best (weight : TaskPtr → Int) (queue : List TaskPtr) (p : TaskPtr) : Prop :=
  ∃ l r, queue = l ++ p :: r ∧ (∀ q ∈ l, weight q < weight p) ∧
    ∀ q ∈ r, weight q ≤ weight p

namespace Best

theorem mem (h : Best weight queue p) : p ∈ queue := by
  obtain ⟨l, r, rfl, _, _⟩ := h
  simp

theorem le (h : Best weight queue p) : ∀ q ∈ queue, weight q ≤ weight p := by
  obtain ⟨l, r, rfl, hleft, hright⟩ := h
  intro q hq
  rcases List.mem_append.mp hq with hq | hq
  · exact (hleft q hq).le
  · rcases List.mem_cons.mp hq with rfl | hq
    · exact le_rfl
    · exact hright q hq

theorem snoc (h : Best weight queue p) (hq : weight q ≤ weight p) :
    Best weight (queue ++ [q]) p := by
  obtain ⟨l, r, rfl, hleft, hright⟩ := h
  refine ⟨l, r ++ [q], by simp, hleft, ?_⟩
  intro t ht
  rcases List.mem_append.mp ht with ht | ht
  · exact hright t ht
  · exact List.mem_singleton.mp ht ▸ hq

theorem last (h : ∀ t ∈ queue, weight t < weight q) :
    Best weight (queue ++ [q]) q :=
  ⟨queue, [], rfl, h, by simp⟩

theorem congr (h : Best weight queue p) (hsame : ∀ q ∈ queue, weight' q = weight q) :
    Best weight' queue p := by
  have hp := hsame p h.mem
  obtain ⟨l, r, rfl, hleft, hright⟩ := h
  refine ⟨l, r, rfl, fun q hq => ?_, fun q hq => ?_⟩
  · rw [hp, hsame q (by simp [hq])]
    exact hleft q hq
  · rw [hp, hsame q (by simp [hq])]
    exact hright q hq

end Best

namespace Sched

/-- The scan keeps its start when nothing beats it, and else ends at the best. -/
theorem foldl_consider (s : Sched) (start : Pick) (queue : List TaskPtr) :
    (∀ q ∈ queue, s.goodness q ≤ start.c) ∧
        queue.foldl (fun pick p => pick.consider s p) start = start ∨
      ∃ p, Best s.goodness queue p ∧ start.c < s.goodness p ∧
        queue.foldl (fun pick p => pick.consider s p) start =
          ⟨s.goodness p, some p⟩ := by
  induction queue using List.reverseRecOn with
  | nil => exact .inl ⟨by simp, rfl⟩
  | append_singleton queue q ih =>
      rw [List.foldl_append, List.foldl_cons, List.foldl_nil]
      rcases ih with ⟨hle, hfold⟩ | ⟨p, hbest, hlt, hfold⟩
      · rw [hfold]
        by_cases hq : s.goodness q > start.c
        · refine .inr ⟨q, .last fun t ht => ?_, hq, by simp only [Pick.consider, if_pos hq]⟩
          exact (hle t ht).trans_lt hq
        · refine .inl ⟨?_, by simp only [Pick.consider, if_neg hq]⟩
          simp only [List.mem_append, List.mem_singleton]
          rintro t (ht | rfl)
          · exact hle t ht
          · exact not_lt.mp hq
      · rw [hfold]
        by_cases hq : s.goodness q > s.goodness p
        · refine .inr ⟨q, .last fun t ht => ?_, hlt.trans hq,
            by simp only [Pick.consider, if_pos hq]⟩
          exact (hbest.le t ht).trans_lt hq
        · exact .inr ⟨p, hbest.snoc (not_lt.mp hq), hlt,
            by simp only [Pick.consider, if_neg hq]⟩

theorem scanQueue_eq {s : Sched} {queue : List TaskPtr}
    (hqueue : Cycle s.list .rqHead (queue.map .runList)) (hfuel : queue.length < fuel)
    (start : Pick) :
    s.scanQueue fuel start =
      some (queue.foldl (fun pick p => pick.consider s p) start) := by
  have hfold : queue.foldl (fun pick p => pick.consider s p) start =
      (queue.map ListPtr.runList).foldl (fun pick tmp =>
        ((listEntry tmp).map fun p => pick.consider s p).getD pick) start := by
    rw [List.foldl_map]
    rfl
  rw [hfold, scanQueue]
  refine forEach_segment (fun _ => s.list)
    (fun tmp (pick : Pick) => ((listEntry tmp).map fun p => pick.consider s p).getD pick)
    hqueue.segment hqueue.head_notMem ?_ rfl (by simpa using hfuel)
  intro tmp htmp pick _
  obtain ⟨p, _, rfl⟩ := List.mem_map.mp htmp
  exact ⟨rfl, rfl⟩

/-- New counts for every task. -/
def recount (s : Sched) (counts : TaskPtr → Int) : Sched :=
  { s with task := fun t => { s.task t with count := counts t } }

theorem recount_count (s : Sched) : s.recount (fun t => (s.task t).count) = s := rfl

/-- The counts after `reset_score`: full for the ring, kept for `init_task`. -/
def resetCounts (s : Sched) (ring : List TaskPtr) (t : TaskPtr) : Int :=
  if t ∈ ring then Int.bmod (defCounter + (s.task t).priority) (2 ^ 32)
  else (s.task t).count

theorem resetCounts_of_mem {s : Sched} {ring : List TaskPtr} (hp : p ∈ ring)
    (hlow : 0 ≤ (s.task p).priority) (hhigh : defCounter + (s.task p).priority < 2 ^ 31) :
    s.resetCounts ring p = defCounter + (s.task p).priority := by
  rw [resetCounts, if_pos hp]
  simp only [defCounter] at hhigh ⊢
  exact Int.bmod_eq_of_le (by omega) (by omega)

theorem foldl_resetOne (s : Sched) (ring : List TaskPtr) :
    ring.foldl (fun s p => resetOne p s) s = s.recount (s.resetCounts ring) := by
  induction ring using List.reverseRecOn with
  | nil => exact (recount_count s).symm
  | append_singleton ring p ih =>
      rw [List.foldl_append, ih]
      simp only [List.foldl_cons, List.foldl_nil, resetOne, modify, recount]
      congr 1
      funext t
      by_cases ht : t = p
      · subst ht
        simp [resetCounts]
      · simp [resetCounts, ht]

theorem resetScore_eq {s : Sched} {ring : List TaskPtr}
    (hring : Cycle s.links .initTask ring) (hfuel : ring.length < fuel) :
    s.resetScore fuel = some (s.recount (s.resetCounts ring)) := by
  rw [← foldl_resetOne]
  exact forEach_segment links resetOne hring.segment hring.head_notMem
    (fun p _ s hlinks => ⟨rfl, hlinks⟩) rfl hfuel

theorem goodness_eq {s : Sched} (h : 0 ≤ (s.task p).count)
    (hlt : (s.task p).count < 2 ^ 31) : s.goodness p = (s.task p).count :=
  Int.bmod_eq_of_le (by omega) (by omega)

/-- With nothing queued `next` is never assigned. -/
theorem pickNextTaskSimple_nil {s : Sched} (hqueue : Cycle s.list .rqHead [])
    (next : Option TaskPtr) (fuel : Nat) :
    pickNextTaskSimple (fuel + 2) next s = some (next, s) := by
  have hscan : s.scanQueue (fuel + 1) ⟨-1000, next⟩ = some ⟨-1000, next⟩ :=
    scanQueue_eq (s := s) (show Cycle s.list .rqHead (([] : List TaskPtr).map .runList)
      from hqueue) (Nat.succ_pos fuel) _
  rw [pickNextTaskSimple, hscan]
  rfl

/-- One round over a queue of sane counts. -/
theorem scanQueue_best {s : Sched} {queue : List TaskPtr}
    (hqueue : Cycle s.list .rqHead (queue.map .runList)) (hne : queue ≠ [])
    (hcounts : ∀ p ∈ queue, 0 ≤ (s.task p).count ∧ (s.task p).count < 2 ^ 31)
    (next : Option TaskPtr) (fuel : Nat) (hfuel : queue.length < fuel) :
    ∃ p, Best (fun t => (s.task t).count) queue p ∧
      s.scanQueue fuel ⟨-1000, next⟩ = some ⟨(s.task p).count, some p⟩ := by
  have hgoodness : ∀ p ∈ queue, s.goodness p = (s.task p).count := fun p hp =>
    goodness_eq (hcounts p hp).1 (hcounts p hp).2
  rw [scanQueue_eq hqueue hfuel]
  rcases foldl_consider s ⟨-1000, next⟩ queue with ⟨hle, _⟩ | ⟨p, hbest, _, hfold⟩
  · obtain ⟨q, hq⟩ := List.exists_mem_of_ne_nil queue hne
    have hlow := hle q hq
    have hcount := (hcounts q hq).1
    rw [hgoodness q hq] at hlow
    simp only at hlow
    omega
  · refine ⟨p, hbest.congr fun q hq => (hgoodness q hq).symm, ?_⟩
    rw [hfold, hgoodness p hbest.mem]

/-- With something queued the loop ends, after one reset at most, and `next` is the
best of the queue. -/
theorem pickNextTaskSimple_best {s : Sched} {queue ring : List TaskPtr}
    (hqueue : Cycle s.list .rqHead (queue.map .runList))
    (hring : Cycle s.links .initTask ring) (hsub : ∀ p ∈ queue, p ∈ ring)
    (hne : queue ≠ [])
    (hcounts : ∀ p ∈ queue, 0 ≤ (s.task p).count ∧ (s.task p).count < 2 ^ 31)
    (hpriority : ∀ p ∈ queue, 0 ≤ (s.task p).priority ∧
      defCounter + (s.task p).priority < 2 ^ 31)
    (next : Option TaskPtr) (fuel : Nat) (hfuel : ring.length < fuel)
    (hfuelQueue : queue.length < fuel) :
    ∃ p counts, pickNextTaskSimple (fuel + 2) next s = some (some p, s.recount counts) ∧
      Best counts queue p ∧ 0 < counts p ∧
      ((counts = fun t => (s.task t).count) ∨
        (∀ q ∈ queue, (s.task q).count = 0) ∧ counts = s.resetCounts ring) := by
  obtain ⟨p, hbest, hscan⟩ :=
    scanQueue_best hqueue hne hcounts next (fuel + 1) (by omega)
  rw [pickNextTaskSimple, hscan, Option.bind_some]
  by_cases hzero : (s.task p).count = 0
  · have hall : ∀ q ∈ queue, (s.task q).count = 0 := by
      intro q hq
      have hle : (s.task q).count ≤ (s.task p).count := hbest.le q hq
      have hcount := (hcounts q hq).1
      omega
    have hfull : ∀ q ∈ queue, 0 < s.resetCounts ring q ∧
        s.resetCounts ring q < 2 ^ 31 := by
      intro q hq
      obtain ⟨hlow, hhigh⟩ := hpriority q hq
      rw [resetCounts_of_mem (hsub q hq) hlow hhigh]
      simp only [defCounter] at hhigh ⊢
      omega
    obtain ⟨p', hbest', hscan'⟩ := scanQueue_best (s := s.recount (s.resetCounts ring))
      hqueue hne (fun q hq => ⟨(hfull q hq).1.le, (hfull q hq).2⟩) (some p) fuel hfuelQueue
    have hpos : 0 < s.resetCounts ring p' := (hfull p' hbest'.mem).1
    have hnonzero : ¬ ((s.recount (s.resetCounts ring)).task p').count = 0 := hpos.ne'
    rw [if_pos hzero, resetScore_eq hring (by omega), Option.bind_some,
      pickNextTaskSimple, hscan', Option.bind_some,
      if_neg hnonzero]
    exact ⟨p', _, rfl, hbest', hpos, .inr ⟨hall, rfl⟩⟩
  · rw [if_neg hzero]
    have hcount := (hcounts p hbest.mem).1
    exact ⟨p, _, rfl, hbest, lt_of_le_of_ne hcount (Ne.symm hzero), .inl rfl⟩

/-- More fuel does not change what is picked. -/
theorem pickNextTaskSimple_mono :
    ∀ {fuel fuel' next s result}, pickNextTaskSimple fuel next s = some result →
      fuel ≤ fuel' → pickNextTaskSimple fuel' next s = some result := by
  intro fuel
  induction fuel with
  | zero => intro _ _ _ _ h; simp [pickNextTaskSimple] at h
  | succ fuel ih =>
      intro fuel' next s result h hle
      obtain ⟨fuel', rfl⟩ : ∃ n, fuel' = n + 1 := ⟨fuel' - 1, by omega⟩
      have hfuel : fuel ≤ fuel' := by omega
      simp only [pickNextTaskSimple, Option.bind_eq_some_iff] at h ⊢
      obtain ⟨pick, hscan, hrest⟩ := h
      refine ⟨pick, forEach_mono hscan hfuel, ?_⟩
      split
      · next hzero =>
        rw [if_pos hzero, Option.bind_eq_some_iff] at hrest
        obtain ⟨full, hreset, hagain⟩ := hrest
        rw [Option.bind_eq_some_iff]
        exact ⟨full, forEach_mono hreset hfuel, ih hagain hfuel⟩
      · next hzero => rwa [if_neg hzero] at hrest

end Sched

end YiOS
