import Mathlib.Data.List.Nodup
import Mathlib.Data.Set.Defs
import Mathlib.Logic.Function.Basic

namespace YiOS.Library

/-! Circular doubly linked lists threaded through a heap of nodes. -/

structure Node (ν : Type*) where
  next : ν
  prev : ν

abbrev Heap (ν : Type*) := ν → Node ν

namespace Heap

variable {ν : Type*}

def swap (heap : Heap ν) : Heap ν := fun x => ⟨(heap x).prev, (heap x).next⟩

@[simp] theorem swap_next (heap : Heap ν) (x : ν) :
    (heap.swap x).next = (heap x).prev := rfl

@[simp] theorem swap_prev (heap : Heap ν) (x : ν) :
    (heap.swap x).prev = (heap x).next := rfl

section Stores

variable [DecidableEq ν]

def setNext (heap : Heap ν) (x target : ν) : Heap ν :=
  Function.update heap x ⟨target, (heap x).prev⟩

def setPrev (heap : Heap ν) (x target : ν) : Heap ν :=
  Function.update heap x ⟨(heap x).next, target⟩

theorem setNext_next (heap : Heap ν) (x target y : ν) :
    (heap.setNext x target y).next = if y = x then target else (heap y).next := by
  unfold setNext
  by_cases h : y = x <;> simp [h]

@[simp] theorem setNext_prev (heap : Heap ν) (x target y : ν) :
    (heap.setNext x target y).prev = (heap y).prev := by
  unfold setNext
  by_cases h : y = x <;> simp [h]

@[simp] theorem setPrev_next (heap : Heap ν) (x target y : ν) :
    (heap.setPrev x target y).next = (heap y).next := by
  unfold setPrev
  by_cases h : y = x <;> simp [h]

theorem setPrev_prev (heap : Heap ν) (x target y : ν) :
    (heap.setPrev x target y).prev = if y = x then target else (heap y).prev := by
  unfold setPrev
  by_cases h : y = x <;> simp [h]

end Stores

end Heap

section Segments

variable {ν : Type*} {heap heap' : Heap ν}

def Linked (heap : Heap ν) (a b : ν) : Prop :=
  (heap a).next = b ∧ (heap b).prev = a

/-- The nodes strictly between `a` and `b`, linked both ways. -/
def Segment (heap : Heap ν) (a : ν) : List ν → ν → Prop
  | [], b => Linked heap a b
  | x :: xs, b => Linked heap a x ∧ Segment heap x xs b

instance Linked.decidable [DecidableEq ν] (a b : ν) : Decidable (Linked heap a b) :=
  inferInstanceAs (Decidable (_ ∧ _))

instance Segment.decidable [DecidableEq ν] (a : ν) :
    (xs : List ν) → (b : ν) → Decidable (Segment heap a xs b)
  | [], b => inferInstanceAs (Decidable (Linked heap a b))
  | x :: xs, b =>
      have := Segment.decidable x xs b
      inferInstanceAs (Decidable (Linked heap a x ∧ Segment heap x xs b))

theorem Linked.swap (h : Linked heap a b) : Linked heap.swap b a := ⟨h.2, h.1⟩

namespace Segment

theorem append {l : List ν} : Segment heap a (l ++ x :: r) b ↔
    Segment heap a l x ∧ Segment heap x r b := by
  induction l generalizing a with
  | nil => rfl
  | cons y l ih => simp only [List.cons_append, Segment, ih, and_assoc]

theorem swap {xs : List ν} (h : Segment heap a xs b) :
    Segment heap.swap b xs.reverse a := by
  induction xs generalizing a with
  | nil => exact Linked.swap h
  | cons x xs ih =>
      rw [List.reverse_cons, append]
      exact ⟨ih h.2, Linked.swap h.1⟩

theorem next_mem {xs : List ν} (h : Segment heap a xs b) :
    (heap a).next ∈ xs ++ [b] := by
  cases xs with
  | nil => simpa using h.1
  | cons x xs => simp [h.1.1]

theorem prev_mem {xs : List ν} (h : Segment heap a xs b) :
    (heap b).prev ∈ a :: xs := by
  have hnext := next_mem (swap h)
  simp only [Heap.swap_next, List.mem_append, List.mem_reverse,
    List.mem_singleton] at hnext
  exact List.mem_cons.mpr hnext.symm

theorem next_mem_of_mem {xs : List ν} (h : Segment heap a xs b) (hx : x ∈ xs) :
    (heap x).next ∈ xs ++ [b] := by
  obtain ⟨l, r, rfl⟩ := List.append_of_mem hx
  have hnext := (append.mp h).2.next_mem
  simp only [List.append_assoc, List.cons_append, List.mem_append, List.mem_cons] at hnext ⊢
  tauto

theorem linked_next {xs : List ν} (h : Segment heap a xs b) (hc : c ∈ a :: xs) :
    Linked heap c (heap c).next := by
  induction xs generalizing a with
  | nil =>
      obtain rfl := List.mem_singleton.mp hc
      rw [h.1]
      exact h
  | cons x xs ih =>
      rcases List.mem_cons.mp hc with rfl | hc
      · rw [h.1.1]
        exact h.1
      · exact ih h.2 hc

/-- A segment only reads the forward links of the nodes it leaves and the
backward links of the nodes it enters. -/
theorem frame {xs : List ν} (h : Segment heap a xs b)
    (hnext : ∀ c ∈ a :: xs, (heap' c).next = (heap c).next)
    (hprev : ∀ d ∈ xs ++ [b], (heap' d).prev = (heap d).prev) :
    Segment heap' a xs b := by
  induction xs generalizing a with
  | nil =>
      exact ⟨(hnext a (by simp)).trans h.1, (hprev b (by simp)).trans h.2⟩
  | cons x xs ih =>
      refine ⟨⟨(hnext a (by simp)).trans h.1.1, (hprev x (by simp)).trans h.1.2⟩, ?_⟩
      refine ih h.2 (fun c hc => hnext c ?_) (fun d hd => hprev d ?_)
      · exact List.mem_cons_of_mem a hc
      · exact List.mem_cons_of_mem x hd

end Segment

/-- `heap'` is `heap` with `x` spliced in between `a` and `b`. -/
structure Inserted (heap heap' : Heap ν) (x a b : ν) : Prop where
  before : Linked heap' a x
  after : Linked heap' x b
  next : ∀ c, c ≠ a → c ≠ x → (heap' c).next = (heap c).next
  prev : ∀ d, d ≠ b → d ≠ x → (heap' d).prev = (heap d).prev

/-- `heap'` is `heap` with the neighbours `a` and `b` of `x` joined.  The links
of `x` itself are anything. -/
structure Removed (heap heap' : Heap ν) (x a b : ν) : Prop where
  joined : Linked heap' a b
  next : ∀ c, c ≠ a → c ≠ x → (heap' c).next = (heap c).next
  prev : ∀ d, d ≠ b → d ≠ x → (heap' d).prev = (heap d).prev

theorem Inserted.swap (h : Inserted heap heap' x a b) :
    Inserted heap.swap heap'.swap x b a where
  before := h.after.swap
  after := h.before.swap
  next := h.prev
  prev := h.next

/-- What is left of a segment when `x` has been taken out of it. -/
theorem Segment.remove {l r : List ν} (hleft : Segment heap u l x)
    (hright : Segment heap x r v)
    (hremoved : Removed heap heap' x (heap x).prev (heap x).next)
    (hstarts : (u :: (l ++ x :: r)).Nodup) (hends : (l ++ x :: r ++ [v]).Nodup) :
    Segment heap' u (l ++ r) v := by
  induction l generalizing u with
  | nil =>
      have hprev : (heap x).prev = u := hleft.2
      rw [hprev] at hremoved
      cases r with
      | nil =>
          have hnext : (heap x).next = v := hright.1
          exact hnext ▸ hremoved.joined
      | cons y ys =>
          have hnext : (heap x).next = y := hright.1.1
          rw [hnext] at hremoved
          refine ⟨hremoved.joined, hright.2.frame ?_ ?_⟩
          · intro c hc
            apply hremoved.next
            · rintro rfl
              simp_all
            · rintro rfl
              simp_all
          · intro d hd
            apply hremoved.prev
            · rintro rfl
              simp_all
            · rintro rfl
              simp_all
  | cons w l ih =>
      have hlast := prev_mem hleft.2
      have hfirst := next_mem hright
      have hu : u ≠ (heap x).prev ∧ u ≠ x := by
        constructor
        · rintro heq
          rw [← heq] at hlast
          simp_all
        · rintro rfl
          simp_all
      have hw : w ≠ (heap x).next ∧ w ≠ x := by
        constructor
        · rintro heq
          rw [← heq] at hfirst
          simp_all
        · rintro rfl
          simp_all
      refine ⟨⟨?_, ?_⟩, ih hleft.2 (List.nodup_cons.mp hstarts).2
        (List.nodup_cons.mp hends).2⟩
      · exact (hremoved.next u hu.1 hu.2).trans hleft.1.1
      · exact (hremoved.prev w hw.1 hw.2).trans hleft.1.2

end Segments

/-- A circular list: the head, then `xs` in forward order, then the head. -/
structure Cycle {ν : Type*} (heap : Heap ν) (head : ν) (xs : List ν) : Prop where
  segment : Segment heap head xs head
  nodup : (head :: xs).Nodup

namespace Cycle

variable {ν : Type*} {heap heap' : Heap ν} {head x : ν} {xs l r : List ν}

theorem head_notMem (h : Cycle heap head xs) : head ∉ xs :=
  (List.nodup_cons.mp h.nodup).1

theorem notMem_rest (h : Cycle heap head (l ++ x :: r)) : x ∉ l ++ r :=
  (List.nodup_cons.mp (List.nodup_middle.mp (List.nodup_cons.mp h.nodup).2)).1

theorem nodup_ends (h : Cycle heap head xs) : (xs ++ [head]).Nodup :=
  List.nodup_append_comm.mp h.nodup

theorem swap (h : Cycle heap head xs) : Cycle heap.swap head xs.reverse where
  segment := h.segment.swap
  nodup := by
    obtain ⟨hhead, hxs⟩ := List.nodup_cons.mp h.nodup
    exact List.nodup_cons.mpr
      ⟨by rwa [List.mem_reverse], List.nodup_reverse.mpr hxs⟩

theorem ne_next (h : Cycle heap head xs) (hx : x ∉ head :: xs) :
    x ≠ (heap head).next := by
  intro heq
  have hmem := h.segment.next_mem
  rw [← heq] at hmem
  exact hx (by simpa [or_comm] using hmem)

theorem ne_prev (h : Cycle heap head xs) (hx : x ∉ head :: xs) :
    x ≠ (heap head).prev :=
  h.swap.ne_next (by simpa using hx)

/-- Splicing in behind the head. -/
theorem pushFront (h : Cycle heap head xs) (hx : x ∉ head :: xs)
    (hinserted : Inserted heap heap' x head (heap head).next) :
    Cycle heap' head (x :: xs) where
  segment := by
    refine ⟨hinserted.before, ?_⟩
    have hends := h.nodup_ends
    have hhead := h.head_notMem
    have hsegment := h.segment
    cases xs with
    | nil =>
        have hnext : (heap head).next = head := hsegment.1
        exact hnext ▸ hinserted.after
    | cons y ys =>
        have hnext : (heap head).next = y := hsegment.1.1
        rw [hnext] at hinserted
        refine ⟨hinserted.after, hsegment.2.frame ?_ ?_⟩
        · intro c hc
          exact hinserted.next c (fun heq => hhead (heq ▸ hc))
            fun heq => hx (heq ▸ List.mem_cons_of_mem head hc)
        · intro d hd
          apply hinserted.prev
          · rintro rfl
            exact (List.nodup_cons.mp hends).1 hd
          · rintro rfl
            simp_all
  nodup := by
    obtain ⟨hhead, hxs⟩ := List.nodup_cons.mp h.nodup
    simp_all [eq_comm]

/-- Splicing in a node that is already there closes a loop behind the head. -/
theorem pushFront_again (h : Cycle heap head (l ++ x :: r))
    (hafter : (heap' x).next = (heap head).next)
    (hnext : ∀ c, c ≠ head → c ≠ x → (heap' c).next = (heap c).next) :
    ∀ c ∈ x :: l, (heap' c).next ∈ x :: l := by
  have hleft := (Segment.append.mp h.segment).1
  have hmem : ∀ c, c ∈ l ++ [x] → c ∈ x :: l := by simp [or_comm]
  have hhead := h.head_notMem
  have hx := h.notMem_rest
  intro c hc
  rcases List.mem_cons.mp hc with rfl | hc
  · rw [hafter]
    exact hmem _ hleft.next_mem
  · rw [hnext c (fun heq => hhead (by simp [← heq, hc])) fun heq => hx (by simp [← heq, hc])]
    exact hmem _ (hleft.next_mem_of_mem hc)

/-- Splicing in before the head. -/
theorem pushBack (h : Cycle heap head xs) (hx : x ∉ head :: xs)
    (hinserted : Inserted heap heap' x (heap head).prev head) :
    Cycle heap' head (xs ++ [x]) := by
  have hfront := h.swap.pushFront (x := x) (by simpa using hx) hinserted.swap
  have hback := hfront.swap
  rwa [List.reverse_cons, List.reverse_reverse] at hback

/-- A cycle only reads the links of its nodes. -/
theorem frame (h : Cycle heap head xs)
    (hnext : ∀ c ∈ head :: xs, (heap' c).next = (heap c).next)
    (hprev : ∀ c ∈ head :: xs, (heap' c).prev = (heap c).prev) : Cycle heap' head xs where
  segment := by
    refine h.segment.frame hnext fun d hd => hprev d ?_
    simpa [or_comm] using hd
  nodup := h.nodup

theorem neighbours_ne (h : Cycle heap head (l ++ x :: r)) :
    (heap x).prev ≠ x ∧ (heap x).next ≠ x := by
  have hsplit := Segment.append.mp h.segment
  have hx := h.notMem_rest
  have hhead : x ≠ head := fun heq => h.head_notMem (by simp [heq])
  constructor
  · intro heq
    have hmem := hsplit.1.prev_mem
    rw [heq] at hmem
    simp_all
  · intro heq
    have hmem := hsplit.2.next_mem
    rw [heq] at hmem
    simp_all

theorem remove (h : Cycle heap head (l ++ x :: r))
    (hremoved : Removed heap heap' x (heap x).prev (heap x).next) :
    Cycle heap' head (l ++ r) where
  segment :=
    have hsplit := Segment.append.mp h.segment
    hsplit.1.remove hsplit.2 hremoved h.nodup h.nodup_ends
  nodup := by
    refine h.nodup.sublist (List.Sublist.cons_cons head ?_)
    exact List.Sublist.append_left (List.sublist_cons_self x r) l

end Cycle

private theorem foldl_snoc {ν : Type*} (xs seen : List ν) :
    xs.foldl (fun seen x => seen ++ [x]) seen = seen ++ xs := by
  induction xs generalizing seen with
  | nil => simp
  | cons x xs ih => rw [List.foldl_cons, ih, List.append_assoc, List.singleton_append]

section Loops

variable {ν β : Type*} [DecidableEq ν] {heap : Heap ν}

/-- `for (x = from; x != stop; x = next(x)) body(x)`.  `none` is a loop that has
not left within `fuel` rounds, or a body that faults. -/
def forEach (next : β → ν → ν) (body : ν → β → Option β) (stop : ν) :
    Nat → ν → β → Option β
  | 0, _, _ => none
  | fuel + 1, x, b =>
      if x = stop then some b
      else (body x b).bind fun b => forEach next body stop fuel (next b x) b

/-- The nodes a loop along `next` meets before it is back at `stop`. -/
def trail (next : ν → ν) (stop : ν) (fuel : Nat) : Option (List ν) :=
  forEach (fun _ => next) (fun x seen => some (seen ++ [x])) stop fuel (next stop) []

/-- More fuel does not change the result of a loop that has left. -/
theorem forEach_mono {next : β → ν → ν} {body : ν → β → Option β} {stop : ν} :
    ∀ {fuel fuel' x b c}, forEach next body stop fuel x b = some c → fuel ≤ fuel' →
      forEach next body stop fuel' x b = some c := by
  intro fuel
  induction fuel with
  | zero => intro _ _ _ _ h; simp [forEach] at h
  | succ fuel ih =>
      intro fuel' x b c h hle
      obtain ⟨fuel', rfl⟩ : ∃ n, fuel' = n + 1 := ⟨fuel' - 1, by omega⟩
      simp only [forEach] at h ⊢
      split
      · next hstop => rwa [if_pos hstop] at h
      · next hstop =>
        rw [if_neg hstop, Option.bind_eq_some_iff] at h
        obtain ⟨middle, hbody, hrest⟩ := h
        rw [hbody, Option.bind_some]
        exact ih hrest (by omega)

/-- What holds at every node the loop comes to, and what its body keeps. -/
theorem forEach_inv {next : β → ν → ν} {body : ν → β → Option β} {stop : ν}
    (Node : ν → Prop) (Inv : β → Prop)
    (hbody : ∀ x b b', Node x → x ≠ stop → Inv b → body x b = some b' →
      Inv b' ∧ Node (next b' x)) :
    ∀ {fuel x b c}, Node x → Inv b → forEach next body stop fuel x b = some c → Inv c := by
  intro fuel
  induction fuel with
  | zero => intro _ _ _ _ _ h; simp [forEach] at h
  | succ fuel ih =>
      intro x b c hx hb h
      simp only [forEach] at h
      split at h
      · exact Option.some.inj h ▸ hb
      · next hstop =>
        obtain ⟨b', hrun, hrest⟩ := Option.bind_eq_some_iff.mp h
        obtain ⟨hb', hx'⟩ := hbody x b b' hx hstop hb hrun
        exact ih hx' hb' hrest

/-- A walk that has entered a closed set without the end never leaves. -/
theorem forEach_endless {next : ν → ν} {body : ν → β → Option β} {stop : ν} {S : Set ν}
    (hstop : stop ∉ S) (hclosed : ∀ x ∈ S, next x ∈ S) :
    ∀ {fuel x b}, x ∈ S → forEach (fun _ => next) body stop fuel x b = none := by
  intro fuel
  induction fuel with
  | zero => intro _ _ _; rfl
  | succ fuel ih =>
      intro x b hx
      have hne : x ≠ stop := fun heq => hstop (heq ▸ hx)
      rw [forEach, if_neg hne, Option.bind_eq_none_iff]
      exact fun _ _ => ih (hclosed x hx)

/-- Along a segment whose links the body keeps, the loop is a fold. -/
theorem forEach_segment (view : β → Heap ν) (run : ν → β → β)
    {body : ν → β → Option β} {stop : ν} {xs : List ν} (hsegment : Segment heap a xs stop)
    (hstop : stop ∉ xs)
    (hbody : ∀ x ∈ xs, ∀ b, view b = heap → body x b = some (run x b) ∧
      view (run x b) = heap) :
    ∀ {fuel b}, view b = heap → xs.length < fuel →
      forEach (fun b x => (view b x).next) body stop fuel (heap a).next b =
        some (xs.foldl (fun b x => run x b) b) := by
  induction xs generalizing a with
  | nil =>
      intro fuel b hview hfuel
      obtain ⟨fuel, rfl⟩ : ∃ n, fuel = n + 1 := ⟨fuel - 1, by simp at hfuel; omega⟩
      have hnext : (heap a).next = stop := hsegment.1
      simp only [forEach, hnext, if_pos, List.foldl_nil]
  | cons x xs ih =>
      intro fuel b hview hfuel
      obtain ⟨fuel, rfl⟩ : ∃ n, fuel = n + 1 :=
        ⟨fuel - 1, by simp at hfuel; omega⟩
      have hnext : (heap a).next = x := hsegment.1.1
      have hne : x ≠ stop := fun heq => hstop (by simp [heq])
      obtain ⟨hrun, hkept⟩ := hbody x List.mem_cons_self b hview
      rw [hnext]
      simp only [forEach, if_neg hne, hrun, Option.bind_some, List.foldl_cons, hkept]
      refine ih hsegment.2 (fun hmem => hstop (List.mem_cons_of_mem x hmem)) ?_ hkept ?_
      · intro y hy
        exact hbody y (List.mem_cons_of_mem x hy)
      · simp at hfuel
        omega

theorem Cycle.trail_next {head : ν} {xs : List ν} (h : Cycle heap head xs)
    (hfuel : xs.length < fuel) :
    trail (fun x => (heap x).next) head fuel = some xs := by
  have hloop := forEach_segment (fun _ => heap) (fun x seen => seen ++ [x]) h.segment
    h.head_notMem (fun x _ seen _ => ⟨rfl, rfl⟩) (b := []) rfl hfuel
  exact hloop.trans (congrArg some (foldl_snoc xs []))

/-- A walk only reads the links it follows. -/
theorem Cycle.trail_of_next {head : ν} {xs : List ν} {next : ν → ν} (h : Cycle heap head xs)
    (hnext : ∀ c ∈ head :: xs, next c = (heap c).next) (hfuel : xs.length < fuel) :
    trail next head fuel = some xs := by
  have hframe : Cycle (fun c => ⟨next c, (heap c).prev⟩) head xs :=
    h.frame hnext fun _ _ => rfl
  exact hframe.trail_next hfuel

theorem Cycle.trail_prev {head : ν} {xs : List ν} (h : Cycle heap head xs)
    (hfuel : xs.length < fuel) :
    trail (fun x => (heap x).prev) head fuel = some xs.reverse :=
  h.swap.trail_next (by simpa using hfuel)

end Loops

end YiOS.Library
