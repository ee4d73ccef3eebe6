import Mathlib.Data.BitVec

namespace YiOS.Library

/-! Byte memory with 64-bit addresses, which wrap, and little-endian 64-bit words. -/

abbrev Memory := BitVec 64 → BitVec 8

/-- The byte at `b` is one of the `n` bytes from `a` on. -/
def Within (a : BitVec 64) (n : Nat) (b : BitVec 64) : Prop := (b - a).toNat < n

instance : Decidable (Within a n b) := inferInstanceAs (Decidable ((b - a).toNat < n))

/-- No byte is in both regions. -/
def Apart (a : BitVec 64) (n : Nat) (a' : BitVec 64) (n' : Nat) : Prop :=
  ∀ b, Within a n b → ¬ Within a' n' b

theorem Within.sub {a offset : BitVec 64} (h : Within (a + offset) k b)
    (hle : offset.toNat + k ≤ n) (hn : n ≤ 2 ^ 64) : Within a n b := by
  unfold Within at h ⊢
  have hsplit : b - a = (b - (a + offset)) + offset := by
    apply BitVec.eq_of_toNat_eq
    simp only [BitVec.toNat_add, BitVec.toNat_sub]
    omega
  rw [hsplit, BitVec.toNat_add, Nat.mod_eq_of_lt (by omega)]
  omega

theorem Within.mono (h : Within a k b) (hle : k ≤ n) : Within a n b :=
  lt_of_lt_of_le h hle

namespace Apart

theorem symm (h : Apart a n a' n') : Apart a' n' a n :=
  fun b hb hb' => h b hb' hb

/-- Parts of two regions are apart when the regions are. -/
theorem sub (h : Apart a n a' n') {offset offset' : BitVec 64} (hle : offset.toNat + k ≤ n)
    (hn : n ≤ 2 ^ 64) (hle' : offset'.toNat + k' ≤ n') (hn' : n' ≤ 2 ^ 64) :
    Apart (a + offset) k (a' + offset') k' :=
  fun b hb hb' => h b (hb.sub hle hn) (hb'.sub hle' hn')

/-- Two parts of one region. -/
theorem offset (a : BitVec 64) {i j : BitVec 64}
    (h : i.toNat + n ≤ j.toNat ∧ j.toNat + k ≤ 2 ^ 64 ∨
      j.toNat + k ≤ i.toNat ∧ i.toNat + n ≤ 2 ^ 64) : Apart (a + i) n (a + j) k := by
  intro b hb hb'
  unfold Within at hb hb'
  rw [BitVec.toNat_sub, BitVec.toNat_add] at hb hb'
  omega

/-- Going down from `top`, the second region begins where the first one has ended. -/
theorem of_below {top a a' : BitVec 64} (h : (top - a).toNat + n' ≤ (top - a').toNat)
    (hn : n ≤ (top - a).toNat) : Apart a n a' n' := by
  intro b hb hb'
  unfold Within at hb hb'
  have hfirst : (b - a).toNat = ((top - a).toNat + (b - top).toNat) % 2 ^ 64 := by
    simp only [BitVec.toNat_sub]
    omega
  have hsecond : (b - a').toNat = ((top - a').toNat + (b - top).toNat) % 2 ^ 64 := by
    simp only [BitVec.toNat_sub]
    omega
  have hlt := (top - a').isLt
  have hlt' := (b - top).isLt
  omega

end Apart

namespace Memory

def load64 (m : Memory) (a : BitVec 64) : BitVec 64 :=
  m (a + 7) ++ m (a + 6) ++ m (a + 5) ++ m (a + 4) ++ m (a + 3) ++ m (a + 2) ++
    m (a + 1) ++ m a

def store64 (m : Memory) (a v : BitVec 64) : Memory := fun b =>
  if Within a 8 b then v.extractLsb' (8 * (b - a).toNat) 8 else m b

theorem store64_of_not_within (m : Memory) (v : BitVec 64) (h : ¬ Within a 8 b) :
    m.store64 a v b = m b := if_neg h

theorem within_add (a : BitVec 64) {i : BitVec 64} (hi : i.toNat < n) :
    Within a n (a + i) := by
  unfold Within
  rwa [BitVec.add_comm, BitVec.add_sub_cancel]

theorem load64_congr {m m' : Memory} (h : ∀ b, Within a 8 b → m' b = m b) :
    m'.load64 a = m.load64 a := by
  have hfirst : m' a = m a := h a (by simp [Within])
  have hrest : ∀ i : BitVec 64, i.toNat < 8 → m' (a + i) = m (a + i) := fun i hi =>
    h _ (within_add a hi)
  simp only [load64, hfirst, hrest 1 (by decide), hrest 2 (by decide), hrest 3 (by decide),
    hrest 4 (by decide), hrest 5 (by decide), hrest 6 (by decide), hrest 7 (by decide)]

theorem load64_store64_of_apart (m : Memory) (v : BitVec 64) (h : Apart a 8 a' 8) :
    (m.store64 a v).load64 a' = m.load64 a' :=
  load64_congr fun b hb => store64_of_not_within m v fun hb' => h b hb' hb

theorem store64_byte (m : Memory) (a v : BitVec 64) {i : BitVec 64} (hi : i.toNat < 8) :
    m.store64 a v (a + i) = v.extractLsb' (8 * i.toNat) 8 := by
  rw [store64, if_pos (within_add a hi), BitVec.add_comm a, BitVec.add_sub_cancel]

theorem load64_store64 (m : Memory) (a v : BitVec 64) : (m.store64 a v).load64 a = v := by
  have hfirst : m.store64 a v a = v.extractLsb' 0 8 := by
    simpa using store64_byte m a v (i := 0) (by decide)
  simp only [load64, hfirst, store64_byte m a v (i := 1) (by decide),
    store64_byte m a v (i := 2) (by decide), store64_byte m a v (i := 3) (by decide),
    store64_byte m a v (i := 4) (by decide), store64_byte m a v (i := 5) (by decide),
    store64_byte m a v (i := 6) (by decide), store64_byte m a v (i := 7) (by decide)]
  apply BitVec.eq_of_getLsbD_eq
  intro i hi
  simp only [BitVec.getLsbD_append, BitVec.getLsbD_extractLsb']
  grind

/-- A little-endian 32-bit word. -/
def load32 (m : Memory) (a : BitVec 64) : BitVec 32 :=
  m (a + 3) ++ m (a + 2) ++ m (a + 1) ++ m a

theorem toNat_append_byte (x : BitVec 24) (y : BitVec 8) :
    (x ++ y : BitVec 32).toNat = x.toNat * 256 + y.toNat := by
  rw [BitVec.toNat_append, ← Nat.shiftLeft_add_eq_or_of_lt y.isLt, Nat.shiftLeft_eq]

/-- With its low byte stored again a word is as wanted when the rest of it was. -/
theorem load32_low_byte {m m' : Memory} {v : BitVec 32} (hbyte : m' a = v.setWidth 8)
    (hrest : ∀ b, Within a 4 b → b ≠ a → m' b = m b) :
    m'.load32 a = v ↔ (m.load32 a).toNat / 2 ^ 8 = v.toNat / 2 ^ 8 := by
  have hkept : ∀ i : BitVec 64, i.toNat < 4 → i ≠ 0 → m' (a + i) = m (a + i) := by
    intro i hi hne
    refine hrest _ (within_add a hi) fun heq => hne ?_
    bv_omega
  have hword : m'.load32 a = (m (a + 3) ++ m (a + 2) ++ m (a + 1) : BitVec 24) ++
    v.setWidth 8 := by
    rw [load32, hbyte, hkept 1 (by decide) (by decide), hkept 2 (by decide) (by decide),
      hkept 3 (by decide) (by decide)]
  have hold : m.load32 a = (m (a + 3) ++ m (a + 2) ++ m (a + 1) : BitVec 24) ++ m a := rfl
  have hlow := (m a).isLt
  rw [hword, hold, ← BitVec.toNat_inj, toNat_append_byte, toNat_append_byte,
    BitVec.toNat_setWidth]
  omega

/-- Words in ascending order from `a` on. -/
def storeWords (m : Memory) (a : BitVec 64) : List (BitVec 64) → Memory
  | [] => m
  | v :: vs => (m.store64 a v).storeWords (a + 8) vs

def loadWords (m : Memory) (a : BitVec 64) : Nat → List (BitVec 64)
  | 0 => []
  | n + 1 => m.load64 a :: m.loadWords (a + 8) n

theorem storeWords_of_not_within {m : Memory} {vs : List (BitVec 64)}
    (hlength : 8 * vs.length ≤ 2 ^ 64) (h : ¬ Within a (8 * vs.length) b) :
    m.storeWords a vs b = m b := by
  induction vs generalizing m a with
  | nil => rfl
  | cons v vs ih =>
      rw [List.length_cons] at h hlength
      rw [storeWords, ih (by omega)]
      · exact store64_of_not_within m v fun hfirst => h (hfirst.mono (by omega))
      · exact fun hrest => h (hrest.sub (by simp; omega) hlength)

theorem add_ofNat_succ (a : BitVec 64) (i : Nat) :
    a + BitVec.ofNat 64 (8 * (i + 1)) = a + 8 + BitVec.ofNat 64 (8 * i) := by
  rw [BitVec.add_assoc, Nat.mul_add, Nat.add_comm (8 * i), BitVec.ofNat_add]
  rfl

theorem length_loadWords (m : Memory) (a : BitVec 64) (n : Nat) :
    (m.loadWords a n).length = n := by
  induction n generalizing a with
  | zero => rfl
  | succ n ih => rw [loadWords, List.length_cons, ih]

theorem loadWords_add (m : Memory) (a : BitVec 64) (n k : Nat) :
    m.loadWords a (n + k) = m.loadWords a n ++
      m.loadWords (a + BitVec.ofNat 64 (8 * n)) k := by
  induction n generalizing a with
  | zero => simp [loadWords]
  | succ n ih =>
      rw [Nat.succ_add, loadWords, ih, add_ofNat_succ]
      rfl

theorem loadWords_congr {m m' : Memory} (hlength : 8 * n ≤ 2 ^ 64)
    (h : ∀ b, Within a (8 * n) b → m' b = m b) : m'.loadWords a n = m.loadWords a n := by
  induction n generalizing a with
  | zero => rfl
  | succ n ih =>
      rw [loadWords, loadWords, load64_congr fun b hb => h b (hb.mono (by omega))]
      rw [ih (by omega)]
      exact fun b hb => h b (hb.sub (by simp; omega) hlength)

/-- One word of many is stored again. -/
theorem loadWords_store64 (m : Memory) (a v : BitVec 64) {i n : Nat} (hi : i < n)
    (hn : 8 * n ≤ 2 ^ 64) : (m.store64 (a + BitVec.ofNat 64 (8 * i)) v).loadWords a n =
      (m.loadWords a n).set i v := by
  induction n generalizing a i with
  | zero => omega
  | succ n ih =>
      cases i with
      | zero =>
          have hapart : Apart (a + 0) 8 (a + 8) (8 * n) :=
            .offset a (.inl ⟨le_rfl, by simp; omega⟩)
          have hrest : (m.store64 (a + 0) v).loadWords (a + 8) n = m.loadWords (a + 8) n :=
            loadWords_congr (by omega) fun b hb =>
              store64_of_not_within m v fun hb' => hapart b hb' hb
          have hfirst : (m.store64 (a + 0) v).load64 a = v := by
            simpa using load64_store64 m a v
          simp only [Nat.mul_zero, loadWords, List.set_cons_zero]
          exact congrArg₂ List.cons hfirst hrest
      | succ i =>
          have hapart : Apart (a + BitVec.ofNat 64 (8 * (i + 1))) 8 (a + 0) 8 := by
            refine .offset a (.inr ?_)
            have hzero : (0 : BitVec 64).toNat = 0 := rfl
            rw [BitVec.toNat_ofNat, Nat.mod_eq_of_lt (by omega), hzero]
            omega
          simp only [BitVec.ofNat_eq_ofNat, BitVec.add_zero] at hapart
          rw [loadWords, loadWords, load64_store64_of_apart m v hapart, add_ofNat_succ,
            ih (a + 8) (by omega) (by omega), List.set_cons_succ]

/-- `memset` to zero. -/
def clear (m : Memory) (a : BitVec 64) (n : Nat) : Memory := fun b =>
  if Within a n b then 0 else m b

theorem clear_of_not_within (m : Memory) (h : ¬ Within a n b) : m.clear a n b = m b :=
  if_neg h

theorem loadWords_clear (m : Memory) (a : BitVec 64) {n : Nat} (hn : 8 * n ≤ 2 ^ 64) :
    (m.clear a (8 * n)).loadWords a n = List.replicate n 0 := by
  have hzero : ∀ k i, i + k = n →
      (m.clear a (8 * n)).loadWords (a + BitVec.ofNat 64 (8 * i)) k =
        List.replicate k 0 := by
    intro k
    induction k with
    | zero =>
        intro i _
        rfl
    | succ k ih =>
        intro i hi
        have hbyte : ∀ b, Within (a + BitVec.ofNat 64 (8 * i)) 8 b →
            m.clear a (8 * n) b = (fun _ => 0 : Memory) b := by
          intro b hb
          refine if_pos (hb.sub ?_ hn)
          rw [BitVec.toNat_ofNat, Nat.mod_eq_of_lt (by omega)]
          omega
        have hnext := ih (i + 1) (by omega)
        rw [add_ofNat_succ, BitVec.add_assoc, BitVec.add_comm 8,
          ← BitVec.add_assoc] at hnext
        rw [loadWords, load64_congr hbyte, hnext, List.replicate_succ]
        congr 1
        simp [load64]
  simpa using hzero n 0 (Nat.zero_add n)

theorem loadWords_storeWords {m : Memory} {vs : List (BitVec 64)}
    (hlength : 8 * vs.length ≤ 2 ^ 64) :
    (m.storeWords a vs).loadWords a vs.length = vs := by
  induction vs generalizing m a with
  | nil => rfl
  | cons v vs ih =>
      rw [List.length_cons] at hlength ⊢
      rw [storeWords, loadWords, ih (by omega)]
      congr 1
      have hkept : ((m.store64 a v).storeWords (a + 8) vs).load64 a =
          (m.store64 a v).load64 a := by
        refine load64_congr fun b hb => storeWords_of_not_within (by omega) fun hrest => ?_
        unfold Within at hb hrest
        rw [BitVec.toNat_sub, BitVec.toNat_add] at hrest
        rw [BitVec.toNat_sub] at hb
        simp at hrest
        omega
      rw [hkept, load64_store64]

theorem loadWords_storeWords_of_apart {m : Memory} {vs : List (BitVec 64)}
    (hlength : 8 * vs.length ≤ 2 ^ 64) (hlength' : 8 * n ≤ 2 ^ 64)
    (h : Apart a (8 * vs.length) a' (8 * n)) :
    (m.storeWords a vs).loadWords a' n = m.loadWords a' n :=
  loadWords_congr hlength' fun b hb =>
    storeWords_of_not_within hlength fun hb' => h b hb' hb

end Memory

end YiOS.Library
