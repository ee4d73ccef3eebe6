import Mathlib.Data.List.GetD
import Mathlib.Data.Nat.Digits.Lemmas
import YiOS.Library.Memory

namespace YiOS.Library

/-! Texts of bytes, their stores at ascending addresses, and the counting loops that
write padding. -/

abbrev Byte := BitVec 8

/-- A character constant. -/
def ch (c : Char) : Byte := BitVec.ofNat 8 c.toNat

/-- `*pos++ = c` for every byte of the text. -/
def placeText (pos : BitVec 64) : List Byte → List (BitVec 64 × Byte)
  | [] => []
  | c :: text => (pos, c) :: placeText (pos + 1) text

theorem add_ofNat_one_add (a : BitVec 64) (k : Nat) :
    a + BitVec.ofNat 64 k + 1 = a + BitVec.ofNat 64 (k + 1) := by
  rw [BitVec.add_assoc, BitVec.ofNat_add]
  rfl

theorem add_one_add_ofNat (a : BitVec 64) (k : Nat) :
    a + 1 + BitVec.ofNat 64 k = a + BitVec.ofNat 64 (k + 1) := by
  rw [BitVec.add_assoc, BitVec.add_comm 1, ← BitVec.add_assoc, add_ofNat_one_add]

theorem placeText_append (pos : BitVec 64) (left right : List Byte) :
    placeText pos (left ++ right) = placeText pos left ++
      placeText (pos + BitVec.ofNat 64 left.length) right := by
  induction left generalizing pos with
  | nil => simp [placeText]
  | cons c left ih =>
      have hnext := ih (pos + 1)
      rw [add_one_add_ofNat] at hnext
      rw [List.cons_append, placeText, hnext, placeText, List.cons_append, List.length_cons]

theorem length_placeText (pos : BitVec 64) (text : List Byte) :
    (placeText pos text).length = text.length := by
  induction text generalizing pos with
  | nil => rfl
  | cons c text ih => rw [placeText, List.length_cons, ih, List.length_cons]

theorem map_snd_placeText (pos : BitVec 64) (text : List Byte) :
    (placeText pos text).map (·.2) = text := by
  induction text generalizing pos with
  | nil => rfl
  | cons c text ih => rw [placeText, List.map_cons, ih]

theorem take_placeText (pos : BitVec 64) (text : List Byte) (k : Nat) :
    (placeText pos text).take k = placeText pos (text.take k) := by
  induction text generalizing pos k with
  | nil => simp [placeText]
  | cons c text ih =>
      cases k with
      | zero => rfl
      | succ k => rw [placeText, List.take_succ_cons, ih, List.take_succ_cons, placeText]

/-- A text that neither begins nor ends in `c` has no `c` around it. -/
theorem replicate_around {c : Byte} {before after : Nat} {middle text : List Byte}
    (h : List.replicate before c ++ middle ++ List.replicate after c = text)
    (hhead : text.head? ≠ some c) (hlast : text.getLast? ≠ some c) :
    before = 0 ∧ after = 0 := by
  constructor
  · cases before with
    | zero => rfl
    | succ before =>
        rw [← h, List.replicate_succ, List.cons_append, List.cons_append] at hhead
        exact absurd rfl hhead
  · cases after with
    | zero => rfl
    | succ after =>
        rw [← h, List.replicate_succ', ← List.append_assoc, List.getLast?_concat] at hlast
        exact absurd rfl hlast

theorem add_ofNat_inj (a : BitVec 64) {i j : Nat} (hi : i < 2 ^ 64) (hj : j < 2 ^ 64) :
    a + BitVec.ofNat 64 i = a + BitVec.ofNat 64 j ↔ i = j := by
  rw [add_right_inj]
  constructor
  · intro h
    have hnat := congrArg BitVec.toNat h
    rwa [BitVec.toNat_ofNat, BitVec.toNat_ofNat, Nat.mod_eq_of_lt hi,
      Nat.mod_eq_of_lt hj] at hnat
  · rintro rfl
    rfl

theorem map_fst_placeText (pos : BitVec 64) (text : List Byte) :
    (placeText pos text).map Prod.fst =
      (List.range text.length).map fun i => pos + BitVec.ofNat 64 i := by
  induction text generalizing pos with
  | nil => rfl
  | cons c text ih =>
      rw [placeText, List.map_cons, ih, List.length_cons, List.range_succ_eq_map,
        List.map_cons,
        List.map_map, BitVec.add_zero]
      simp only [add_one_add_ofNat, Function.comp_def]

/-- What a memory holds after the stores of a text. -/
theorem placeText_apply (m : Memory) (pos : BitVec 64) {text : List Byte} {i : Nat}
    (htext : text.length < 2 ^ 64) (hi : i < 2 ^ 64) :
    (placeText pos text).foldl (fun m s => Function.update m s.1 s.2) m
        (pos + BitVec.ofNat 64 i) =
      text.getD i (m (pos + BitVec.ofNat 64 i)) := by
  induction text generalizing m pos i with
  | nil => rfl
  | cons c text ih =>
      rw [List.length_cons] at htext
      rw [placeText, List.foldl_cons]
      cases i with
      | zero =>
          have hlast := ih (Function.update m pos c) (pos + 1) (i := 2 ^ 64 - 1) (by omega)
            (by decide)
          have hpos : pos + 1 + BitVec.ofNat 64 (2 ^ 64 - 1) = pos + BitVec.ofNat 64 0 := by
            rw [BitVec.add_assoc]
            rfl
          rw [hpos, List.getD_eq_default _ _ (by omega)] at hlast
          have hself : Function.update m pos c (pos + BitVec.ofNat 64 0) = c := by
            rw [BitVec.add_zero, Function.update_self]
          rw [hlast, List.getD_cons_zero, hself]
      | succ i =>
          have hne : pos + BitVec.ofNat 64 (i + 1) ≠ pos := by
            intro h
            have hzero := (add_ofNat_inj pos hi (by decide : 0 < 2 ^ 64)).mp
              (h.trans (BitVec.add_zero pos).symm)
            omega
          have hrest := ih (Function.update m pos c) (pos + 1) (i := i)
            (by omega) (by omega)
          rw [add_one_add_ofNat, Function.update_of_ne hne] at hrest
          rw [hrest, List.getD_cons_succ]

theorem within_add_ofNat (a : BitVec 64) {k n : Nat} (hn : n < 2 ^ 64) (hk : k ≤ n) :
    Within a n (a + BitVec.ofNat 64 k) ↔ k < n := by
  unfold Within
  rw [BitVec.add_comm, BitVec.add_sub_cancel, BitVec.toNat_ofNat,
    Nat.mod_eq_of_lt (by omega)]

/-- A text that begins inside a region stays inside it exactly when it ends there. -/
theorem placeText_within_iff (a : BitVec 64) (text : List Byte) {k n : Nat}
    (hn : n < 2 ^ 64)
    (hk : k ≤ n) : (∀ store ∈ placeText (a + BitVec.ofNat 64 k) text, Within a n store.1) ↔
      k + text.length ≤ n := by
  induction text generalizing k with
  | nil => simpa [placeText] using hk
  | cons c text ih =>
      rw [placeText, List.forall_mem_cons, within_add_ofNat a hn hk, add_ofNat_one_add,
        List.length_cons]
      constructor
      · intro h
        have hrest := (ih (k := k + 1) h.1).mp h.2
        omega
      · intro h
        exact ⟨by omega, (ih (by omega)).mpr (by omega)⟩

/-- `while (low < n--) *pos++ = c;`: what it writes and the `n` it leaves. The first
number bounds the passes. -/
def padLoop (c : Byte) (low : Int32) : Nat → Int32 → List Byte × Int32
  | 0, n => ([], n)
  | passes + 1, n =>
      if low < n then
        let rest := padLoop c low passes (n - 1)
        (c :: rest.1, rest.2)
      else ([], n - 1)

def pad (c : Byte) (low n : Int32) : List Byte × Int32 :=
  padLoop c low ((n.toInt - low.toInt).toNat + 1) n

/-- `while (--n > 0) *pos++ = c;` -/
def prePadLoop (c : Byte) : Nat → Int32 → List Byte × Int32
  | 0, n => ([], n)
  | passes + 1, n =>
      if 0 < n - 1 then
        let rest := prePadLoop c passes (n - 1)
        (c :: rest.1, rest.2)
      else ([], n - 1)

def prePad (c : Byte) (n : Int32) : List Byte × Int32 :=
  prePadLoop c ((n - 1).toInt.toNat + 1) n

theorem zero_lt_iff (n : Int32) : 0 < n ↔ 0 < n.toInt := by
  rw [Int32.lt_iff_toInt_lt, Int32.toInt_zero]

theorem toInt_pred (n : Int32) :
    (n - 1).toInt = if n.toInt = -2 ^ 31 then 2 ^ 31 - 1 else n.toInt - 1 := by
  have hlow := n.le_toInt
  have hhigh := n.toInt_lt
  rw [Int32.toInt_sub, Int32.toInt_one]
  split
  next hleast =>
    rw [hleast]
    rfl
  next hmore => exact Int.bmod_eq_of_le (by omega) (by omega)

theorem toInt_sub_one {low n : Int32} (h : low < n) : (n - 1).toInt = n.toInt - 1 := by
  have hlow := low.le_toInt
  have hlt := Int32.lt_iff_toInt_lt.mp h
  rw [toInt_pred, if_neg (by omega)]

theorem padLoop_eq (c : Byte) (low : Int32) {passes : Nat} {n : Int32}
    (hpasses : (n.toInt - low.toInt).toNat < passes) : padLoop c low passes n =
      (List.replicate (n.toInt - low.toInt).toNat c, (if low < n then low else n) - 1) := by
  induction passes generalizing n with
  | zero => omega
  | succ passes ih =>
      rw [padLoop]
      split
      next hlt =>
        have hless := Int32.lt_iff_toInt_lt.mp hlt
        have hone := toInt_sub_one hlt
        have hcount : (n.toInt - low.toInt).toNat =
            ((n - 1).toInt - low.toInt).toNat + 1 := by omega
        have hlast : (if low < n - 1 then low else n - 1) = low := by
          split
          · rfl
          next hge =>
            rw [Int32.lt_iff_toInt_lt] at hge
            exact Int32.toInt_inj.mp (by omega)
        rw [ih (by omega), hcount, List.replicate_succ, hlast]
      next hge =>
        rw [Int32.lt_iff_toInt_lt] at hge
        have hcount : (n.toInt - low.toInt).toNat = 0 := by omega
        rw [hcount, List.replicate_zero]

theorem pad_eq (c : Byte) (low n : Int32) : pad c low n =
    (List.replicate (n.toInt - low.toInt).toNat c, (if low < n then low else n) - 1) :=
  padLoop_eq c low (Nat.lt_succ_self _)

theorem prePadLoop_eq (c : Byte) {passes : Nat} {n : Int32}
    (hpasses : (n - 1).toInt.toNat < passes) : prePadLoop c passes n =
      (List.replicate (n - 1).toInt.toNat c, if 0 < n - 1 then 0 else n - 1) := by
  induction passes generalizing n with
  | zero => omega
  | succ passes ih =>
      rw [prePadLoop]
      split
      next hlt =>
        have hone := toInt_sub_one hlt
        rw [zero_lt_iff] at hlt
        have hcount : (n - 1).toInt.toNat = (n - 1 - 1).toInt.toNat + 1 := by omega
        have hlast : (if 0 < n - 1 - 1 then 0 else n - 1 - 1) = (0 : Int32) := by
          split
          · rfl
          next hge =>
            rw [zero_lt_iff] at hge
            apply Int32.toInt_inj.mp
            rw [Int32.toInt_zero]
            omega
        rw [ih (by omega), hcount, List.replicate_succ, hlast]
      next hge =>
        rw [zero_lt_iff] at hge
        have hcount : (n - 1).toInt.toNat = 0 := by omega
        rw [hcount, List.replicate_zero]

theorem prePad_eq (c : Byte) (n : Int32) : prePad c n =
    (List.replicate (n - 1).toInt.toNat c, if 0 < n - 1 then 0 else n - 1) :=
  prePadLoop_eq c (Nat.lt_succ_self _)

end YiOS.Library
