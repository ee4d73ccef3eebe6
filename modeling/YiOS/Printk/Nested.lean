import YiOS.Library.Access
import YiOS.Printk.Compose

namespace YiOS.Printk

open YiOS.Library

/-! A `printk` that an interrupt handler runs inside another one. Both fill and read the one
`print_buf`. -/

structure PrintCall where
  fmt : List Byte
  arg : VaList
  base : Int32

def PrintCall.console (call : PrintCall) (printBuf : U64) (m : Memory) : Console :=
  printk printBuf m call.fmt call.arg call.base

/-- The stores of `myprintf` and then the calls of `putchar`, which do not depend on the
memory. -/
def PrintCall.accesses (call : PrintCall) (printBuf : U64) : List (Access U64 Byte) :=
  let console := call.console printBuf fun _ => 0
  (console.stores.map fun s => .store s.1 s.2) ++ console.reads.map .send

/-- The text that is formatted, if all of it is text. -/
def PrintCall.text (call : PrintCall) : Option (List Byte) :=
  (formatted call.fmt call.arg call.base).1

/-- The handler's call after `k` accesses of the outer one. -/
def nested (printBuf : U64) (m : Memory) (outer inner : PrintCall) (k : Nat) :
    Access.Sent Byte :=
  Access.interrupted m (outer.accesses printBuf) (inner.accesses printBuf) k

/-- Without what the handler has inserted, the outer call sends what it sends alone. -/
def Intact (printBuf : U64) (m : Memory) (outer inner : PrintCall) (k : Nat) : Prop :=
  let sent := nested printBuf m outer inner k
  sent.before ++ sent.after = (outer.console printBuf m).sent

/-- The handler's stores leave every byte that the outer call has yet to send and does not
store again. -/
def Spares (printBuf : U64) (m : Memory) (outer inner : PrintCall) (k : Nat) : Prop :=
  ∀ a, Access.Exposed a ((outer.accesses printBuf).drop k) →
    (Access.run (Access.run m ((outer.accesses printBuf).take k)).1
      (inner.accesses printBuf)).1 a =
        (Access.run m ((outer.accesses printBuf).take k)).1 a

/-- The same for two texts: the characters that are stored and not yet sent are beyond the
handler's NUL or the same there. -/
def TextsAgree (outer inner : List Byte) (k : Nat) : Prop :=
  ∀ i < outer.length, i < k → k ≤ outer.length + 1 + i → i ≤ inner.length →
    (inner ++ [0])[i]? = outer[i]?

theorem run_accesses (call : PrintCall) (printBuf : U64) (m : Memory) :
    (Access.run m (call.accesses printBuf)).2 = (call.console printBuf m).sent := by
  unfold PrintCall.accesses
  simp only [Access.run_append, Access.run_stores, Access.run_sends]
  rfl

theorem intact_iff_spares (printBuf : U64) (m : Memory)
    (outer inner : PrintCall) (k : Nat) :
    Intact printBuf m outer inner k ↔ Spares printBuf m outer inner k := by
  unfold Intact
  rw [← run_accesses]
  exact Access.interrupted_iff m _ _ k

/-! Calls that format a text. -/

theorem putcharLoop_eq (printBuf : U64) {len i : Int32} {n : Nat} (hlen : len.toInt ≤ 1024)
    (hi : 0 ≤ i.toInt) (hn : (len.toInt - i.toInt).toNat ≤ n) :
    putcharLoop printBuf len n i =
      (List.range' i.toInt.toNat (len.toInt - i.toInt).toNat).map fun i =>
        printBuf + BitVec.ofNat 64 i := by
  induction n generalizing i with
  | zero =>
      have hnone : (len.toInt - i.toInt).toNat = 0 := by omega
      rw [hnone, List.range'_zero]
      rfl
  | succ n ih =>
      rw [putcharLoop]
      split
      next hlt =>
        rw [Int32.lt_iff_toInt_lt] at hlt
        have hnext : (i + 1).toInt = i.toInt + 1 := by
          rw [Int32.toInt_add, Int32.toInt_one]
          exact Int.bmod_eq_of_le (by omega) (by omega)
        have hread : BitVec.ofInt 64 i.toInt = BitVec.ofNat 64 i.toInt.toNat := by
          rw [← BitVec.ofInt_natCast, Int.toNat_of_nonneg hi]
        have hsize : ¬ consolePrintBufferSize.setWidth 64 <
          BitVec.ofNat 64 i.toInt.toNat := by
          have hbuffer : (consolePrintBufferSize.setWidth 64).toNat = 1024 := rfl
          rw [BitVec.lt_def, BitVec.toNat_ofNat, Nat.mod_eq_of_lt (by omega), hbuffer]
          omega
        have hcount : (len.toInt - i.toInt).toNat =
          (len.toInt - (i + 1).toInt).toNat + 1 := by
          omega
        have hfirst : (i + 1).toInt.toNat = i.toInt.toNat + 1 := by omega
        rw [hread, if_neg hsize, ih (by omega) (by omega), hcount, List.range'_succ,
          List.map_cons, hfirst]
      next hge =>
        rw [Int32.lt_iff_toInt_lt] at hge
        have hnone : (len.toInt - i.toInt).toNat = 0 := by omega
        rw [hnone, List.range'_zero]
        rfl

theorem accesses_text {call : PrintCall} {text : List Byte} (printBuf : U64)
    (htext : call.text = some text) (hlength : text.length ≤ 1024) :
    call.accesses printBuf = (placeText printBuf (text ++ [0])).map (fun s => .store s.1 s.2) ++
      ((List.range text.length).map fun i => printBuf + BitVec.ofNat 64 i).map .send := by
  have hformatted : formatted call.fmt call.arg call.base =
      (some text, (formatted call.fmt call.arg call.base).2) := Prod.ext htext rfl
  have hret : (Int32.ofNat text.length).toInt = text.length :=
    Int32.toInt_ofNat_of_lt (by omega)
  have hloop : putcharLoop printBuf (Int32.ofNat text.length) text.length 0 =
      (List.range text.length).map fun i => printBuf + BitVec.ofNat 64 i := by
    have hzero : (0 : Int32).toInt = 0 := rfl
    rw [putcharLoop_eq printBuf (by omega) (by omega) (by omega), hret, hzero, Int.sub_zero,
      Int.toNat_zero, Int.toNat_natCast, ← List.range_eq_range']
  unfold PrintCall.accesses PrintCall.console printk
  simp only [myprintf_formatted printBuf consolePrintBufferSize hformatted, hret,
    Int.toNat_natCast, hloop]

theorem mem_drop_range {i k n : Nat} : i ∈ (List.range n).drop k ↔ k ≤ i ∧ i < n := by
  rw [List.range_eq_range', List.drop_range', List.mem_range'_1]
  omega

/-- The characters that are stored and not yet sent after `k` accesses. -/
theorem exposed_text {call : PrintCall} {text : List Byte} (printBuf : U64)
    (htext : call.text = some text) (hlength : text.length ≤ 1024) (k : Nat) (a : U64) :
    Access.Exposed a ((call.accesses printBuf).drop k) ↔
      ∃ i < text.length, i < k ∧ k ≤ text.length + 1 + i ∧
        a = printBuf + BitVec.ofNat 64 i := by
  have hstores : ((placeText printBuf (text ++ [0])).drop k).map Prod.fst =
      ((List.range (text.length + 1)).drop k).map fun i =>
        printBuf + BitVec.ofNat 64 i := by
    rw [List.map_drop, map_fst_placeText, List.map_drop, List.length_append,
      List.length_singleton]
  rw [accesses_text printBuf htext hlength, List.drop_append, List.length_map,
    length_placeText, List.length_append, List.length_singleton, ← List.map_drop,
    ← List.map_drop, ← List.map_drop, Access.exposed_stores, Access.exposed_sends, hstores,
    List.mem_map, List.mem_map]
  constructor
  · rintro ⟨hstored, i, hi, rfl⟩
    rw [mem_drop_range] at hi
    have hlow : i < k := by
      by_contra hge
      exact hstored ⟨i, mem_drop_range.mpr ⟨by omega, by omega⟩, rfl⟩
    exact ⟨i, hi.2, hlow, by omega, rfl⟩
  · rintro ⟨i, hi, hlow, hhigh, rfl⟩
    refine ⟨?_, i, mem_drop_range.mpr ⟨by omega, hi⟩, rfl⟩
    rintro ⟨j, hj, heq⟩
    rw [mem_drop_range] at hj
    have hji := (add_ofNat_inj printBuf (by omega) (by omega)).mp heq
    omega

theorem stored_text {call : PrintCall} {text : List Byte} (printBuf : U64) (m : Memory)
    (htext : call.text = some text) (hlength : text.length ≤ 1024) {i : Nat} (k : Nat)
    (hi : i < 2 ^ 64) :
    (Access.run m ((call.accesses printBuf).take k)).1 (printBuf + BitVec.ofNat 64 i) =
      ((text ++ [0]).take k).getD i (m (printBuf + BitVec.ofNat 64 i)) := by
  have hshort : ((text ++ [0]).take k).length < 2 ^ 64 := by
    rw [List.length_take, List.length_append, List.length_singleton]
    omega
  rw [accesses_text printBuf htext hlength, List.take_append, ← List.map_take,
    ← List.map_take,
    Access.run_append, Access.run_stores, Access.run_sends, take_placeText]
  exact placeText_apply _ _ hshort hi

theorem spares_iff_agree {outer inner : PrintCall} {text text' : List Byte} (printBuf : U64)
    (m : Memory) (k : Nat) (htext : outer.text = some text) (hlength : text.length ≤ 1024)
    (htext' : inner.text = some text') (hlength' : text'.length ≤ 1024) :
    Spares printBuf m outer inner k ↔ TextsAgree text text' k := by
  have hbyte : ∀ i < text.length, i < k → (
      (Access.run (Access.run m ((outer.accesses printBuf).take k)).1
        (inner.accesses printBuf)).1 (printBuf + BitVec.ofNat 64 i) =
          (Access.run m ((outer.accesses printBuf).take k)).1
          (printBuf + BitVec.ofNat 64 i) ↔
        (i ≤ text'.length → (text' ++ [0])[i]? = text[i]?)) := by
    intro i hi hk
    have houter := stored_text printBuf m htext hlength k (by omega : i < 2 ^ 64)
    have hinner := stored_text printBuf (Access.run m ((outer.accesses printBuf).take k)).1
      htext' hlength' (inner.accesses printBuf).length (by omega : i < 2 ^ 64)
    have hall : ((text' ++ [0]).take (inner.accesses printBuf).length) = text' ++ [0] := by
      apply List.take_of_length_le
      rw [accesses_text printBuf htext' hlength']
      simp only [List.length_append, List.length_map, length_placeText]
      omega
    have hstored : ((text ++ [0]).take k)[i]? = some text[i] := by
      rw [List.getElem?_take, if_pos hk, List.getElem?_append_left hi,
        List.getElem?_eq_getElem hi]
    rw [List.take_length, hall] at hinner
    rw [List.getD_eq_getElem?_getD, hstored, Option.getD_some] at houter
    rw [hinner, houter, List.getD_eq_getElem?_getD, List.getElem?_eq_getElem hi]
    by_cases hbeyond : i ≤ text'.length
    · have hin : i < (text' ++ [0]).length := by simpa using Nat.lt_succ_of_le hbeyond
      rw [List.getElem?_eq_getElem hin, Option.getD_some, Option.some.injEq]
      exact ⟨fun h _ => h, fun h => h hbeyond⟩
    · have hnone : (text' ++ [0])[i]? = none := List.getElem?_eq_none (by simp; omega)
      rw [hnone, Option.getD_none]
      exact ⟨fun _ h => absurd h hbeyond, fun _ => rfl⟩
  unfold Spares TextsAgree
  constructor
  · intro h i hi hk hsent
    exact (hbyte i hi hk).mp (h _ ((exposed_text printBuf htext hlength k _).mpr
      ⟨i, hi, hk, hsent, rfl⟩))
  · intro h a ha
    obtain ⟨i, hi, hk, hsent, rfl⟩ := (exposed_text printBuf htext hlength k a).mp ha
    exact (hbyte i hi hk).mpr (h i hi hk hsent)

/-- The outer call is not damaged exactly when the handler's one spares what is stored and
not yet sent. -/
theorem intact_iff (printBuf : U64) (m : Memory) (outer inner : PrintCall) (k : Nat) :
    (Intact printBuf m outer inner k ↔ Spares printBuf m outer inner k) ∧
      ∀ text text', outer.text = some text → inner.text = some text' → text.length ≤ 1024 →
        text'.length ≤ 1024 →
          (Intact printBuf m outer inner k ↔ TextsAgree text text' k) := by
  refine ⟨intact_iff_spares printBuf m outer inner k, ?_⟩
  intro text text' htext htext' hlength hlength'
  rw [intact_iff_spares]
  exact spares_iff_agree printBuf m k htext hlength htext' hlength'

/-- `printk("enable mmu done\n")`. -/
def enableMmuDone : PrintCall where
  fmt := ['e', 'n', 'a', 'b', 'l', 'e', ' ', 'm', 'm', 'u', ' ', 'd', 'o', 'n', 'e', '\n'].map ch
  arg := noArguments
  base := 0

/-- `printk("Core0 timer interrupt, freq=%u\n", 54000000)`. -/
def timerInterrupt : PrintCall where
  fmt := ['C', 'o', 'r', 'e', '0', ' ', 't', 'i', 'm', 'e', 'r', ' ', 'i', 'n', 't', 'e', 'r',
    'r', 'u', 'p', 't', ',', ' ', 'f', 'r', 'e', 'q', '=', '%', 'u', '\n'].map ch
  arg := { noArguments with slot := fun _ => 54000000 }
  base := 0

theorem enableMmuDone_text : enableMmuDone.text = some enableMmuDone.fmt := by
  decide +kernel

theorem timerInterrupt_text : timerInterrupt.text =
    some (timerInterrupt.fmt.take 28 ++
      ['5', '4', '0', '0', '0', '0', '0', '0', '\n'].map ch) := by decide +kernel

/-- Before the first store and after the last character a handler does no harm, between the
two phases it does. -/
theorem intact_iff_timerInterrupt :
    Intact 0x80000 (fun _ => 0) enableMmuDone timerInterrupt 0 ∧
      ¬ Intact 0x80000 (fun _ => 0) enableMmuDone timerInterrupt 17 ∧
      Intact 0x80000 (fun _ => 0) enableMmuDone timerInterrupt 33 := by
  have hagree := fun k => (intact_iff 0x80000 (fun _ => 0) enableMmuDone timerInterrupt k).2 _ _
    enableMmuDone_text timerInterrupt_text (by decide) (by decide)
  refine ⟨(hagree 0).mpr ?_, fun h => ?_, (hagree 33).mpr ?_⟩
  · intro i _ hstored
    omega
  · have hfirst := (hagree 17).mp h 0 (by decide) (by decide) (by decide) (by decide)
    revert hfirst
    decide
  · intro i hi _ hsent
    have hlength : enableMmuDone.fmt.length = 16 := rfl
    omega

/-- Between the two phases the handler's text takes the place of the outer one. -/
theorem not_intact : ¬ ∀ printBuf m outer inner k, Intact printBuf m outer inner k := by
  intro h
  have hintact := h 0x80000 (fun _ => 0) enableMmuDone timerInterrupt 17
  revert hintact
  unfold Intact
  decide +kernel

end YiOS.Printk
