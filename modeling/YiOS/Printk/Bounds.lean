import YiOS.Printk.Lengths

namespace YiOS.Printk

open YiOS.Library

/-! Where the stores of `myprintf` fall, and the reads of `printk`. -/

/-- Every store is to one of the bytes of the buffer. -/
def Printed.Bounded (printed : Printed) (string : U64) (size : BitVec 32) : Prop :=
  ∀ store ∈ printed.stores, Within string size.toNat store.1

/-- The stores and the reads are of bytes of `print_buf`. -/
def Console.Bounded (console : Console) (printBuf : U64) : Prop :=
  (∀ store ∈ console.stores, Within printBuf consolePrintBufferSize.toNat store.1) ∧
    ∀ a ∈ console.reads, Within printBuf consolePrintBufferSize.toNat a

def pieces (fmt : List Byte) (arg : VaList) (base : Int32) : List Piece :=
  (arg.pieces (fmt.length + 1) { fmt := fmt ++ [0], next := 0, base }).1

/-- What the format and its arguments call for goes into the buffer with its NUL, no
directive reaches `number` with a base it refuses, and every `%n` points into the buffer. -/
structure Fits (string : U64) (size : BitVec 32) (fmt : List Byte) (arg : VaList)
    (base : Int32) : Prop where
  room : ((pieces fmt arg base).map (Piece.length arg)).sum + 1 ≤ size.toNat
  based : ∀ piece ∈ pieces fmt arg base, piece.Based
  counts : ∀ piece ∈ pieces fmt arg base, ∀ ip ∈ piece.ip, Within string size.toNat ip

theorem fits_iff (string : U64) (size : BitVec 32) (fmt : List Byte) (arg : VaList)
    (base : Int32) : Fits string size fmt arg base ↔
      ((pieces fmt arg base).map (Piece.length arg)).sum + 1 ≤ size.toNat ∧
      ∀ piece ∈ pieces fmt arg base,
        piece.Based ∧ piece.ip.all fun ip => Within string size.toNat ip := by
  simp only [Option.all_eq_true, decide_eq_true_eq]
  constructor
  · intro h
    exact ⟨h.room, fun piece hpiece => ⟨h.based piece hpiece, h.counts piece hpiece⟩⟩
  · intro h
    exact ⟨h.1, fun piece hpiece => (h.2 piece hpiece).1, fun piece hpiece => (h.2 piece hpiece).2⟩

instance decidableFits (string : U64) (size : BitVec 32) (fmt : List Byte) (arg : VaList)
    (base : Int32) : Decidable (Fits string size fmt arg base) :=
  decidable_of_iff _ (fits_iff string size fmt arg base).symm

def Written.finish (w : Written) : List (U64 × Byte) := w.stores ++ [(w.pos, 0)]

theorem stores_foldl (string : U64) (out : List Output) (w : Written) :
    ∀ store ∈ w.stores, store ∈ (out.foldl (Output.write string) w).stores := by
  induction out generalizing w with
  | nil => exact fun store hstore => hstore
  | cons output out ih =>
      intro store hstore
      apply ih
      cases output with
      | text written => exact List.mem_append_left _ hstore
      | count ip => exact List.mem_append_left _ hstore
      | null => exact hstore

theorem finish_within_iff {string : U64} {out : List Output} {w : Written} {k n : Nat}
    (hn : n < 2 ^ 64) (hpos : w.pos = string + BitVec.ofNat 64 k) (hk : k ≤ n)
    (hnull : Output.null ∉ out) :
    (∀ store ∈ (out.foldl (Output.write string) w).finish, Within string n store.1) ↔
      (∀ store ∈ w.stores, Within string n store.1) ∧
        k + (out.map Output.length).sum + 1 ≤ n ∧
          ∀ ip, Output.count ip ∈ out → Within string n ip := by
  induction out generalizing w k with
  | nil =>
      rw [List.foldl_nil, Written.finish, List.forall_mem_append,
        List.forall_mem_singleton, hpos,
        within_add_ofNat string hn hk]
      simp
  | cons output out ih =>
      have hrest : Output.null ∉ out := fun h => hnull (List.mem_cons_of_mem _ h)
      rw [List.foldl_cons, List.map_cons, List.sum_cons]
      cases output with
      | text written =>
          have hplaceText := placeText_within_iff string written hn hk
          by_cases hroom : k + written.length ≤ n
          · have hpos' : (Output.write string w (.text written)).pos =
                string + BitVec.ofNat 64 (k + written.length) := by
              simp only [Output.write, hpos, BitVec.ofNat_add, BitVec.add_assoc]
            rw [ih hpos' hroom hrest]
            simp only [Output.write, List.forall_mem_append, hpos, hplaceText,
              Output.length,
              List.mem_cons, reduceCtorEq, false_or]
            constructor
            · intro h
              exact ⟨h.1.1, by omega, h.2.2⟩
            · intro h
              exact ⟨⟨h.1, hroom⟩, by omega, h.2.2⟩
          · constructor
            · intro h
              apply absurd (hplaceText.mp ?_) hroom
              intro store hstore
              apply h
              apply List.mem_append_left
              apply stores_foldl
              rw [← hpos] at hstore
              exact List.mem_append_right _ hstore
            · intro h
              have hlength := h.2.1
              simp only [Output.length] at hlength
              omega
      | count ip =>
          have hmore := ih (w := Output.write string w (.count ip)) hpos hk hrest
          have hcounts : (∀ other, Output.count other ∈ Output.count ip :: out →
              Within string n other) ↔ Within string n ip ∧
                ∀ other, Output.count other ∈ out → Within string n other := by
            simp
          rw [hmore, hcounts]
          simp only [Output.write, List.forall_mem_append, List.forall_mem_singleton,
            Output.length, Nat.zero_add]
          constructor
          · intro h
            exact ⟨h.1.1, h.2.1, h.1.2, h.2.2⟩
          · intro h
            exact ⟨⟨h.1, h.2.2.1⟩, h.2.1, h.2.2.2⟩
      | null => exact absurd List.mem_cons_self hnull

/-- From a null `pos` the next character goes to address zero. -/
theorem not_within_of_zero {string : U64} {n : Nat} (hzero : ¬ Within string n 0)
    (out : List Output) {w : Written}
    (hpos : w.pos = 0) :
    ¬ ∀ store ∈ (out.foldl (Output.write string) w).finish, Within string n store.1 := by
  induction out generalizing w with
  | nil =>
      intro h
      have hlast := h (w.pos, 0) (List.mem_append_right _ List.mem_cons_self)
      exact hzero (hpos ▸ hlast)
  | cons output out ih =>
      cases output with
      | text written =>
          cases written with
          | nil => exact ih (by simp [Output.write, hpos])
          | cons c written =>
              intro h
              have hstore :
                (w.pos, c) ∈ (Output.write string w (.text (c :: written))).stores :=
                List.mem_append_right _ List.mem_cons_self
              have hfirst :=
                h _ (List.mem_append_left _ (stores_foldl string out _ _ hstore))
              exact hzero (hpos ▸ hfirst)
      | count ip => exact ih hpos
      | null => exact ih rfl

theorem not_within_of_null {string : U64} {n : Nat} (hzero : ¬ Within string n 0)
    {out : List Output}
    (hnull : Output.null ∈ out) (w : Written) :
    ¬ ∀ store ∈ (out.foldl (Output.write string) w).finish, Within string n store.1 := by
  obtain ⟨before, after, hsplit⟩ := List.append_of_mem hnull
  rw [hsplit, List.foldl_append, List.foldl_cons]
  exact not_within_of_zero hzero after rfl

theorem map_sum_flatMap (pieces : List Piece) (arg : VaList)
    (hbased : ∀ piece ∈ pieces, piece.Based) :
    ((pieces.flatMap (Piece.outputs arg)).map Output.length).sum =
      (pieces.map (Piece.length arg)).sum := by
  induction pieces with
  | nil => rfl
  | cons piece pieces ih =>
      rw [List.forall_mem_cons] at hbased
      rw [List.flatMap_cons, List.map_append, List.sum_append, List.map_cons, List.sum_cons,
        ih hbased.2, (length_outputs arg hbased.1).2]

theorem null_not_mem {fmt : List Byte} {arg : VaList} {base : Int32}
    (hbased : ∀ piece ∈ pieces fmt arg base, piece.Based) :
    Output.null ∉ (pieces fmt arg base).flatMap (Piece.outputs arg) := by
  intro hmem
  obtain ⟨piece, hpiece, houtput⟩ := List.mem_flatMap.mp hmem
  exact (length_outputs arg (hbased piece hpiece)).1 houtput

/-- The stores stay inside exactly when the format fits. -/
theorem myprintf_bounded_iff (string : U64) (size : BitVec 32) (fmt : List Byte)
    (arg : VaList)
    (base : Int32) (hzero : ¬ Within string size.toNat 0) :
    (myprintf string size fmt arg base).Bounded string size ↔
      Fits string size fmt arg base := by
  have hout : (arg.passes (fmt.length + 1) { fmt := fmt ++ [0], next := 0, base }).1 =
      (pieces fmt arg base).flatMap (Piece.outputs arg) := by rw [passes_eq, pieces]
  have hsize : size.toNat < 2 ^ 64 := by omega
  have hbounded : (myprintf string size fmt arg base).Bounded string size ↔
      ∀ store ∈ (((pieces fmt arg base).flatMap (Piece.outputs arg)).foldl (Output.write string)
        { pos := string, stores := [] }).finish, Within string size.toNat store.1 := by
    rw [← hout]
    rfl
  rw [hbounded]
  by_cases hbased : ∀ piece ∈ pieces fmt arg base, piece.Based
  · have hstart : (Written.mk string []).pos = string + BitVec.ofNat 64 0 := by simp
    rw [finish_within_iff hsize hstart (Nat.zero_le _) (null_not_mem hbased),
      map_sum_flatMap (pieces fmt arg base) arg hbased]
    have hcounts : (∀ ip, Output.count ip ∈ (pieces fmt arg base).flatMap (Piece.outputs arg) →
        Within string size.toNat ip) ↔
          ∀ piece ∈ pieces fmt arg base, ∀ ip ∈ piece.ip, Within string size.toNat ip := by
      simp only [List.mem_flatMap, count_mem_outputs, Option.mem_def]
      constructor
      · intro h piece hpiece ip hip
        exact h ip ⟨piece, hpiece, hip⟩
      · intro h ip hmem
        obtain ⟨piece, hpiece, hip⟩ := hmem
        exact h piece hpiece ip hip
    rw [hcounts, Nat.zero_add]
    constructor
    · intro h
      exact ⟨h.2.1, hbased, h.2.2⟩
    · intro h
      exact ⟨by simp, h.room, h.counts⟩
  · have hnull : Output.null ∈ (pieces fmt arg base).flatMap (Piece.outputs arg) := by
      push Not at hbased
      obtain ⟨piece, hpiece, hinvalid⟩ := hbased
      exact List.mem_flatMap.mpr ⟨piece, hpiece, null_mem_outputs arg hinvalid⟩
    constructor
    · intro h
      exact absurd h (not_within_of_null hzero hnull _)
    · intro h
      exact absurd h.based hbased

theorem pos_foldl (string : U64) {out : List Output} (w : Written)
    (hnull : Output.null ∉ out) : (out.foldl (Output.write string) w).pos =
      w.pos + BitVec.ofNat 64 (out.map Output.length).sum := by
  induction out generalizing w with
  | nil => simp
  | cons output out ih =>
      have hrest : Output.null ∉ out := fun h => hnull (List.mem_cons_of_mem _ h)
      rw [List.foldl_cons, ih _ hrest, List.map_cons, List.sum_cons]
      cases output with
      | text written =>
          rw [BitVec.ofNat_add, ← BitVec.add_assoc]
          rfl
      | count ip =>
          rw [Output.length, Nat.zero_add]
          rfl
      | null => exact absurd List.mem_cons_self hnull

theorem ofBitVec_sub (string : U64) (n : Nat) :
    Int32.ofBitVec ((string + BitVec.ofNat 64 n - string).setWidth 32) = Int32.ofNat n := by
  rw [BitVec.add_comm, BitVec.add_sub_cancel, BitVec.setWidth_ofNat_of_le (by omega)]
  rfl

/-- The value returned is the number of characters, as an `int`. -/
theorem ret_myprintf (string : U64) (size : BitVec 32) {fmt : List Byte} {arg : VaList}
    {base : Int32} (hbased : ∀ piece ∈ pieces fmt arg base, piece.Based) :
    (myprintf string size fmt arg base).ret =
      Int32.ofNat ((pieces fmt arg base).map (Piece.length arg)).sum := by
  unfold myprintf
  rw [passes_eq]
  change Int32.ofBitVec (((((pieces fmt arg base).flatMap (Piece.outputs arg)).foldl
    (Output.write string) { pos := string, stores := [] }).pos - string).setWidth 32) = _
  rw [pos_foldl string _ (null_not_mem hbased), map_sum_flatMap _ arg hbased, ofBitVec_sub]

theorem putcharLoop_within (printBuf : U64) {len : Int32} (hlen : len.toInt ≤ 1024)
    {n : Nat} {i : Int32} (hi : 0 ≤ i.toInt) :
    ∀ a ∈ putcharLoop printBuf len n i, Within printBuf consolePrintBufferSize.toNat a := by
  induction n generalizing i with
  | zero =>
      intro a ha
      exact absurd ha List.not_mem_nil
  | succ n ih =>
      rw [putcharLoop]
      split
      next hlt =>
        rw [Int32.lt_iff_toInt_lt] at hlt
        have hnext : (i + 1).toInt = i.toInt + 1 := by
          rw [Int32.toInt_add, Int32.toInt_one]
          exact Int.bmod_eq_of_le (by omega) (by omega)
        have hread : BitVec.ofInt 64 i.toInt = BitVec.ofNat 64 i.toInt.toNat := by
          rw [← BitVec.ofInt_natCast, Int.toNat_of_nonneg hi]
        rw [List.forall_mem_cons]
        constructor
        · rw [hread, consolePrintBufferSize_toNat,
            within_add_ofNat printBuf (by decide) (by omega)]
          omega
        · split
          · intro a ha
            exact absurd ha List.not_mem_nil
          · exact ih (by omega)
      next =>
        intro a ha
        exact absurd ha List.not_mem_nil

theorem printk_bounded_iff (printBuf : U64) (m : Memory) (fmt : List Byte) (arg : VaList)
    (base : Int32) (hzero : ¬ Within printBuf consolePrintBufferSize.toNat 0) :
    (printk printBuf m fmt arg base).Bounded printBuf ↔
      Fits printBuf consolePrintBufferSize fmt arg base := by
  have hstores := myprintf_bounded_iff printBuf consolePrintBufferSize fmt arg base hzero
  constructor
  · intro h
    exact hstores.mp h.1
  · intro h
    refine ⟨hstores.mpr h, ?_⟩
    have hret := ret_myprintf printBuf consolePrintBufferSize h.based
    have hroom := h.room
    have hlen : (myprintf printBuf consolePrintBufferSize fmt arg base).ret.toInt ≤ 1024 := by
      rw [hret]
      rw [consolePrintBufferSize_toNat] at hroom
      exact (toInt_ofNat_le _).trans (by omega)
    exact putcharLoop_within printBuf hlen le_rfl

/-- `size` bounds nothing: a call stays inside its buffer exactly when what it is to write
fits there, and so does `printk`. -/
theorem printk_bounded (string : U64) (size : BitVec 32) (printBuf : U64) (m : Memory)
    (fmt : List Byte) (arg : VaList) (base : Int32) (hstring : ¬ Within string size.toNat 0)
    (hprintBuf : ¬ Within printBuf consolePrintBufferSize.toNat 0) :
    ((myprintf string size fmt arg base).Bounded string size ↔
        Fits string size fmt arg base) ∧
      ((printk printBuf m fmt arg base).Bounded printBuf ↔
        Fits printBuf consolePrintBufferSize fmt arg base) :=
  ⟨myprintf_bounded_iff string size fmt arg base hstring,
    printk_bounded_iff printBuf m fmt arg base hprintBuf⟩

def noArguments : VaList := { slot := fun _ => 0, string := fun _ => [] }

/-- `%5d` and its NUL go into six bytes, and not into five. -/
theorem printk_bounded_width :
    (myprintf 0x80000 6 (['%', '5', 'd'].map ch) noArguments 0).Bounded 0x80000 6 ∧
      ¬ (myprintf 0x80000 5 (['%', '5', 'd'].map ch) noArguments 0).Bounded 0x80000 5 ∧
      (printk 0x80000 (fun _ => 0) (['%', '5', 'd'].map ch) noArguments 0).Bounded 0x80000 := by
  have hbounded := fun size hstring => printk_bounded 0x80000 size 0x80000 (fun _ => 0)
    (['%', '5', 'd'].map ch) noArguments 0 hstring (by decide)
  have hroom := hbounded 6 (by decide)
  exact ⟨hroom.1.mpr (by decide +kernel),
    mt (hbounded 5 (by decide)).1.mp (by decide +kernel), hroom.2.mpr (by decide +kernel)⟩

/-- `printk("%1024d", 0)` stores its NUL behind `print_buf`. -/
theorem printk_not_bounded : ¬ ∀ string size printBuf m fmt arg base, 1 ≤ size.toNat →
    ¬ Within string size.toNat 0 → ¬ Within printBuf consolePrintBufferSize.toNat 0 →
      (myprintf string size fmt arg base).Bounded string size ∧
        (printk printBuf m fmt arg base).Bounded printBuf := by
  intro h
  have hbounded := h 0x80000 1 0x80000 (fun _ => 0) (['%', '1', '0', '2', '4', 'd'].map ch)
    noArguments 0 (by decide) (by decide) (by decide)
  have hroom := ((printk_bounded_iff _ _ _ _ _ (by decide)).mp hbounded.2).room
  revert hroom
  decide +kernel

end YiOS.Printk
