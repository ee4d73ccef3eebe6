import YiOS.Printk.Local

namespace YiOS.Printk

open YiOS.Library

/-! `%n` against the same format without it. -/

def percentN : List Byte := ['%', 'n'].map ch

/-- The arguments but the one in slot `i`. -/
def VaList.without (arg : VaList) (i : Nat) : VaList :=
  { arg with slot := fun j => if j < i then arg.slot j else arg.slot (j + 1) }

/-- Passes of their own read `before`, come to `k` characters and take `i` slots. -/
def Produces (arg : VaList) (base : Int32) (before after : List Byte) (k i : Nat) : Prop :=
  ∃ n pieces base', arg.pieces n { fmt := before ++ after, next := 0, base } =
      (pieces, { fmt := after, next := i, base := base' }) ∧
    (∀ piece ∈ pieces, piece.Based) ∧ (pieces.map (Piece.length arg)).sum = k

/-- Memory after stores in their order. -/
def written (m : Memory) (stores : List (U64 × Byte)) : Memory :=
  stores.foldl (fun m store => Function.update m store.1 store.2) m

/-- The int at `ip` is the number `k`, and all else is as after the call without the
`%n`. -/
structure Counts (m : Memory) (ip : U64) (k : Nat) (printed absent : Printed) : Prop where
  value : ((written m printed.stores).load32 ip).toInt = k
  around : ∀ b, ¬ Within ip 4 b → written m printed.stores b = written m absent.stores b
  text : printed.stores.filter (fun store => store.1 ≠ ip) = absent.stores
  ret : printed.ret = absent.ret

/-! The outputs. -/

section

variable {arg : VaList} {base : Int32} {before rest : List Byte} {i k : Nat}

theorem scan_percentN (arg : VaList) (fmt : List Byte) (next : Nat) (base : Int32) :
    ∃ piece, arg.scan { fmt := percentN ++ fmt, next, base } =
        (piece, { fmt, next := next + 1, base }) ∧
      piece.outputs arg = [.count (arg.slot next)] :=
  ⟨_, rfl, rfl⟩

theorem without_skip (arg : VaList) (i : Nat) :
    (arg.without i).skip i = arg.skip (i + 1) := by
  have hslot : ((arg.without i).skip i).slot = (arg.skip (i + 1)).slot := by
    funext j
    change (if i + j < i then arg.slot (i + j) else arg.slot (i + j + 1)) =
      arg.slot (i + 1 + j)
    rw [if_neg (by omega), Nat.add_right_comm]
  exact congrArg (fun slot => { arg with slot := slot }) hslot

/-- The passes over what follows find the same pieces. -/
theorem pieces_without (arg : VaList) (i : Nat) (fmt : List Byte) (base : Int32)
    {n n' : Nat}
    (hn : fmt.length ≤ n) (hn' : fmt.length ≤ n') :
    ((arg.without i).pieces n' { fmt, next := i, base }).1 =
      (arg.pieces n { fmt, next := i + 1, base }).1 := by
  have henough : arg.pieces n { fmt, next := i + 1, base } =
      arg.pieces fmt.length { fmt, next := i + 1, base } := pieces_enough arg hn
  have henough' : (arg.without i).pieces n' { fmt, next := i, base } =
      (arg.without i).pieces fmt.length { fmt, next := i, base } := pieces_enough _ hn'
  rw [henough, henough']
  have hleft := pieces_skip (arg.without i) i fmt.length { fmt, next := 0, base }
  have hright := pieces_skip arg (i + 1) fmt.length { fmt, next := 0, base }
  rw [without_skip] at hleft
  exact (congrArg Prod.fst hleft).trans (congrArg Prod.fst hright).symm

theorem passes_percentN
    (h : Produces arg base before (percentN ++ (rest ++ [0])) k i) :
    ∃ out₁ out₂ : List Output,
      (arg.passes ((before ++ percentN ++ rest).length + 1)
        { fmt := before ++ percentN ++ rest ++ [0], next := 0, base }).1 =
          out₁ ++ .count (arg.slot i) :: out₂ ∧
      ((arg.without i).passes ((before ++ rest).length + 1)
        { fmt := before ++ rest ++ [0], next := 0, base }).1 = out₁ ++ out₂ ∧
      Output.null ∉ out₁ ∧ (out₁.map Output.length).sum = k := by
  obtain ⟨n, pieces, base', hpieces, hbased, hsum⟩ := h
  have hpercent : (percentN ++ (rest ++ [0])).headD 0 ≠ 0 := by
    change ch '%' ≠ 0
    decide
  obtain ⟨hlength, _, hlocal⟩ := pieces_local hpieces hpercent
  obtain ⟨piece, hscan, houtputs⟩ := scan_percentN arg (rest ++ [0]) i base'
  have habsent : (arg.without i).pieces n
    { fmt := before ++ (rest ++ [0]), next := 0, base } =
      (pieces, { fmt := rest ++ [0], next := i, base := base' }) :=
    hlocal (fun j hj => if_pos hj) _
  have hfuel : (before ++ percentN ++ rest).length + 1 =
      n + (before.length - n + rest.length + 2 + 1) := by
    have htwo : percentN.length = 2 := rfl
    simp only [List.length_append, htwo]
    omega
  have hfuel' : (before ++ rest).length + 1 = n +
    (before.length - n + rest.length + 1) := by
    rw [List.length_append]
    omega
  refine ⟨pieces.flatMap (Piece.outputs arg),
    (arg.pieces (before.length - n + rest.length + 2)
      { fmt := rest ++ [0], next := i + 1, base := base' }).1.flatMap (Piece.outputs arg),
    ?_, ?_, ?_, ?_⟩
  · rw [passes_eq, hfuel, List.append_assoc, List.append_assoc, pieces_add, hpieces,
      VaList.pieces, if_neg hpercent, hscan, List.flatMap_append,
        List.flatMap_cons, houtputs]
    rfl
  · have hfull : (rest ++ [0]).length ≤ before.length - n + rest.length + 1 := by
      simp only [List.length_append, List.length_singleton]
      omega
    have hsame := pieces_without arg i (rest ++ [0]) base' (Nat.le_succ_of_le hfull) hfull
    rw [passes_eq, hfuel', List.append_assoc, pieces_add, habsent,
      List.flatMap_append, hsame]
    rfl
  · intro hmem
    obtain ⟨piece, hpiece, houtput⟩ := List.mem_flatMap.mp hmem
    exact (length_outputs arg (hbased piece hpiece)).1 houtput
  · rw [map_sum_flatMap pieces arg hbased, hsum]

end

/-! The stores. -/

theorem written_append (m : Memory) (stores stores' : List (U64 × Byte)) :
    written m (stores ++ stores') = written (written m stores) stores' := List.foldl_append

theorem written_cons (m : Memory) (store : U64 × Byte) (stores : List (U64 × Byte)) :
    written m (store :: stores) = written (Function.update m store.1 store.2) stores := rfl

theorem written_of_free {m : Memory} {stores : List (U64 × Byte)} {b : U64}
    (h : ∀ store ∈ stores, store.1 ≠ b) : written m stores b = m b := by
  induction stores generalizing m with
  | nil => rfl
  | cons store stores ih =>
      obtain ⟨hfirst, hrest⟩ := List.forall_mem_cons.mp h
      exact (ih hrest).trans (Function.update_of_ne hfirst.symm _ _)

/-- What stores leave at an address depends on what was there alone. -/
theorem written_congr {m m' : Memory} {b : U64} (h : m' b = m b)
    (stores : List (U64 × Byte)) :
    written m' stores b = written m stores b := by
  induction stores generalizing m m' with
  | nil => exact h
  | cons store stores ih =>
      rw [written_cons, written_cons]
      refine ih ?_
      by_cases hstore : b = store.1
      · rw [hstore, Function.update_self, Function.update_self]
      · rw [Function.update_of_ne hstore, Function.update_of_ne hstore, h]

/-- The stores so far have no part in the ones to come. -/
theorem foldl_write (string : U64) (out : List Output) (pos : U64)
    (stores : List (U64 × Byte)) :
    out.foldl (Output.write string) { pos, stores } =
      { pos := (out.foldl (Output.write string) { pos, stores := [] }).pos
        stores := stores ++ (out.foldl (Output.write string) { pos, stores := [] }).stores } := by
  induction out generalizing pos stores with
  | nil => simp
  | cons output out ih =>
      cases output with
      | text text =>
          simp only [List.foldl_cons, Output.write, List.nil_append]
          rw [ih, ih _ (placeText pos text), List.append_assoc]
      | count ip =>
          simp only [List.foldl_cons, Output.write, List.nil_append]
          rw [ih, ih _ [(ip, (pos - string).setWidth 8)], List.append_assoc]
      | null =>
          simp only [List.foldl_cons, Output.write]
          exact ih 0 stores

theorem printed_percentN {arg : VaList} {base : Int32} {before rest : List Byte} {i k : Nat}
    (string : U64) (size : BitVec 32)
    (h : Produces arg base before (percentN ++ (rest ++ [0])) k i) :
    ∃ stores₁ stores₂,
      (myprintf string size (before ++ percentN ++ rest) arg base).stores =
        stores₁ ++ (arg.slot i, BitVec.ofNat 8 k) :: stores₂ ∧
      (myprintf string size (before ++ rest) (arg.without i) base).stores =
        stores₁ ++ stores₂ ∧
      (myprintf string size (before ++ percentN ++ rest) arg base).ret =
        (myprintf string size (before ++ rest) (arg.without i) base).ret := by
  obtain ⟨out₁, out₂, hprinted, habsent, hnull, hsum⟩ := passes_percentN h
  have hpos : (out₁.foldl (Output.write string) { pos := string, stores := [] }).pos =
      string + BitVec.ofNat 64 k := by
    rw [pos_foldl string _ hnull, hsum]
  have hbyte : (string + BitVec.ofNat 64 k - string).setWidth 8 = BitVec.ofNat 8 k := by
    rw [BitVec.add_comm, BitVec.add_sub_cancel, BitVec.setWidth_ofNat_of_le (by omega)]
  obtain ⟨⟨pos, stores₁⟩, hfirst⟩ : ∃ w,
      out₁.foldl (Output.write string) { pos := string, stores := [] } = w := ⟨_, rfl⟩
  rw [hfirst] at hpos
  obtain rfl : pos = _ := hpos
  obtain ⟨⟨last, stores₂⟩, hsecond⟩ : ∃ w, out₂.foldl (Output.write string)
      { pos := string + BitVec.ofNat 64 k, stores := [] } = w := ⟨_, rfl⟩
  refine ⟨stores₁, stores₂ ++ [(last, 0)], ?_, ?_, ?_⟩
  · unfold myprintf
    simp only [hprinted, List.foldl_append, List.foldl_cons, hfirst, Output.write, hbyte]
    rw [foldl_write, hsecond]
    simp only [List.append_assoc, List.cons_append, List.nil_append]
  · unfold myprintf
    simp only [habsent, List.foldl_append, hfirst]
    rw [foldl_write, hsecond]
    simp only [List.append_assoc]
  · unfold myprintf
    simp only [hprinted, habsent, List.foldl_append, List.foldl_cons, hfirst, Output.write]
    rw [foldl_write, foldl_write string out₂ _ stores₁]

theorem toInt_eq_iff (x : BitVec 32) {k : Nat} (hk : k < 2 ^ 31) :
    x.toInt = k ↔ x = BitVec.ofNat 32 k := by
  have hnumber : (BitVec.ofNat 32 k).toInt = k := by
    rw [BitVec.toInt_ofNat']
    exact Int.bmod_eq_of_le (by omega) (by omega)
  rw [← hnumber]
  exact BitVec.toInt_inj

section

variable {arg : VaList} {base : Int32} {before rest : List Byte} {i k : Nat}

/-- A number whose bits above the low byte are those of the int before the call is stored;
the rest is as it should be whatever the number is. -/
theorem counts_iff (m : Memory) (string : U64) (size : BitVec 32)
    (h : Produces arg base before (percentN ++ (rest ++ [0])) k i) (hk : k < 2 ^ 31)
    (hfree : ∀ store ∈ (myprintf string size (before ++ rest) (arg.without i) base).stores,
      ¬ Within (arg.slot i) 4 store.1) :
    Counts m (arg.slot i) k (myprintf string size (before ++ percentN ++ rest) arg base)
        (myprintf string size (before ++ rest) (arg.without i) base) ↔
      (m.load32 (arg.slot i)).toNat / 2 ^ 8 = k / 2 ^ 8 := by
  obtain ⟨stores₁, stores₂, hprinted, habsent, hret⟩ := printed_percentN string size h
  rw [habsent, List.forall_mem_append] at hfree
  obtain ⟨hfree₁, hfree₂⟩ := hfree
  have hip : Within (arg.slot i) 4 (arg.slot i) := by simp [Within]
  have hkept : ∀ b, Within (arg.slot i) 4 b → written m (stores₁ ++ stores₂) b = m b := by
    intro b hb
    apply written_of_free
    rw [List.forall_mem_append]
    exact ⟨fun store hstore heq => hfree₁ store hstore (heq ▸ hb),
      fun store hstore heq => hfree₂ store hstore (heq ▸ hb)⟩
  have hother : ∀ b, b ≠ arg.slot i →
      written m (stores₁ ++ (arg.slot i, BitVec.ofNat 8 k) :: stores₂) b =
        written m (stores₁ ++ stores₂) b := by
    intro b hb
    rw [written_append, written_append, written_cons]
    exact written_congr (Function.update_of_ne hb _ _) stores₂
  have hbyte : written m (stores₁ ++ (arg.slot i, BitVec.ofNat 8 k) :: stores₂)
    (arg.slot i) =
      (BitVec.ofNat 32 k).setWidth 8 := by
    rw [written_append, written_cons, BitVec.setWidth_ofNat_of_le (by omega)]
    refine (written_of_free fun store hstore heq => ?_).trans (Function.update_self _ _ _)
    exact hfree₂ store hstore (heq ▸ hip)
  have hvalue := Memory.load32_low_byte hbyte (m := m) fun b hb hne =>
    (hother b hne).trans (hkept b hb)
  rw [BitVec.toNat_ofNat, Nat.mod_eq_of_lt (by omega), ← toInt_eq_iff _ hk] at hvalue
  have hne : ∀ stores : List (U64 × Byte),
    (∀ store ∈ stores, ¬ Within (arg.slot i) 4 store.1) →
      stores.filter (fun store => store.1 ≠ arg.slot i) = stores := by
    intro stores hstores
    refine List.filter_eq_self.mpr fun store hstore => ?_
    simpa using fun heq : store.1 = arg.slot i => hstores store hstore (heq ▸ hip)
  constructor
  · intro hcounts
    have hload := hcounts.value
    rw [hprinted] at hload
    exact hvalue.mp hload
  · intro hhigh
    refine ⟨?_, ?_, ?_, hret⟩
    · rw [hprinted]
      exact hvalue.mpr hhigh
    · intro b hb
      rw [hprinted, habsent]
      exact hother b fun heq => hb (heq ▸ hip)
    · rw [hprinted, habsent, List.filter_append, List.filter_cons_of_neg (by simp),
        hne stores₁ hfree₁, hne stores₂ hfree₂]

end

theorem free_of_all {stores : List (U64 × Byte)} {ip : U64}
    (h : stores.all fun store => decide (¬ Within ip 4 store.1)) :
    ∀ store ∈ stores, ¬ Within ip 4 store.1 :=
  fun store hstore => of_decide_eq_true (List.all_eq_true.mp h store hstore)

/-- One argument, which points to an int at `0x1000`. -/
def countArguments : VaList := { slot := fun _ => 0x1000, string := fun _ => [] }

theorem counts_iff_two : Produces countArguments 0 (['o', 'k'].map ch)
      (percentN ++ ([] ++ [0])) 2 0 ∧
    (Counts (fun _ => 0) 0x1000 2
        (myprintf 0x80000 4 (['o', 'k'].map ch ++ percentN ++ []) countArguments 0)
        (myprintf 0x80000 4 (['o', 'k'].map ch ++ []) (countArguments.without 0) 0) ↔
      (Memory.load32 (fun _ => 0) 0x1000).toNat / 2 ^ 8 = 2 / 2 ^ 8) := by
  have hproduces : Produces countArguments 0 (['o', 'k'].map ch) (percentN ++ ([] ++ [0])) 2 0 :=
    ⟨2, _, 0, rfl, by decide +kernel, by decide +kernel⟩
  exact ⟨hproduces, counts_iff _ _ _ hproduces (by decide) (free_of_all (by decide +kernel))⟩

/-- `%n` alone, into an int that holds 256. -/
theorem not_counts : ¬ ∀ (m : Memory) (string : U64) (size : BitVec 32) (arg : VaList)
    (base : Int32) (before rest : List Byte) (k i : Nat),
    Produces arg base before (percentN ++ (rest ++ [0])) k i → k < 2 ^ 31 →
    k + 1 ≤ size.toNat →
    (∀ store ∈ (myprintf string size (before ++ rest) (arg.without i) base).stores,
      ¬ Within (arg.slot i) 4 store.1) →
    Counts m (arg.slot i) k (myprintf string size (before ++ percentN ++ rest) arg base)
      (myprintf string size (before ++ rest) (arg.without i) base) := by
  intro h
  have hcounts := h (fun b => if b = 0x1001 then 1 else 0) 0x80000 1 countArguments 0 [] [] 0 0
    ⟨0, [], 0, rfl, by decide, rfl⟩ (by decide) (by decide)
    (free_of_all (by decide +kernel))
  have hvalue := hcounts.value
  revert hvalue
  decide +kernel

end YiOS.Printk
