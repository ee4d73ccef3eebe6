import YiOS.Printk.Compose

namespace YiOS.Printk

open YiOS.Library

/-! A pass reads no more of the format than it takes, and no slots but those it takes. -/

theorem eq_nil_of_short {s v w : List Byte} (h : s ++ v <:+ w) (hle : w.length ≤ v.length) :
    s = [] := by
  have hlength := h.length_le
  rw [List.length_append] at hlength
  exact List.eq_nil_of_length_eq_zero (by omega)

theorem append_of_suffix {s v w : List Byte} (h : s ++ v <:+ w) (hs : s ≠ []) :
    ∃ s' ≠ [], w = s' ++ v := by
  obtain ⟨t, rfl⟩ := h
  exact ⟨t ++ s, List.append_ne_nil_of_right_ne_nil t hs, (List.append_assoc t s v).symm⟩

section

variable {arg arg' : VaList} {s s' v : List Byte} {next next' : Nat}

theorem scanFlags_local {flags flags' : Flags}
    (h : scanFlags flags (s ++ v) = (flags', s' ++ v))
    (hs' : s' ≠ []) (v' : List Byte) : scanFlags flags (s ++ v') = (flags', s' ++ v') := by
  induction s generalizing flags with
  | nil =>
      have hsuffix := suffix_scanFlags flags ([] ++ v)
      rw [h] at hsuffix
      exact absurd (eq_nil_of_short hsuffix (Nat.le_refl _)) hs'
  | cons c s ih =>
      rw [List.cons_append, scanFlags] at h ⊢
      cases hflag : flagOf c with
      | some flag =>
          simp only [hflag] at h ⊢
          exact ih h
      | none =>
          simp only [hflag, Prod.mk.injEq] at h ⊢
          obtain ⟨rfl, hrest⟩ := h
          obtain rfl : c :: s = s' := List.append_cancel_right hrest
          exact ⟨rfl, rfl⟩

theorem scanLoop_local {tmp number : Int32} (h : scanLoop tmp (s ++ v) = (number, s' ++ v))
    (hs' : s' ≠ []) (v' : List Byte) : scanLoop tmp (s ++ v') = (number, s' ++ v') := by
  induction s generalizing tmp with
  | nil =>
      have hsuffix := suffix_scanLoop tmp ([] ++ v)
      rw [h] at hsuffix
      exact absurd (eq_nil_of_short hsuffix (Nat.le_refl _)) hs'
  | cons c s ih =>
      rw [List.cons_append, scanLoop] at h ⊢
      split at h
      next hdigit =>
        rw [if_pos hdigit]
        exact ih h
      next hdigit =>
        rw [if_neg hdigit]
        obtain ⟨rfl, hrest⟩ := Prod.mk.inj h
        obtain rfl : c :: s = s' := List.append_cancel_right hrest
        rfl

theorem scanNumber_local (hrest : (scanNumber (s ++ v)).2 = s' ++ v) (hs' : s' ≠ [])
    (v' : List Byte) : scanNumber (s ++ v') = ((scanNumber (s ++ v)).1, s' ++ v') :=
  scanLoop_local (Prod.ext rfl hrest) hs' v'

theorem int_congr (h : arg'.slot next = arg.slot next) : arg'.int next = arg.int next := by
  rw [VaList.int, VaList.int, h]

theorem fieldWidth_local {flags flags' : Flags} {width : Int32}
    (h : arg.fieldWidth flags (s ++ v) next = (flags', width, s' ++ v, next')) (hs' : s' ≠ [])
    (hslots : ∀ j < next', arg'.slot j = arg.slot j) (v' : List Byte) :
    arg'.fieldWidth flags (s ++ v') next = (flags', width, s' ++ v', next') := by
  cases s with
  | nil =>
      have hsuffix := suffix_fieldWidth arg flags ([] ++ v) next
      rw [h] at hsuffix
      exact absurd (eq_nil_of_short hsuffix (Nat.le_refl _)) hs'
  | cons c s =>
      unfold VaList.fieldWidth at h ⊢
      rw [List.cons_append, List.headD_cons] at h ⊢
      split at h
      next hdigit =>
        rw [if_pos hdigit]
        simp only [Prod.mk.injEq] at h
        obtain ⟨rfl, rfl, hrest, rfl⟩ := h
        have hlocal := scanNumber_local (s := c :: s) hrest hs' v'
        rw [List.cons_append, List.cons_append] at hlocal
        rw [hlocal]
      next hdigit =>
        rw [if_neg hdigit]
        split at h
        next hstar =>
          rw [if_pos hstar]
          have hnext : next + 1 = next' := by
            dsimp only at h
            split at h <;> exact congrArg (fun read => read.2.2.2) h
          rw [int_congr (hslots next (by omega))]
          dsimp only at h ⊢
          split at h
          next hneg =>
            rw [if_pos hneg]
            simp only [Prod.mk.injEq] at h
            obtain ⟨rfl, rfl, hrest, rfl⟩ := h
            obtain rfl : c :: s = s' := List.append_cancel_right hrest
            rfl
          next hneg =>
            rw [if_neg hneg]
            simp only [Prod.mk.injEq] at h
            obtain ⟨rfl, rfl, hrest, rfl⟩ := h
            obtain rfl : c :: s = s' := List.append_cancel_right hrest
            rfl
        next hstar =>
          rw [if_neg hstar]
          simp only [Prod.mk.injEq] at h
          obtain ⟨rfl, rfl, hrest, rfl⟩ := h
          obtain rfl : c :: s = s' := List.append_cancel_right hrest
          rfl

/-- `precision` from the character after the point on, before it is compared with zero. -/
def VaList.dotPrecision (arg : VaList) (fmt : List Byte) (next : Nat) :
    Int32 × List Byte × Nat :=
  if isDigit (fmt.headD 0) then ((scanNumber fmt).1, (scanNumber fmt).2, next)
  else if fmt.headD 0 = ch '*' then (arg.int next, fmt, next + 1)
  else (-1, fmt, next)

theorem precision_eq (arg : VaList) (fmt : List Byte) (next : Nat) :
    arg.precision fmt next =
      if fmt.headD 0 = ch '.' then
        (if (arg.dotPrecision fmt.tail next).1 < 0 then 0 else (arg.dotPrecision fmt.tail next).1,
          (arg.dotPrecision fmt.tail next).2)
      else (-1, fmt, next) := rfl

theorem suffix_dotPrecision (arg : VaList) (fmt : List Byte) (next : Nat) :
    (arg.dotPrecision fmt next).2.1 <:+ fmt := by
  unfold VaList.dotPrecision
  split
  · exact suffix_scanLoop 0 fmt
  · split <;> exact List.suffix_rfl

theorem dotPrecision_local {precision : Int32}
    (h : arg.dotPrecision (s ++ v) next = (precision, s' ++ v, next')) (hs' : s' ≠ [])
    (hslots : ∀ j < next', arg'.slot j = arg.slot j) (v' : List Byte) :
    arg'.dotPrecision (s ++ v') next = (precision, s' ++ v', next') := by
  cases s with
  | nil =>
      have hsuffix := suffix_dotPrecision arg ([] ++ v) next
      rw [h] at hsuffix
      exact absurd (eq_nil_of_short hsuffix (Nat.le_refl _)) hs'
  | cons c s =>
      unfold VaList.dotPrecision at h ⊢
      rw [List.cons_append, List.headD_cons] at h ⊢
      split at h
      next hdigit =>
        rw [if_pos hdigit]
        simp only [Prod.mk.injEq] at h
        obtain ⟨rfl, hrest, rfl⟩ := h
        have hlocal := scanNumber_local (s := c :: s) hrest hs' v'
        rw [List.cons_append, List.cons_append] at hlocal
        rw [hlocal]
      next hdigit =>
        rw [if_neg hdigit]
        split at h
        next hstar =>
          simp only [Prod.mk.injEq] at h
          obtain ⟨rfl, hrest, rfl⟩ := h
          obtain rfl : c :: s = s' := List.append_cancel_right hrest
          rw [if_pos hstar, int_congr (hslots next (Nat.lt_succ_self _))]
          rfl
        next hstar =>
          simp only [Prod.mk.injEq] at h
          obtain ⟨rfl, hrest, rfl⟩ := h
          obtain rfl : c :: s = s' := List.append_cancel_right hrest
          rw [if_neg hstar]
          rfl

theorem precision_local {precision : Int32}
    (h : arg.precision (s ++ v) next = (precision, s' ++ v, next')) (hs' : s' ≠ [])
    (hslots : ∀ j < next', arg'.slot j = arg.slot j) (v' : List Byte) :
    arg'.precision (s ++ v') next = (precision, s' ++ v', next') := by
  cases s with
  | nil =>
      have hshort : (if ([] ++ v).headD 0 = ch '.' then ([] ++ v).tail else [] ++ v).length ≤
          v.length := by
        split
        · exact (List.tail_suffix v).length_le
        · exact Nat.le_refl _
      have hsuffix := suffix_precision arg ([] ++ v) next
      rw [h] at hsuffix
      exact absurd (eq_nil_of_short hsuffix hshort) hs'
  | cons c s =>
      rw [precision_eq, List.cons_append, List.headD_cons, List.tail_cons] at h ⊢
      split at h
      next hdot =>
        obtain ⟨hvalue, hrest⟩ := Prod.mk.inj h
        have hlocal := dotPrecision_local (Prod.ext rfl hrest) hs' hslots v'
        rw [if_pos hdot, hlocal, ← hvalue]
      next hdot =>
        rw [if_neg hdot]
        simp only [Prod.mk.injEq] at h
        obtain ⟨rfl, hrest, rfl⟩ := h
        obtain rfl : c :: s = s' := List.append_cancel_right hrest
        rfl

theorem scanQualifier_local {qualifier : Option Qualifier}
    (h : scanQualifier (s ++ v) = (qualifier, s' ++ v)) (hs' : s' ≠ []) (v' : List Byte) :
    scanQualifier (s ++ v') = (qualifier, s' ++ v') := by
  have htail : v.tail.length ≤ v.length := (List.tail_suffix v).length_le
  cases s with
  | nil =>
      have hsuffix := suffix_scanQualifier ([] ++ v)
      rw [h] at hsuffix
      exact absurd (eq_nil_of_short hsuffix (Nat.le_refl _)) hs'
  | cons c s =>
      unfold scanQualifier at h ⊢
      rw [List.cons_append, List.headD_cons, List.tail_cons] at h ⊢
      split at h
      next hshort =>
        rw [if_pos hshort]
        obtain ⟨rfl, hrest⟩ := Prod.mk.inj h
        obtain rfl : s = s' := List.append_cancel_right hrest
        rfl
      next hshort =>
        rw [if_neg hshort]
        split at h
        next hlong =>
          rw [if_pos hlong]
          cases s with
          | nil =>
              have hrest : s' ++ v <:+ v := by
                split at h
                · exact (Prod.mk.inj h).2 ▸ List.tail_suffix v
                · exact (Prod.mk.inj h).2 ▸ List.suffix_rfl
              exact absurd (eq_nil_of_short hrest (Nat.le_refl _)) hs'
          | cons d s =>
              rw [List.cons_append, List.headD_cons, List.tail_cons] at h ⊢
              split at h
              next hsecond =>
                rw [if_pos hsecond]
                obtain ⟨rfl, hrest⟩ := Prod.mk.inj h
                obtain rfl : s = s' := List.append_cancel_right hrest
                rfl
              next hsecond =>
                rw [if_neg hsecond]
                obtain ⟨rfl, hrest⟩ := Prod.mk.inj h
                obtain rfl : d :: s = s' := List.append_cancel_right hrest
                rfl
        next hlong =>
          rw [if_neg hlong]
          split at h
          next hlongLong =>
            rw [if_pos hlongLong]
            obtain ⟨rfl, hrest⟩ := Prod.mk.inj h
            obtain rfl : s = s' := List.append_cancel_right hrest
            rfl
          next hlongLong =>
            rw [if_neg hlongLong]
            obtain ⟨rfl, hrest⟩ := Prod.mk.inj h
            obtain rfl : c :: s = s' := List.append_cancel_right hrest
            rfl

theorem le_fieldWidth (arg : VaList) (flags : Flags) (fmt : List Byte) (next : Nat) :
    next ≤ (arg.fieldWidth flags fmt next).2.2.2 := by
  unfold VaList.fieldWidth
  split
  · exact Nat.le_refl next
  · split
    · dsimp only
      split <;> exact Nat.le_succ next
    · exact Nat.le_refl next

theorem le_precision (arg : VaList) (fmt : List Byte) (next : Nat) :
    next ≤ (arg.precision fmt next).2.2 := by
  rw [precision_eq]
  split
  · unfold VaList.dotPrecision
    split
    · exact Nat.le_refl next
    · split
      · exact Nat.le_succ next
      · exact Nat.le_refl next
  · exact Nat.le_refl next

theorem directive_local {d : Directive}
    (h : arg.directive (s ++ v) next = (d, s' ++ v, next')) (hs' : s' ≠ [])
    (hslots : ∀ j < next', arg'.slot j = arg.slot j) (v' : List Byte) :
    next ≤ next' ∧ arg'.directive (s ++ v') next = (d, s' ++ v', next') := by
  obtain ⟨⟨flags₁, w₁⟩, hflags⟩ : ∃ read, scanFlags {} (s ++ v) = read := ⟨_, rfl⟩
  obtain ⟨⟨flags₂, width, w₂, next₂⟩, hwidth⟩ :
    ∃ read, arg.fieldWidth flags₁ w₁ next = read := ⟨_, rfl⟩
  obtain ⟨⟨precision, w₃, next₃⟩, hprecision⟩ : ∃ read, arg.precision w₂ next₂ = read :=
    ⟨_, rfl⟩
  obtain ⟨⟨qualifier, w₄⟩, hqualifier⟩ : ∃ read, scanQualifier w₃ = read := ⟨_, rfl⟩
  simp only [VaList.directive, hflags, hwidth, hprecision, hqualifier, Prod.mk.injEq] at h
  obtain ⟨rfl, rfl, rfl⟩ := h
  -- What each scanner leaves ends in the conversion and `v`.
  have hsuffix₃ := suffix_scanQualifier w₃
  rw [hqualifier] at hsuffix₃
  obtain ⟨s₃, hs₃, rfl⟩ := append_of_suffix hsuffix₃ hs'
  have hsuffix₂ : s₃ ++ v <:+ w₂ := by
    have hsuffix := suffix_precision arg w₂ next₂
    rw [hprecision] at hsuffix
    split at hsuffix
    · exact hsuffix.trans (List.tail_suffix w₂)
    · exact hsuffix
  obtain ⟨s₂, hs₂, rfl⟩ := append_of_suffix hsuffix₂ hs₃
  have hsuffix₁ := suffix_fieldWidth arg flags₁ w₁ next
  rw [hwidth] at hsuffix₁
  obtain ⟨s₁, hs₁, rfl⟩ := append_of_suffix hsuffix₁ hs₂
  have hle₂ := le_fieldWidth arg flags₁ (s₁ ++ v) next
  rw [hwidth] at hle₂
  have hle₃ := le_precision arg (s₂ ++ v) next₂
  rw [hprecision] at hle₃
  refine ⟨hle₂.trans hle₃, ?_⟩
  have hslots₂ : ∀ j < next₂, arg'.slot j = arg.slot j := fun j hj =>
    hslots j (Nat.lt_of_lt_of_le hj hle₃)
  simp only [VaList.directive, scanFlags_local hflags hs₁ v',
    fieldWidth_local hwidth hs₂ hslots₂ v', precision_local hprecision hs₃ hslots v',
    scanQualifier_local hqualifier hs' v']

variable {base base' : Int32} {piece : Piece}

theorem scan_percent (arg : VaList) (fmt : List Byte) (next : Nat) (base : Int32) :
    arg.scan { fmt := ch '%' :: fmt, next, base } =
      let (d, fmt, next) := arg.directive fmt next
      (.directive d (fmt.headD 0) base (arg.slot next),
        { fmt := if fmt.headD 0 = 0 then fmt else fmt.tail
          next := next + 1
          base := baseAfter (fmt.headD 0) base }) := by
  unfold VaList.scan
  exact if_neg (not_not.mpr rfl)

theorem pieces_nul (arg : VaList) (n : Nat) {cursor : Cursor}
    (hnul : cursor.fmt.headD 0 = 0) :
    arg.pieces n cursor = ([], cursor) := by
  cases n with
  | zero => rfl
  | succ n => rw [VaList.pieces, if_pos hnul]

/-- A pass that another one follows. -/
theorem scan_local
    (h : arg.scan { fmt := s ++ v, next, base } =
      (piece, { fmt := s' ++ v, next := next', base := base' }))
    (hv : v.headD 0 ≠ 0) (hnul : (s' ++ v).headD 0 ≠ 0) :
    next ≤ next' ∧ ∀ {arg' : VaList}, (∀ j < next', arg'.slot j = arg.slot j) →
      ∀ v', arg'.scan { fmt := s ++ v', next, base } =
        (piece, { fmt := s' ++ v', next := next', base := base' }) := by
  cases s with
  | nil =>
      have hless : (arg.scan { fmt := [] ++ v, next, base }).2.fmt.length <
        ([] ++ v).length :=
        length_scan arg hv
      rw [h] at hless
      simp only [List.nil_append, List.length_append] at hless
      omega
  | cons c s =>
      by_cases hpercent : c = ch '%'
      · subst hpercent
        obtain ⟨⟨d, fmt, next₁⟩, hdirective⟩ : ∃ read, arg.directive (s ++ v) next = read :=
          ⟨_, rfl⟩
        rw [List.cons_append, scan_percent] at h
        simp only [hdirective, Prod.mk.injEq, Cursor.mk.injEq] at h
        obtain ⟨rfl, hrest, rfl, rfl⟩ := h
        have hconversion : fmt.headD 0 ≠ 0 := by
          intro hzero
          rw [if_pos hzero] at hrest
          exact hnul (hrest ▸ hzero)
        rw [if_neg hconversion] at hrest
        obtain ⟨c, rfl⟩ : ∃ c, fmt = (c :: s') ++ v := by
          cases fmt with
          | nil => exact absurd rfl hconversion
          | cons c fmt => exact ⟨c, congrArg (c :: ·) hrest⟩
        refine ⟨?_, fun hslots v' => ?_⟩
        · exact Nat.le_succ_of_le
            (directive_local hdirective (List.cons_ne_nil c s') (fun _ _ => rfl) v).1
        · have hlocal := (directive_local hdirective (List.cons_ne_nil c s')
            (fun j hj => hslots j (Nat.lt_succ_of_lt hj)) v').2
          have hchar : c ≠ 0 := hconversion
          rw [List.cons_append, scan_percent]
          simp only [hlocal, List.cons_append, List.headD_cons, List.tail_cons,
            if_neg hchar,
            hslots next₁ (Nat.lt_succ_self next₁)]
      · rw [List.cons_append, scan_literal arg hpercent] at h
        simp only [Prod.mk.injEq, Cursor.mk.injEq] at h
        obtain ⟨rfl, hrest, rfl, rfl⟩ := h
        obtain rfl : s = s' := List.append_cancel_right hrest
        refine ⟨Nat.le_refl _, fun {arg'} _ v' => ?_⟩
        rw [List.cons_append, scan_literal arg' hpercent]

/-- Passes over a part of the format are the same whatever follows it. -/
theorem pieces_local {pieces : List Piece} {n : Nat}
    (h : arg.pieces n { fmt := s ++ v, next, base } =
      (pieces, { fmt := v, next := next', base := base' })) (hv : v.headD 0 ≠ 0) :
    n ≤ s.length ∧ next ≤ next' ∧ ∀ {arg' : VaList},
      (∀ j < next', arg'.slot j = arg.slot j) →
      ∀ v', arg'.pieces n { fmt := s ++ v', next, base } =
        (pieces, { fmt := v', next := next', base := base' }) := by
  induction n generalizing s next base pieces with
  | zero =>
      simp only [VaList.pieces, Prod.mk.injEq, Cursor.mk.injEq] at h
      obtain ⟨rfl, hrest, rfl, rfl⟩ := h
      obtain rfl : s = [] := List.append_left_eq_self.mp hrest
      exact ⟨Nat.le_refl _, Nat.le_refl _, fun _ _ => rfl⟩
  | succ n ih =>
      rw [VaList.pieces] at h
      split at h
      next hnul =>
        simp only [Prod.mk.injEq, Cursor.mk.injEq] at h
        obtain ⟨_, hrest, _⟩ := h
        obtain rfl : s = [] := List.append_left_eq_self.mp hrest
        exact absurd hnul hv
      next hnul =>
        obtain ⟨⟨piece, fmt, next₁, base₁⟩, hscan⟩ :
          ∃ read, arg.scan { fmt := s ++ v, next, base } = read := ⟨_, rfl⟩
        rw [hscan] at h
        obtain ⟨⟨rest, last⟩, hpieces⟩ :
          ∃ read, arg.pieces n { fmt, next := next₁, base := base₁ } = read := ⟨_, rfl⟩
        simp only [hpieces, Prod.mk.injEq] at h
        obtain ⟨rfl, rfl⟩ := h
        have hsuffix := suffix_pieces arg n { fmt, next := next₁, base := base₁ }
        rw [hpieces] at hsuffix
        obtain ⟨s', rfl⟩ := hsuffix
        obtain ⟨hlength, hle, hrest⟩ := ih hpieces
        have hfollows : (s' ++ v).headD 0 ≠ 0 := by
          intro hzero
          rw [pieces_nul arg n hzero] at hpieces
          have hfmt : s' ++ v = v := congrArg (fun read => read.2.fmt) hpieces
          exact hv (hfmt ▸ hzero)
        obtain ⟨hle₁, hlocal⟩ := scan_local hscan hv hfollows
        have hless := length_scan arg hnul
        rw [hscan] at hless
        simp only [List.length_append] at hless
        refine ⟨by omega, hle₁.trans hle, fun {arg'} hslots v' => ?_⟩
        have hfirst : (s ++ v').headD 0 ≠ 0 := by
          cases s with
          | nil => exact absurd hless (by simp)
          | cons c s => exact hnul
        rw [VaList.pieces, if_neg hfirst,
          hlocal (fun j hj => hslots j (Nat.lt_of_lt_of_le hj hle)) v']
        simp only [hrest hslots v']

end

/-! Passes over what follows, and from a later slot on. -/

theorem pieces_add (arg : VaList) (n k : Nat) (cursor : Cursor) :
    arg.pieces (n + k) cursor =
      ((arg.pieces n cursor).1 ++ (arg.pieces k (arg.pieces n cursor).2).1,
        (arg.pieces k (arg.pieces n cursor).2).2) := by
  induction n generalizing cursor with
  | zero => rw [Nat.zero_add, VaList.pieces, List.nil_append]
  | succ n ih =>
      by_cases hnul : cursor.fmt.headD 0 = 0
      · rw [pieces_nul arg _ hnul, pieces_nul arg _ hnul, pieces_nul arg _ hnul]
        rfl
      · rw [Nat.succ_add, VaList.pieces, VaList.pieces, if_neg hnul]
        simp only [ih, if_neg hnul, List.cons_append]

theorem pieces_enough (arg : VaList) {n : Nat} {cursor : Cursor}
    (hn : cursor.fmt.length ≤ n) :
    arg.pieces n cursor = arg.pieces cursor.fmt.length cursor := by
  obtain ⟨more, rfl⟩ := Nat.exists_eq_add_of_le hn
  rw [pieces_add, pieces_nul arg more (pieces_ends arg (Nat.le_refl _)), List.append_nil]

def Cursor.later (cursor : Cursor) (i : Nat) : Cursor :=
  { cursor with next := i + cursor.next }

theorem fieldWidth_skip (arg : VaList) (i : Nat) (flags : Flags) (fmt : List Byte)
    (next : Nat) :
    arg.fieldWidth flags fmt (i + next) =
      let (flags, width, fmt, next) := (arg.skip i).fieldWidth flags fmt next
      (flags, width, fmt, i + next) := by
  unfold VaList.fieldWidth
  split
  · rfl
  · split
    · have hint : (arg.skip i).int next = arg.int (i + next) := rfl
      simp only [hint]
      split <;> rfl
    · rfl

theorem precision_skip (arg : VaList) (i : Nat) (fmt : List Byte) (next : Nat) :
    arg.precision fmt (i + next) =
      let (precision, fmt, next) := (arg.skip i).precision fmt next
      (precision, fmt, i + next) := by
  rw [precision_eq, precision_eq]
  split
  · unfold VaList.dotPrecision
    split
    · rfl
    · split <;> rfl
  · rfl

theorem scan_skip (arg : VaList) (i : Nat) (cursor : Cursor) :
    arg.scan (cursor.later i) =
      (((arg.skip i).scan cursor).1, ((arg.skip i).scan cursor).2.later i) := by
  unfold VaList.scan Cursor.later
  split
  · rfl
  · simp only [VaList.directive, fieldWidth_skip, precision_skip]
    rfl

theorem pieces_skip (arg : VaList) (i n : Nat) (cursor : Cursor) :
    arg.pieces n (cursor.later i) =
      (((arg.skip i).pieces n cursor).1, ((arg.skip i).pieces n cursor).2.later i) := by
  induction n generalizing cursor with
  | zero => rfl
  | succ n ih =>
      by_cases hnul : cursor.fmt.headD 0 = 0
      · have hlater : (cursor.later i).fmt.headD 0 = 0 := hnul
        rw [pieces_nul _ _ hnul, pieces_nul arg _ hlater]
      · have hlater : (cursor.later i).fmt.headD 0 ≠ 0 := hnul
        rw [VaList.pieces, VaList.pieces, if_neg hnul, if_neg hlater]
        simp only [scan_skip, ih]

end YiOS.Printk
