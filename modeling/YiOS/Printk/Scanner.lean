import YiOS.Printk.Escapes

namespace YiOS.Printk

open YiOS.Library

/-! The format cursor of `myprintf` as an offset into memory, which goes on behind the
NUL. -/

/-- Where the scanner is: `second` is the test for the second `l`, `advance` the `fmt++` of
the `for`. -/
inductive Point where
  | loop
  | flags
  | width
  | widthNumber
  | precision
  | precisionDigit
  | precisionNumber
  | qualifier
  | second
  | conversion
  | advance
  deriving DecidableEq, Repr

/-- Every statement that moves the cursor or looks through it to go on. -/
def cursorStep (m : Nat → Byte) : Point × Nat → Option (Point × Nat)
  | (.loop, i) =>
      if m i = 0 then none
      else if m i ≠ ch '%' then some (.advance, i)
      else some (.flags, i)
  | (.flags, i) =>
      match flagOf (m (i + 1)) with
      | some _ => some (.flags, i + 1)
      | none => some (.width, i + 1)
  | (.width, i) => if isDigit (m i) then some (.widthNumber, i) else some (.precision, i)
  | (.widthNumber, i) =>
      if isDigit (m i) then some (.widthNumber, i + 1) else some (.precision, i)
  | (.precision, i) =>
      if m i = ch '.' then some (.precisionDigit, i + 1) else some (.qualifier, i)
  | (.precisionDigit, i) =>
      if isDigit (m i) then some (.precisionNumber, i) else some (.qualifier, i)
  | (.precisionNumber, i) =>
      if isDigit (m i) then some (.precisionNumber, i + 1) else some (.qualifier, i)
  | (.qualifier, i) =>
      if m i = ch 'h' then some (.conversion, i + 1)
      else if m i = ch 'l' then some (.second, i + 1)
      else if m i = ch 'L' then some (.conversion, i + 1)
      else some (.conversion, i)
  | (.second, i) => if m i = ch 'l' then some (.conversion, i + 1) else some (.conversion, i)
  | (.conversion, i) =>
      if conversionOf (m i) = none ∧ m i = 0 then some (.advance, i - 1)
      else some (.advance, i)
  | (.advance, i) => some (.loop, i + 1)

/-- The states up to the one in which the loop ends. -/
def cursorTrace (m : Nat → Byte) : Nat → Point × Nat → Option (List (Point × Nat))
  | 0, _ => none
  | fuel + 1, s =>
      match cursorStep m s with
      | none => some [s]
      | some s' => (cursorTrace m fuel s').map (s :: ·)

/-- Where the loop looks for the NUL. -/
def heads (states : List (Point × Nat)) : List Nat :=
  (states.filter fun s => s.1 = .loop).map Prod.snd

/-- The format is at the offset zero, with its NUL; what follows is not of it. -/
structure Stored (m : Nat → Byte) (fmt : List Byte) : Prop where
  byte : ∀ i ≤ fmt.length, (fmt ++ [0])[i]? = some (m i)
  text : ∀ c ∈ fmt, c ≠ 0

/-- The pointer to the offset `i` as the model of `myprintf` has it. -/
def rest (fmt : List Byte) (i : Nat) : List Byte := (fmt ++ [0]).drop i

/-! The list behind each point. -/

/-- Past the conversion, and by the step back to the NUL again. -/
def pastConversion (fmt : List Byte) : List Byte :=
  if fmt.headD 0 = 0 then fmt else fmt.tail

def pastQualifier (fmt : List Byte) : List Byte := pastConversion (scanQualifier fmt).2

def pastNumber (fmt : List Byte) : List Byte := (scanNumber fmt).2

def pastPrecision (fmt : List Byte) : List Byte :=
  pastQualifier (if fmt.headD 0 = ch '.' then
    if isDigit (fmt.tail.headD 0) then pastNumber fmt.tail else fmt.tail
  else fmt)

def pastWidth (fmt : List Byte) : List Byte :=
  pastPrecision (if isDigit (fmt.headD 0) then pastNumber fmt else fmt)

/-- The cursor at the next look for the NUL. -/
def ahead (fmt : List Byte) : Point × Nat → List Byte
  | (.loop, i) => rest fmt i
  | (.flags, i) => pastWidth (scanFlags {} (rest fmt (i + 1))).2
  | (.width, i) => pastWidth (rest fmt i)
  | (.widthNumber, i) => pastPrecision (pastNumber (rest fmt i))
  | (.precision, i) => pastPrecision (rest fmt i)
  | (.precisionDigit, i) =>
      pastQualifier (if isDigit ((rest fmt i).headD 0) then pastNumber (rest fmt i)
        else rest fmt i)
  | (.precisionNumber, i) => pastQualifier (pastNumber (rest fmt i))
  | (.qualifier, i) => pastQualifier (rest fmt i)
  | (.second, i) =>
      pastConversion (if (rest fmt i).headD 0 = ch 'l' then (rest fmt i).tail else rest fmt i)
  | (.conversion, i) => pastConversion (rest fmt i)
  | (.advance, i) => rest fmt (i + 1)

theorem scanFlags_snd (flags flags' : Flags) (fmt : List Byte) :
    (scanFlags flags fmt).2 = (scanFlags flags' fmt).2 := by
  induction fmt generalizing flags flags' with
  | nil => rfl
  | cons c fmt ih =>
      rw [scanFlags, scanFlags]
      split
      next flag _ => exact ih _ _
      next => rfl

theorem scanLoop_snd (tmp tmp' : Int32) (string : List Byte) :
    (scanLoop tmp string).2 = (scanLoop tmp' string).2 := by
  induction string generalizing tmp tmp' with
  | nil => rfl
  | cons c string ih =>
      rw [scanLoop, scanLoop]
      split
      · exact ih _ _
      · rfl

theorem fieldWidth_rest (arg : VaList) (flags : Flags) (fmt : List Byte) (next : Nat) :
    (arg.fieldWidth flags fmt next).2.2.1 =
      if isDigit (fmt.headD 0) then pastNumber fmt else fmt := by
  unfold VaList.fieldWidth
  split
  · rfl
  · split
    · dsimp only
      split <;> rfl
    · rfl

theorem precision_rest (arg : VaList) (fmt : List Byte) (next : Nat) :
    (arg.precision fmt next).2.1 =
      if fmt.headD 0 = ch '.' then
        if isDigit (fmt.tail.headD 0) then pastNumber fmt.tail else fmt.tail
      else fmt := by
  unfold VaList.precision
  split
  · dsimp only
    split
    · rfl
    · split <;> rfl
  · rfl

/-- The arguments do not move the cursor. -/
theorem scan_directive_rest (arg : VaList) {cursor : Cursor}
    (hpercent : cursor.fmt.headD 0 = ch '%') :
    (arg.scan cursor).2.fmt = pastWidth (scanFlags {} cursor.fmt.tail).2 := by
  unfold VaList.scan
  rw [if_neg (not_not.mpr hpercent)]
  simp only [VaList.directive, precision_rest, fieldWidth_rest]
  rfl

theorem pastNumber_cons (c : Byte) (fmt : List Byte) :
    pastNumber (c :: fmt) = if isDigit c then pastNumber fmt else c :: fmt := by
  unfold pastNumber scanNumber
  rw [scanLoop]
  split
  · exact scanLoop_snd _ _ _
  · rfl

theorem pastFlags_cons (c : Byte) (fmt : List Byte) :
    (scanFlags {} (c :: fmt)).2 =
      if (flagOf c).isSome then (scanFlags {} fmt).2 else c :: fmt := by
  rw [scanFlags]
  cases flagOf c with
  | none => rfl
  | some flag => exact scanFlags_snd _ _ _

/-! One step. -/

namespace Stored

variable {m : Nat → Byte} {fmt : List Byte} {start i : Nat}

theorem rest_cons (h : Stored m fmt) (hi : i ≤ fmt.length) :
    rest fmt i = m i :: rest fmt (i + 1) := by
  obtain ⟨hlt, hget⟩ := List.getElem?_eq_some_iff.mp (h.byte i hi)
  rw [rest, List.drop_eq_getElem_cons hlt, hget]
  rfl

theorem nul (h : Stored m fmt) : m fmt.length = 0 := by
  have hbyte := h.byte fmt.length (Nat.le_refl _)
  rw [List.getElem?_append_right (Nat.le_refl _), Nat.sub_self] at hbyte
  exact (Option.some.inj hbyte).symm

theorem ne_zero (h : Stored m fmt) (hi : i < fmt.length) : m i ≠ 0 := by
  have hbyte := h.byte i (Nat.le_of_lt hi)
  rw [List.getElem?_append_left hi] at hbyte
  exact h.text _ (List.mem_of_getElem? hbyte)

theorem lt_of_ne (h : Stored m fmt) (hi : i ≤ fmt.length) (hne : m i ≠ 0) :
    i < fmt.length :=
  Nat.lt_of_le_of_ne hi fun heq => hne (heq ▸ h.nul)

end Stored

/-- Inside of the pass that began at `start`, or at its end. -/
def Inside (len start : Nat) : Point × Nat → Prop
  | (.flags, i) | (.advance, i) => start ≤ i ∧ i < len
  | (_, i) => start < i ∧ i ≤ len

/-- Steps to come: at the flags and at `fmt++` the character of the offset is done with. -/
def stepsLeft (len : Nat) : Point × Nat → Nat
  | (.loop, i) => 11 * (len - i)
  | (.advance, i) => 11 * (len - (i + 1)) + 1
  | (.conversion, i) => 11 * (len - i) + 2
  | (.second, i) => 11 * (len - i) + 3
  | (.qualifier, i) => 11 * (len - i) + 4
  | (.precisionNumber, i) => 11 * (len - i) + 5
  | (.precisionDigit, i) => 11 * (len - i) + 6
  | (.precision, i) => 11 * (len - i) + 7
  | (.widthNumber, i) => 11 * (len - i) + 8
  | (.width, i) => 11 * (len - i) + 9
  | (.flags, i) => 11 * (len - (i + 1)) + 10

theorem Inside.le (h : Inside len start s) : s.2 ≤ len := by
  obtain ⟨point, i⟩ := s
  cases point with
  | flags => exact Nat.le_of_lt h.2
  | advance => exact Nat.le_of_lt h.2
  | _ => exact h.2

/-- What a step inside of a pass keeps. -/
structure Steps (fmt : List Byte) (start : Nat) (s s' : Point × Nat) : Prop where
  inside : Inside fmt.length start s'
  ahead : ahead fmt s' = ahead fmt s
  less : stepsLeft fmt.length s' < stepsLeft fmt.length s

theorem isDigit_zero : isDigit 0 = false := by decide

theorem flagOf_zero : flagOf 0 = none := by decide

theorem conversionOf_zero : conversionOf 0 = none := by decide

section

variable {m : Nat → Byte} {fmt : List Byte} {start i : Nat}

theorem steps_flags (h : Stored m fmt) (hs : Inside fmt.length start (.flags, i)) :
    ∃ s', cursorStep m (.flags, i) = some s' ∧ Steps fmt start (.flags, i) s' := by
  obtain ⟨hlow, hhigh⟩ : start ≤ i ∧ i < fmt.length := hs
  have hcons := h.rest_cons (Nat.succ_le_of_lt hhigh)
  rw [cursorStep]
  cases hflag : flagOf (m (i + 1)) with
  | some flag =>
      have hne : m (i + 1) ≠ 0 := by
        intro hzero
        rw [hzero, flagOf_zero] at hflag
        cases hflag
      have hlt := h.lt_of_ne (Nat.succ_le_of_lt hhigh) hne
      refine ⟨_, rfl, ⟨Nat.le_succ_of_le hlow, hlt⟩, ?_, ?_⟩
      · rw [ahead, ahead, hcons, pastFlags_cons, hflag]
        rfl
      · simp only [stepsLeft]
        omega
  | none =>
      refine ⟨_, rfl, ⟨Nat.lt_succ_of_le hlow, hhigh⟩, ?_, ?_⟩
      · rw [ahead, ahead, hcons, pastFlags_cons, hflag]
        rfl
      · simp only [stepsLeft]
        omega

theorem lt_of_digit (h : Stored m fmt) (hi : i ≤ fmt.length) (hdigit : isDigit (m i)) :
    i < fmt.length := by
  refine h.lt_of_ne hi fun hzero => ?_
  rw [hzero, isDigit_zero] at hdigit
  cases hdigit

theorem steps_width (h : Stored m fmt) (hs : Inside fmt.length start (.width, i)) :
    ∃ s', cursorStep m (.width, i) = some s' ∧ Steps fmt start (.width, i) s' := by
  have hcons := h.rest_cons hs.2
  rw [cursorStep]
  split
  next hdigit =>
    refine ⟨_, rfl, hs, ?_, Nat.lt_succ_self _⟩
    rw [ahead, ahead, pastWidth, hcons, List.headD_cons, if_pos hdigit]
  next hdigit =>
    refine ⟨_, rfl, hs, ?_, by simp only [stepsLeft]; omega⟩
    rw [ahead, ahead, pastWidth, hcons, List.headD_cons, if_neg hdigit]

theorem steps_widthNumber (h : Stored m fmt)
    (hs : Inside fmt.length start (.widthNumber, i)) :
    ∃ s', cursorStep m (.widthNumber, i) = some s' ∧
      Steps fmt start (.widthNumber, i) s' := by
  have hcons := h.rest_cons hs.2
  rw [cursorStep]
  split
  next hdigit =>
    have hlt := lt_of_digit h hs.2 hdigit
    refine ⟨_, rfl, ⟨Nat.lt_succ_of_lt hs.1, hlt⟩, ?_, by simp only [stepsLeft]; omega⟩
    rw [ahead, ahead, hcons, pastNumber_cons, if_pos hdigit]
  next hdigit =>
    refine ⟨_, rfl, hs, ?_, Nat.lt_succ_self _⟩
    rw [ahead, ahead, hcons, pastNumber_cons, if_neg hdigit]

theorem steps_precision (h : Stored m fmt) (hs : Inside fmt.length start (.precision, i)) :
    ∃ s', cursorStep m (.precision, i) = some s' ∧ Steps fmt start (.precision, i) s' := by
  have hcons := h.rest_cons hs.2
  rw [cursorStep]
  split
  next hdot =>
    have hlt := h.lt_of_ne hs.2 (by rw [hdot]; decide)
    refine ⟨_, rfl, ⟨Nat.lt_succ_of_lt hs.1, hlt⟩, ?_, by simp only [stepsLeft]; omega⟩
    rw [ahead, ahead, pastPrecision, hcons, List.headD_cons, if_pos hdot, List.tail_cons]
  next hdot =>
    refine ⟨_, rfl, hs, ?_, by simp only [stepsLeft]; omega⟩
    rw [ahead, ahead, pastPrecision, hcons, List.headD_cons, if_neg hdot]

theorem steps_precisionDigit (h : Stored m fmt)
    (hs : Inside fmt.length start (.precisionDigit, i)) :
    ∃ s', cursorStep m (.precisionDigit, i) = some s' ∧
      Steps fmt start (.precisionDigit, i) s' := by
  have hcons := h.rest_cons hs.2
  rw [cursorStep]
  split
  next hdigit =>
    refine ⟨_, rfl, hs, ?_, Nat.lt_succ_self _⟩
    rw [ahead, ahead, hcons, List.headD_cons, if_pos hdigit]
  next hdigit =>
    refine ⟨_, rfl, hs, ?_, by simp only [stepsLeft]; omega⟩
    rw [ahead, ahead, hcons, List.headD_cons, if_neg hdigit]

theorem steps_precisionNumber (h : Stored m fmt)
    (hs : Inside fmt.length start (.precisionNumber, i)) :
    ∃ s', cursorStep m (.precisionNumber, i) = some s' ∧
      Steps fmt start (.precisionNumber, i) s' := by
  have hcons := h.rest_cons hs.2
  rw [cursorStep]
  split
  next hdigit =>
    have hlt := lt_of_digit h hs.2 hdigit
    refine ⟨_, rfl, ⟨Nat.lt_succ_of_lt hs.1, hlt⟩, ?_, by simp only [stepsLeft]; omega⟩
    rw [ahead, ahead, hcons, pastNumber_cons, if_pos hdigit]
  next hdigit =>
    refine ⟨_, rfl, hs, ?_, Nat.lt_succ_self _⟩
    rw [ahead, ahead, hcons, pastNumber_cons, if_neg hdigit]

theorem steps_qualifier (h : Stored m fmt) (hs : Inside fmt.length start (.qualifier, i)) :
    ∃ s', cursorStep m (.qualifier, i) = some s' ∧ Steps fmt start (.qualifier, i) s' := by
  have hcons := h.rest_cons hs.2
  have hmove : m i ≠ 0 → start < i + 1 ∧ i + 1 ≤ fmt.length := fun hne =>
    ⟨Nat.lt_succ_of_lt hs.1, h.lt_of_ne hs.2 hne⟩
  have hahead : ahead fmt (.qualifier, i) = pastConversion (scanQualifier (rest fmt i)).2 :=
    rfl
  rw [scanQualifier, hcons, List.headD_cons, List.tail_cons] at hahead
  rw [cursorStep]
  split
  next hchar =>
    have hinside := hmove (by rw [hchar]; decide)
    refine ⟨_, rfl, hinside, ?_, by simp only [stepsLeft]; omega⟩
    rw [hahead, if_pos hchar]
    rfl
  next hshort =>
    rw [if_neg hshort] at hahead
    split
    next hchar =>
      have hinside := hmove (by rw [hchar]; decide)
      refine ⟨_, rfl, hinside, ?_, by simp only [stepsLeft]; omega⟩
      rw [hahead, if_pos hchar, ahead]
      split <;> rfl
    next hlong =>
      rw [if_neg hlong] at hahead
      split
      next hchar =>
        have hinside := hmove (by rw [hchar]; decide)
        refine ⟨_, rfl, hinside, ?_, by simp only [stepsLeft]; omega⟩
        rw [hahead, if_pos hchar]
        rfl
      next hlongLong =>
        refine ⟨_, rfl, hs, ?_, by simp only [stepsLeft]; omega⟩
        rw [hahead, if_neg hlongLong, ahead, hcons]

theorem steps_second (h : Stored m fmt) (hs : Inside fmt.length start (.second, i)) :
    ∃ s', cursorStep m (.second, i) = some s' ∧ Steps fmt start (.second, i) s' := by
  have hcons := h.rest_cons hs.2
  rw [cursorStep]
  split
  next hchar =>
    have hlt := h.lt_of_ne hs.2 (by rw [hchar]; decide)
    refine ⟨_, rfl, ⟨Nat.lt_succ_of_lt hs.1, hlt⟩, ?_, by simp only [stepsLeft]; omega⟩
    rw [ahead, ahead, hcons, List.headD_cons, if_pos hchar, List.tail_cons]
  next hchar =>
    refine ⟨_, rfl, hs, ?_, Nat.lt_succ_self _⟩
    rw [ahead, ahead, hcons, List.headD_cons, if_neg hchar]

/-- The step back at the NUL stays behind the beginning of the pass. -/
theorem steps_conversion (h : Stored m fmt)
    (hs : Inside fmt.length start (.conversion, i)) :
    ∃ s', cursorStep m (.conversion, i) = some s' ∧
      Steps fmt start (.conversion, i) s' := by
  obtain ⟨hlow, hhigh⟩ : start < i ∧ i ≤ fmt.length := hs
  have hcons := h.rest_cons hhigh
  have hback : i - 1 + 1 = i := by omega
  rw [cursorStep]
  split
  next hnul =>
    refine ⟨_, rfl, ⟨by omega, by omega⟩, ?_, by simp only [stepsLeft, hback]; omega⟩
    rw [ahead, ahead, hback, pastConversion, hcons, List.headD_cons, if_pos hnul.2]
  next hnul =>
    have hne : m i ≠ 0 := fun hzero => hnul ⟨by rw [hzero]; exact conversionOf_zero, hzero⟩
    have hlt := h.lt_of_ne hhigh hne
    refine ⟨_, rfl, ⟨Nat.le_of_lt hlow, hlt⟩, ?_, by simp only [stepsLeft]; omega⟩
    rw [ahead, ahead, pastConversion, hcons, List.headD_cons, if_neg hne, List.tail_cons]

theorem steps_advance (hs : Inside fmt.length start (.advance, i)) :
    ∃ s', cursorStep m (.advance, i) = some s' ∧ Steps fmt start (.advance, i) s' :=
  ⟨_, rfl, ⟨Nat.lt_succ_of_le hs.1, hs.2⟩, rfl, Nat.lt_succ_self _⟩

/-- Before its end a pass goes on. -/
theorem inside_steps (h : Stored m fmt) {s : Point × Nat} (hs : Inside fmt.length start s)
    (hloop : s.1 ≠ .loop) : ∃ s', cursorStep m s = some s' ∧ Steps fmt start s s' := by
  obtain ⟨point, i⟩ := s
  cases point with
  | loop => exact absurd rfl hloop
  | flags => exact steps_flags h hs
  | width => exact steps_width h hs
  | widthNumber => exact steps_widthNumber h hs
  | precision => exact steps_precision h hs
  | precisionDigit => exact steps_precisionDigit h hs
  | precisionNumber => exact steps_precisionNumber h hs
  | qualifier => exact steps_qualifier h hs
  | second => exact steps_second h hs
  | conversion => exact steps_conversion h hs
  | advance => exact steps_advance hs

/-- A pass begins where the loop finds a character, and is to end where `arg.pass` does. -/
theorem loop_steps (h : Stored m fmt) (hi : i < fmt.length) :
    ∃ s', cursorStep m (.loop, i) = some s' ∧ Inside fmt.length i s' ∧
      stepsLeft fmt.length s' < stepsLeft fmt.length (.loop, i) ∧
      ∀ (arg : VaList) (cursor : Cursor), cursor.fmt = rest fmt i →
        (arg.pass cursor).2.fmt = ahead fmt s' := by
  have hcons := h.rest_cons (Nat.le_of_lt hi)
  rw [cursorStep, if_neg (h.ne_zero hi)]
  split
  next hliteral =>
    refine ⟨_, rfl, ⟨Nat.le_refl _, hi⟩, by simp only [stepsLeft]; omega, ?_⟩
    intro arg cursor hcursor
    have hhead : cursor.fmt.headD 0 ≠ ch '%' := by rwa [hcursor, hcons]
    rw [VaList.pass, if_pos hhead, hcursor, hcons]
    rfl
  next hpercent =>
    refine ⟨_, rfl, ⟨Nat.le_refl _, hi⟩, by simp only [stepsLeft]; omega, ?_⟩
    intro arg cursor hcursor
    have hhead : cursor.fmt.headD 0 = ch '%' := by
      rw [hcursor, hcons]
      exact not_not.mp hpercent
    rw [pass_eq, scan_directive_rest arg hhead, hcursor, hcons]
    rfl

end

/-! The whole scan. -/

/-- Looks for the NUL from the offset `i` on: each pass takes the model's cursor further, up
to the NUL. -/
inductive Looks (fmt : List Byte) : Nat → List Nat → Prop
  | stop : Looks fmt fmt.length [fmt.length]
  | pass : i < j → i < fmt.length →
      (∀ (arg : VaList) (cursor : Cursor), cursor.fmt = rest fmt i →
        (arg.pass cursor).2.fmt = rest fmt j) →
      Looks fmt j later → Looks fmt i (i :: later)

section

variable {m : Nat → Byte} {fmt : List Byte}

/-- By induction on the steps to come, inside of a pass or at its beginning. -/
theorem trace_looks (h : Stored m fmt) {s : Point × Nat} {start : Nat}
    (hs : s = (.loop, start) ∧ start ≤ fmt.length ∨ Inside fmt.length start s) :
    ∃ states j, (∀ fuel, stepsLeft fmt.length s < fuel →
      cursorTrace m fuel s = some states) ∧
      (∀ s' ∈ states, s'.2 ≤ fmt.length) ∧ (Inside fmt.length start s → start < j) ∧
      rest fmt j = ahead fmt s ∧ Looks fmt j (heads states) := by
  induction hn : stepsLeft fmt.length s using Nat.strong_induction_on generalizing s start with
  | _ n ih =>
      subst hn
      have hle : s.2 ≤ fmt.length := by
        obtain ⟨rfl, hle⟩ | hinside := hs
        · exact hle
        · exact hinside.le
      have hmore : ∀ {s' : Point × Nat} {states : List (Point × Nat)},
          cursorStep m s = some s' → stepsLeft fmt.length s' < stepsLeft fmt.length s →
          (∀ fuel, stepsLeft fmt.length s' < fuel → cursorTrace m fuel s' = some states) →
          ∀ fuel, stepsLeft fmt.length s < fuel →
            cursorTrace m fuel s = some (s :: states) := by
        intro s' states hstep hless htrace fuel hfuel
        obtain ⟨more, rfl⟩ : ∃ more, fuel = more + 1 := ⟨fuel - 1, by omega⟩
        rw [cursorTrace, hstep]
        simp only [htrace more (by omega), Option.map_some]
      by_cases hloop : s.1 = .loop
      · obtain ⟨point, i⟩ := s
        obtain rfl : point = .loop := hloop
        by_cases hend : i = fmt.length
        · subst hend
          refine ⟨[(.loop, fmt.length)], fmt.length, fun fuel hfuel => ?_,
            List.forall_mem_singleton.mpr (Nat.le_refl _),
            fun hinside => hinside.1, rfl, .stop⟩
          obtain ⟨more, rfl⟩ : ∃ more, fuel = more + 1 := ⟨fuel - 1, by omega⟩
          rw [cursorTrace, cursorStep, if_pos h.nul]
        · have hi : i < fmt.length := Nat.lt_of_le_of_ne hle hend
          obtain ⟨s', hstep, hinside, hless, hpass⟩ := loop_steps h hi
          obtain ⟨states, j, htrace, hbound, hlt, hahead, hlooks⟩ :=
            ih _ hless (.inr hinside) rfl
          refine ⟨(.loop, i) :: states, i, hmore hstep hless htrace,
            List.forall_mem_cons.mpr ⟨hle, hbound⟩, fun hinside => hinside.1, rfl, ?_⟩
          exact .pass (hlt hinside) hi
            (fun arg cursor hcursor => (hpass arg cursor hcursor).trans hahead.symm) hlooks
      · have hinside : Inside fmt.length start s := by
          obtain ⟨rfl, _⟩ | hinside := hs
          · exact absurd rfl hloop
          · exact hinside
        obtain ⟨s', hstep, hsteps⟩ := inside_steps h hinside hloop
        obtain ⟨states, j, htrace, hbound, hlt, hahead, hlooks⟩ :=
          ih _ hsteps.less (.inr hsteps.inside) rfl
        have hheads : heads (s :: states) = heads states := by
          unfold heads
          rw [List.filter_cons_of_neg (by simpa using hloop)]
        refine ⟨s :: states, j, hmore hstep hsteps.less htrace,
          List.forall_mem_cons.mpr ⟨hle, hbound⟩, fun _ => hlt hsteps.inside,
          hahead.trans hsteps.ahead, ?_⟩
        rw [hheads]
        exact hlooks

namespace Looks

variable {i : Nat} {looks : List Nat}

theorem increasing (h : Looks fmt i looks) :
    looks.Pairwise (· < ·) ∧ ∀ j ∈ looks, i ≤ j := by
  induction h with
  | stop => exact ⟨List.pairwise_singleton _ _,
      List.forall_mem_singleton.mpr (Nat.le_refl _)⟩
  | pass hlt _ _ _ ih =>
      exact ⟨List.pairwise_cons.mpr ⟨fun k hk => Nat.lt_of_lt_of_le hlt (ih.2 k hk), ih.1⟩,
        List.forall_mem_cons.mpr ⟨Nat.le_refl _, fun k hk => (Nat.le_of_lt hlt).trans (ih.2 k hk)⟩⟩

/-- The passes of the model begin at all looks but the last. -/
theorem visits (htext : Stored m fmt) (h : Looks fmt i looks) :
    ∃ starts, looks = starts ++ [fmt.length] ∧
      ∀ (arg : VaList) (cursor : Cursor) (n : Nat), cursor.fmt = rest fmt i →
        fmt.length - i < n → (arg.visits n cursor).map Cursor.fmt =
          starts.map (rest fmt) := by
  induction h with
  | stop =>
      refine ⟨[], rfl, fun arg cursor n hcursor hn => ?_⟩
      obtain ⟨n, rfl⟩ : ∃ more, n = more + 1 := ⟨n - 1, by omega⟩
      have hnul : cursor.fmt.headD 0 = 0 := by
        rw [hcursor, htext.rest_cons (Nat.le_refl _)]
        exact htext.nul
      rw [VaList.visits, if_pos hnul]
      rfl
  | @pass i j later hlt hi hpass _ ih =>
      obtain ⟨starts, rfl, hvisits⟩ := ih
      refine ⟨i :: starts, rfl, fun arg cursor n hcursor hn => ?_⟩
      obtain ⟨n, rfl⟩ : ∃ more, n = more + 1 := ⟨n - 1, by omega⟩
      have hchar : cursor.fmt.headD 0 ≠ 0 := by
        rw [hcursor, htext.rest_cons (Nat.le_of_lt hi)]
        exact htext.ne_zero hi
      rw [VaList.visits, if_neg hchar, List.map_cons, List.map_cons, hcursor,
        hvisits arg _ n (hpass arg cursor hcursor) (by omega)]

end Looks

/-- The scan of any format in any memory ends, the cursor stays between the first character
and the NUL, and every pass takes it further. -/
theorem scan_once (h : Stored m fmt) :
    ∃ states starts,
      (∀ fuel, 11 * fmt.length < fuel → cursorTrace m fuel (.loop, 0) = some states) ∧
      (∀ s ∈ states, s.2 ≤ fmt.length) ∧
      heads states = starts ++ [fmt.length] ∧ (heads states).Pairwise (· < ·) ∧
      ∀ arg base, (visits fmt arg base).map Cursor.fmt = starts.map (rest fmt) := by
  obtain ⟨states, j, htrace, hbound, _, hahead, hlooks⟩ :=
    trace_looks h (.inl ⟨rfl, Nat.zero_le _⟩)
  have hfirst : j = 0 := by
    have hlength : (rest fmt j).length = (rest fmt 0).length := congrArg List.length hahead
    rw [rest, rest, List.length_drop, List.length_drop, List.length_append] at hlength
    have hnul : [(0 : Byte)].length = 1 := rfl
    omega
  subst hfirst
  obtain ⟨starts, hstarts, hvisits⟩ := hlooks.visits h
  exact ⟨states, starts, htrace, hbound, hstarts, hlooks.increasing.1, fun arg base =>
    hvisits arg _ _ rfl (Nat.lt_succ_self _)⟩

end

/-- A format that ends in the middle of a directive, with more digits behind its NUL. -/
theorem scan_once_cut :
    ∃ states starts,
      (∀ fuel, 11 * 2 < fuel → cursorTrace
        (fun i => (['%', '5', '\x00'].map ch).getD i (ch '5')) fuel (.loop, 0) = some states) ∧
      (∀ s ∈ states, s.2 ≤ 2) ∧
      heads states = starts ++ [2] ∧ (heads states).Pairwise (· < ·) ∧
      ∀ arg base, (visits (['%', '5'].map ch) arg base).map Cursor.fmt =
        starts.map (rest (['%', '5'].map ch)) := by
  have hstored : Stored (fun i => (['%', '5', '\x00'].map ch).getD i (ch '5'))
      (['%', '5'].map ch) := ⟨by decide, by decide⟩
  exact scan_once hstored

end YiOS.Printk
