import YiOS.Printk.Number

namespace YiOS.Printk

open YiOS.Library

/-! `scan_number()`, `myprintf()` and `printk()` of `printk.c`. A pointer into the format is
the rest of the format from it on, its NUL included. -/

/-- What the slots of a `va_list` hold, and the bytes before the NUL of the string at an
address. -/
structure VaList where
  slot : Nat → U64
  string : U64 → List Byte

/-- `va_arg(arg, int)`. -/
def VaList.int (arg : VaList) (i : Nat) : Int32 := Int32.ofBitVec ((arg.slot i).setWidth 32)

def isDigit (c : Byte) : Bool := ch '0' ≤ c && c ≤ ch '9'

def scanLoop (tmp : Int32) : List Byte → Int32 × List Byte
  | [] => (tmp, [])
  | c :: string =>
      if isDigit c then scanLoop (tmp * 10 + (Int32.ofNat c.toNat - 48)) string
      else (tmp, c :: string)

def scanNumber (string : List Byte) : Int32 × List Byte := scanLoop 0 string

example : scanNumber (['4', '0', '9', '6', 'd'].map ch) = (4096, [ch 'd']) := by decide

inductive Flag where
  | left
  | plus
  | space
  | special
  | zeropad
  deriving DecidableEq, Repr

def Flag.char : Flag → Byte
  | .left => ch '-'
  | .plus => ch '+'
  | .space => ch ' '
  | .special => ch '#'
  | .zeropad => ch '0'

def flagOf (c : Byte) : Option Flag :=
  if c = ch '-' then some .left
  else if c = ch '+' then some .plus
  else if c = ch ' ' then some .space
  else if c = ch '#' then some .special
  else if c = ch '0' then some .zeropad
  else none

def Flags.set (flags : Flags) : Flag → Flags
  | .left => { flags with left := true }
  | .plus => { flags with plus := true }
  | .space => { flags with space := true }
  | .special => { flags with special := true }
  | .zeropad => { flags with zeropad := true }

/-- `repeat`, from the character after `++fmt` on. -/
def scanFlags (flags : Flags) : List Byte → Flags × List Byte
  | [] => (flags, [])
  | c :: fmt =>
      match flagOf c with
      | some flag => scanFlags (flags.set flag) fmt
      | none => (flags, c :: fmt)

/-- The flags, `field_width`, the format and the next slot. The format stays at a `*`. -/
def VaList.fieldWidth (arg : VaList) (flags : Flags) (fmt : List Byte) (next : Nat) :
    Flags × Int32 × List Byte × Nat :=
  if isDigit (fmt.headD 0) then (flags, (scanNumber fmt).1, (scanNumber fmt).2, next)
  else if fmt.headD 0 = ch '*' then
    let width := arg.int next
    if width < 0 then ({ flags with left := true }, -width, fmt, next + 1)
    else (flags, width, fmt, next + 1)
  else (flags, -1, fmt, next)

/-- `precision`, the format and the next slot. The format stays at a `*`. -/
def VaList.precision (arg : VaList) (fmt : List Byte) (next : Nat) :
    Int32 × List Byte × Nat :=
  if fmt.headD 0 = ch '.' then
    let fmt := fmt.tail
    let (precision, fmt, next) :=
      if isDigit (fmt.headD 0) then ((scanNumber fmt).1, (scanNumber fmt).2, next)
      else if fmt.headD 0 = ch '*' then (arg.int next, fmt, next + 1)
      else (-1, fmt, next)
    (if precision < 0 then 0 else precision, fmt, next)
  else (-1, fmt, next)

inductive Qualifier where
  | short
  | long
  | longLong
  deriving DecidableEq, Repr

def scanQualifier (fmt : List Byte) : Option Qualifier × List Byte :=
  if fmt.headD 0 = ch 'h' then (some .short, fmt.tail)
  else if fmt.headD 0 = ch 'l' then
    if fmt.tail.headD 0 = ch 'l' then (some .longLong, fmt.tail.tail)
    else (some .long, fmt.tail)
  else if fmt.headD 0 = ch 'L' then (some .longLong, fmt.tail)
  else (none, fmt)

/-- What stands between the `%` and the conversion. -/
structure Directive where
  flags : Flags
  width : Int32
  precision : Int32
  qualifier : Option Qualifier
  deriving DecidableEq, Repr

/-- From the character after the `%` up to the conversion. -/
def VaList.directive (arg : VaList) (fmt : List Byte) (next : Nat) :
    Directive × List Byte × Nat :=
  let (flags, fmt) := scanFlags {} fmt
  let (flags, width, fmt, next) := arg.fieldWidth flags fmt next
  let (precision, fmt, next) := arg.precision fmt next
  let (qualifier, fmt) := scanQualifier fmt
  ({ flags, width, precision, qualifier }, fmt, next)

inductive Conversion where
  | c
  | s
  | n
  | p
  | o
  | x
  | X
  | d
  | i
  | u
  deriving DecidableEq, Repr

def Conversion.char : Conversion → Byte
  | .c => ch 'c'
  | .s => ch 's'
  | .n => ch 'n'
  | .p => ch 'p'
  | .o => ch 'o'
  | .x => ch 'x'
  | .X => ch 'X'
  | .d => ch 'd'
  | .i => ch 'i'
  | .u => ch 'u'

def conversionOf (c : Byte) : Option Conversion :=
  if c = ch 'c' then some .c
  else if c = ch 's' then some .s
  else if c = ch 'n' then some .n
  else if c = ch 'p' then some .p
  else if c = ch 'o' then some .o
  else if c = ch 'x' then some .x
  else if c = ch 'X' then some .X
  else if c = ch 'd' then some .d
  else if c = ch 'i' then some .i
  else if c = ch 'u' then some .u
  else none

def Directive.charText (d : Directive) (word : U64) : List Byte :=
  let (before, width) := if d.flags.left then ([], d.width) else prePad (ch ' ') d.width
  before ++ word.setWidth 8 :: (prePad (ch ' ') width).1

def Directive.stringText (d : Directive) (s : List Byte) : List Byte :=
  let len := Int32.ofNat s.length
  let len := if d.precision < 0 then len else if d.precision < len then d.precision else len
  let (before, width) := if d.flags.left then ([], d.width) else pad (ch ' ') len d.width
  before ++ s.take len.toInt.toNat ++ (pad (ch ' ') len width).1

def VaList.pointed (arg : VaList) (s : U64) : List Byte :=
  if s = 0 then ['<', 'N', 'U', 'L', 'L', '>'].map ch else arg.string s

def Directive.num (d : Directive) (word : U64) : U64 :=
  match d.qualifier with
  | some .longLong => word
  | some .short =>
      if d.flags.sign then (word.setWidth 16).signExtend 64 else (word.setWidth 16).setWidth 64
  | some .long => word
  | none =>
      if d.flags.sign then (word.setWidth 32).signExtend 64 else (word.setWidth 32).setWidth 64

/-- What `myprintf` does through its pointers: characters at `pos`, `*ip = pos - string`, and
a null `pos` out of `number`. -/
inductive Output where
  | text (written : List Byte)
  | count (ip : U64)
  | null
  deriving DecidableEq, Repr

def outputNumber (num : U64) (base : Int32) (d : Directive) : Output :=
  match number num base d.width d.precision d.flags with
  | some written => .text written
  | none => .null

def Directive.pointer (d : Directive) : Directive :=
  if d.width = -1 then
    { d with width := 16, flags := { d.flags with zeropad := true } }
  else d

def Directive.signed (d : Directive) : Directive :=
  { d with flags := { d.flags with sign := true } }

def Directive.small (d : Directive) : Directive :=
  { d with flags := { d.flags with small := true } }

/-- The switch over the conversion `c` and the call of `number` below it, with the slot that
either takes: the output, and `base` after it. -/
def VaList.convert (arg : VaList) (d : Directive) (c : Byte) (base : Int32) (word : U64) :
    List Output × Int32 :=
  match conversionOf c with
  | some .c => ([.text (d.charText word)], base)
  | some .s => ([.text (d.stringText (arg.pointed word))], base)
  | some .n => ([.count word], base)
  | some .p => ([outputNumber word 16 d.pointer], base)
  | some .o => ([outputNumber (d.num word) 8 d], 8)
  | some .x => ([outputNumber (d.small.num word) 16 d.small], 16)
  | some .X => ([outputNumber (d.num word) 16 d], 16)
  | some .d => ([outputNumber (d.signed.num word) 10 d.signed], 10)
  | some .i => ([outputNumber (d.signed.num word) 10 d.signed], 10)
  | some .u => ([outputNumber (d.num word) 10 d], 10)
  | none =>
      let percent := if c = ch '%' then [] else [ch '%']
      let unknown := if c = 0 then [] else [c]
      ([.text (percent ++ unknown), outputNumber (d.num word) base d], base)

/-- `fmt`, the next slot of `arg`, and `base`. -/
structure Cursor where
  fmt : List Byte
  next : Nat
  base : Int32
  deriving DecidableEq, Repr

/-- One pass of the loop, its `fmt++` included. At the NUL the default case steps back,
which the `fmt++` undoes. -/
def VaList.pass (arg : VaList) (cursor : Cursor) : List Output × Cursor :=
  if cursor.fmt.headD 0 ≠ ch '%' then
    ([.text [cursor.fmt.headD 0]], { cursor with fmt := cursor.fmt.tail })
  else
    let (d, fmt, next) := arg.directive cursor.fmt.tail cursor.next
    let (out, base) := arg.convert d (fmt.headD 0) cursor.base (arg.slot next)
    (out, { fmt := if fmt.headD 0 = 0 then fmt else fmt.tail, next := next + 1, base })

def VaList.passes (arg : VaList) : Nat → Cursor → List Output × Cursor
  | 0, cursor => ([], cursor)
  | n + 1, cursor =>
      if cursor.fmt.headD 0 = 0 then ([], cursor)
      else
        let (out, cursor) := arg.pass cursor
        let (rest, cursor) := arg.passes n cursor
        (out ++ rest, cursor)

/-- `pos`, and the stores so far in their order. -/
structure Written where
  pos : U64
  stores : List (U64 × Byte)

def Output.write (string : U64) (w : Written) : Output → Written
  | .text written =>
      { pos := w.pos + BitVec.ofNat 64 written.length
        stores := w.stores ++ placeText w.pos written }
  | .count ip => { w with stores := w.stores ++ [(ip, (w.pos - string).setWidth 8)] }
  | .null => { w with pos := 0 }

/-- The stores of a call, the slots it has taken and what it returns. -/
structure Printed where
  stores : List (U64 × Byte)
  next : Nat
  ret : Int32
  deriving DecidableEq, Repr

/-- The format comes without its NUL, and `base` with what is on the stack; a pass of the
loop takes a character of the format at least. -/
def myprintf (string : U64) (_size : BitVec 32) (fmt : List Byte) (arg : VaList)
    (base : Int32) : Printed :=
  let (out, cursor) := arg.passes (fmt.length + 1) { fmt := fmt ++ [0], next := 0, base }
  let w := out.foldl (Output.write string) { pos := string, stores := [] }
  { stores := w.stores ++ [(w.pos, 0)]
    next := cursor.next
    ret := Int32.ofBitVec ((w.pos - string).setWidth 32) }

/-- `sizeof(print_buf)`. -/
def consolePrintBufferSize : BitVec 32 := 1024

@[simp] theorem consolePrintBufferSize_toNat : consolePrintBufferSize.toNat = 1024 := rfl

/-- Where the loop of `printk` reads from `i` on; its check follows the read. -/
def putcharLoop (printBuf : U64) (len : Int32) : Nat → Int32 → List U64
  | 0, _ => []
  | n + 1, i =>
      if i < len then
        (printBuf + BitVec.ofInt 64 i.toInt) ::
          (if consolePrintBufferSize.setWidth 64 < BitVec.ofInt 64 i.toInt then []
            else putcharLoop printBuf len n (i + 1))
      else []

/-- The stores, the reads of the loop, the characters it sends and what the call returns. -/
structure Console where
  stores : List (U64 × Byte)
  reads : List U64
  sent : List Byte
  ret : Int32

def printk (printBuf : U64) (m : Memory) (fmt : List Byte) (arg : VaList) (base : Int32) :
    Console :=
  let printed := myprintf printBuf consolePrintBufferSize fmt arg base
  let m := printed.stores.foldl (fun m store => Function.update m store.1 store.2) m
  let reads := putcharLoop printBuf printed.ret printed.ret.toInt.toNat 0
  { stores := printed.stores, reads, sent := reads.map m, ret := printed.ret }

end YiOS.Printk
