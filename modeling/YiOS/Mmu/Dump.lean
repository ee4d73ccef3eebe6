import YiOS.Library.DoRange
import YiOS.Mmu.Pgtable

namespace YiOS

open YiOS.Library

/-! `dump_pgtable.c`. -/

namespace Dump

def pteValid : U64 := 1 <<< 0

def pteUser : U64 := 1 <<< 6

def pteNg : U64 := 1 <<< 11

def pteCont : U64 := 1 <<< 52

def mtDeviceNGnRE : U64 := 1

def mtDeviceGRE : U64 := 2

def mtNormalNc : U64 := 3

/-- `clear` may be null. -/
structure ProtBits where
  mask : U64
  val : U64
  set : String
  clear : Option String
  deriving DecidableEq

def pteBits : List ProtBits :=
  [⟨pteValid, pteValid, " ", some "F"⟩,
    ⟨pteUser, pteUser, "USR", some " "⟩,
    ⟨pteRdonly, pteRdonly, "ro", some "RW"⟩,
    ⟨ptePxn, ptePxn, "NX", some "X"⟩,
    ⟨pteShared, pteShared, "SHD", some "   "⟩,
    ⟨pteAf, pteAf, "AF", some "  "⟩,
    ⟨pteNg, pteNg, "NG", some "  "⟩,
    ⟨pteCont, pteCont, "CON", some "   "⟩,
    ⟨pteTableBit, pteTableBit, "   ", some "BLK"⟩,
    ⟨pteUxn, pteUxn, "UXN", none⟩,
    ⟨pteAttrindxMask, pteAttrindx mtDeviceNGnRnE, "DEVICE/nGnRnE", none⟩,
    ⟨pteAttrindxMask, pteAttrindx mtDeviceNGnRE, "DEVICE/nGnRE", none⟩,
    ⟨pteAttrindxMask, pteAttrindx mtDeviceGRE, "DEVICE/GRE", none⟩,
    ⟨pteAttrindxMask, pteAttrindx mtNormalNc, "MEM/NORMAL-NC", none⟩,
    ⟨pteAttrindxMask, pteAttrindx mtNormal, "MEM/NORMAL", none⟩]

/-- `bits` is null for the first one, which has no name either; `num` is the length. -/
structure PgLevel where
  bits : Option (List ProtBits)
  name : String
  mask : U64
  deriving DecidableEq

def pgLevel : List PgLevel :=
  [⟨none, "", 0⟩, ⟨some pteBits, "PGD", 0⟩, ⟨some pteBits, "PUD", 0⟩,
    ⟨some pteBits, "PMD", 0⟩, ⟨some pteBits, "PTE", 0⟩]

def addressMarkers : List (U64 × String) := [(0, "Identical mapping")]

/-- What the line of an interval shows. -/
structure Row where
  start : U64
  stop : U64
  delta : U64
  unit : Option Char
  name : String
  columns : List String
  deriving DecidableEq

inductive Line where
  | marker (name : String)
  | row (row : Row)
  deriving DecidableEq

def pgLevelInit (levels : List PgLevel) : List PgLevel :=
  levels.map fun level =>
    match level.bits with
    | some bits => { level with mask := bits.foldl (fun mask b => mask ||| b.mask) level.mask }
    | none => level

def dumpProt (prot : U64) (bits : List ProtBits) : List String :=
  bits.filterMap fun b => if prot &&& b.mask = b.val then some b.set else b.clear

/-- The loop over `address_markers`, and whether it returns. -/
def printMarkers (start val : U64) : List (U64 × String) → List Line × Bool
  | [] => ([], false)
  | (address, name) :: markers =>
      let lines := if start = address then [.marker name] else []
      if val = 0 then (lines, true)
      else
        let (rest, returned) := printMarkers start val markers
        (lines ++ rest, returned)

def units : List Char := ['K', 'M', 'G', 'T', '\x00']

/-- `delta` and the index of `unit` after the loop, which asks for `units[1]` and not for
the character after `unit`. -/
def scaleLoop : Nat → U64 → Nat → Option (U64 × Nat)
  | 0, _, _ => none
  | fuel + 1, delta, unit =>
      if delta &&& 1023 = 0 ∧ units.getD 1 '\x00' ≠ '\x00' then
        scaleLoop fuel (delta >>> 10) (unit + 1)
      else some (delta, unit)

section

variable (fuel : Nat) (mem : U64 → U64) (levels : List PgLevel)

def printPgtable (start stop : U64) (level : Nat) (val : U64) (lines : List Line) :
    Option (List Line) :=
  let pgLevel := levels.getD level ⟨none, "", 0⟩
  let prot := val &&& pgLevel.mask
  let (markers, returned) := printMarkers start val addressMarkers
  if returned then some (lines ++ markers)
  else
    (scaleLoop fuel ((stop - start) >>> 10) 0).map fun (delta, unit) =>
      let columns := pgLevel.bits.elim [] (dumpProt prot)
      lines ++ markers ++
        [.row { start, stop, delta, unit := units[unit]?, name := pgLevel.name, columns }]

def walkPte (pmd start stop : U64) (lines : List Line) : Option (List Line) :=
  doRange (fun addr _ => addr + pageSize)
    (fun ptep addr _ _ lines =>
      printPgtable fuel levels addr (addr + pageSize) 4 (mem ptep) lines)
    entrySize stop fuel (pteOffsetPhys pmd start) start start lines

def walkPmd (pud start stop : U64) (lines : List Line) : Option (List Line) :=
  doRange pmdAddrEnd
    (fun pmdp addr next _ lines =>
      let pmd := mem pmdp
      if pmd = 0 ∨ pmd &&& typeMask = pmdTypeSect then
        printPgtable fuel levels addr next 3 pmd lines
      else
        walkPte fuel mem levels pmd addr next lines)
    entrySize stop fuel (pmdOffsetPhys pud start) start start lines

/-- The end of a piece is taken from `start` and not from `addr`. -/
def walkPud (pgd start stop : U64) (lines : List Line) : Option (List Line) :=
  doRange (fun _ stop => pudAddrEnd start stop)
    (fun pudp addr next _ lines =>
      let pud := mem pudp
      if pud = 0 ∨ pud &&& typeMask = pmdTypeSect then
        printPgtable fuel levels addr next 2 pud lines
      else
        walkPmd fuel mem levels pud addr next lines)
    entrySize stop fuel (pudOffsetPhys pgd start) start start lines

def walkPgd (pgd start size : U64) (lines : List Line) : Option (List Line) :=
  doRange pgdAddrEnd
    (fun pgdp addr next _ lines =>
      let entry := mem pgdp
      if entry = 0 then
        printPgtable fuel levels addr next 1 entry lines
      else
        walkPud fuel mem levels entry addr next lines)
    entrySize (start + size) fuel (pgdOffsetRaw pgd start) start start lines

end

/-- The lines, and `pg_level` after the call. -/
def dumpPgtable (fuel : Nat) (mem : U64 → U64) (idmapPgDir : U64) (levels : List PgLevel) :
    Option (List Line × List PgLevel) :=
  let levels := pgLevelInit levels
  (walkPgd fuel mem levels idmapPgDir 0 totalMemory []).map fun lines => (lines, levels)

end Dump

end YiOS
