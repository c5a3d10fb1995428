/-! Decimal numerals for indices, arities and depths, all of which are 64-bit numbers. -/

namespace Sequitur.Text

/-- Indices and depths are below this bound, the sixty-fourth power of two. -/
def indexBound : Nat := 0x10000000000000000

def digitValue (c : Char) : Nat := c.toNat - '0'.toNat

def decimalValue (digits : List Char) : Nat :=
  digits.foldl (fun n c => 10 * n + digitValue c) 0

/-- Reads one or more ASCII digits, leading zeros included; a number that does not fit
64 bits is refused. -/
def readIndex (digits : List Char) : Option Nat :=
  if !digits.isEmpty && digits.all Char.isDigit && decimalValue digits < indexBound then
    some (decimalValue digits)
  else none

end Sequitur.Text
