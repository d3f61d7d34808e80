/-!
Sets of characters, given by ranges of code points with both ends included. The blanks are the
characters with the Unicode property `White_Space`, twenty-five in all.
-/
namespace HygienicScheme.Text

abbrev Ranges := List (Nat × Nat)

def Ranges.has (ranges : Ranges) (c : Char) : Bool :=
  ranges.any fun (low, high) => low ≤ c.toNat && c.toNat ≤ high

def blankRanges : Ranges :=
  [(0x9, 0xd), (0x20, 0x20), (0x85, 0x85), (0xa0, 0xa0), (0x1680, 0x1680), (0x2000, 0x200a),
   (0x2028, 0x2029), (0x202f, 0x202f), (0x205f, 0x205f), (0x3000, 0x3000)]

def isBlank (c : Char) : Bool := blankRanges.has c

def trim (cs : List Char) : List Char :=
  ((cs.dropWhile isBlank).reverse.dropWhile isBlank).reverse

example : (blankRanges.map fun (low, high) => high + 1 - low).sum = 25 := by decide

end HygienicScheme.Text
