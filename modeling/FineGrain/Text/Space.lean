/-!
White space in the sense of the Unicode property of that name.
-/

namespace FineGrain.Text

/-- The code points with the property `White_Space`. -/
def spaceRanges : List (Nat × Nat) :=
  [(0x09, 0x0d), (0x20, 0x20), (0x85, 0x85), (0xa0, 0xa0), (0x1680, 0x1680), (0x2000, 0x200a),
   (0x2028, 0x2029), (0x202f, 0x202f), (0x205f, 0x205f), (0x3000, 0x3000)]

def isSpace (c : Char) : Bool := spaceRanges.any fun (lo, hi) => lo ≤ c.toNat && c.toNat ≤ hi

end FineGrain.Text
