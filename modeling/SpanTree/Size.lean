/-
SpanTree.Size — the words that count characters.

Lengths and positions are 64-bit words and their arithmetic wraps. A
tree with consistent weights never wraps; a tree with arbitrary weights
may, and every formula below is then read modulo `2 ^ 64`. Only
balancing compares weights as signed numbers: `signed` reads a word in
two's complement, and differences of such readings are exact integers.
-/

namespace SpanTree

/-- A length in characters, or an absolute position in a text. -/
abbrev Size := UInt64

/-- The two's complement reading of a word. -/
def signed (n : Size) : Int := n.toInt64.toInt

/-- The word of a number, modulo `2 ^ 64`. -/
def wrap (n : Int) : Size := UInt64.ofInt n

end SpanTree
