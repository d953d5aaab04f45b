/-!
# LazyGrammar.Word

**Integers of 64 bits.** Arithmetic on the integers of values and lists wraps: its
results are taken modulo `wordSize`, the 64th power of two, to the nearest
representative of zero.
-/

namespace LazyGrammar

/-- How many integers of 64 bits there are. -/
def wordSize : Nat := 0x10000000000000000

/-- The 64-bit integer that an integer wraps to. -/
def word (n : Int) : Int := n.bmod wordSize

end LazyGrammar
