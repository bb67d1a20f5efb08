/-!
# Widths

A count kept in a word of some number of bits lies below the limit of that width.
-/

namespace RigWarden.Number

abbrev limit16 : Nat := 0x10000
abbrev limit31 : Nat := 0x80000000
abbrev limit32 : Nat := 0x100000000
abbrev limit63 : Nat := 0x8000000000000000
abbrev limit64 : Nat := 0x10000000000000000

end RigWarden.Number
