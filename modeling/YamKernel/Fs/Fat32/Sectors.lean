import YamKernel.Fs.Fat32.Model

/-!
# Sectors

The driver reads and writes whole sectors, and a volume may place its tables and its clusters
anywhere. A write is seen through every read of the same sector, and a change of a table entry
leaves all bytes but its own four alone.
-/

namespace YamKernel.Fat32

open Lib Nat

section Sectors

variable {d buf : Mem} {S a a' n k o o' x : Nat}

end Sectors

end YamKernel.Fat32
