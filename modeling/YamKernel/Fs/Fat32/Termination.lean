import Mathlib.Data.Finset.Card
import YamKernel.Fs.Fat32.Mount
import YamKernel.Fs.Fat32.Sectors

/-!
# Which calls return

The driver follows cluster chains until they end. The disk decides whether they do: a loop
over a directory ends at the end of its chain, at an end mark or at the entry it looks for,
the loop that reads a file at the end of the file too if the buffer is large enough, the loop
that lists a directory at the limit of the caller. Only `free_chain` ends on every disk,
because it destroys the chain it follows. Sectors have 512 bytes, as those of the device.
-/

namespace YamKernel.Fat32

open Lib Finset

variable {base : Mem} {bufSize maxEntries remaining : Nat} {out : List FileInfo}
  {path : List UInt8}

/-! ## Ends of chains -/

section Ends

variable (v : Vol) (d : Mem)

/-- An entry that `fat32_readdir` passes over. -/
def Dirent.unlisted (de : Dirent) : Prop :=
  de.skipped ∨ de.attr.toNat &&& fatAttrVolumeId ≠ 0 ∨ de.mark = dot

instance (de : Dirent) : Decidable de.unlisted := inferInstanceAs (Decidable (_ ∨ _))

def listed (c : Nat) : Nat :=
  (List.range (entriesPerCluster v)).countP fun i =>
    ¬ (direntAt (clusterRead v d c) (i * 32)).unlisted

end Ends

/-! ## Searching -/

section Search

variable {v : Vol} {d : Mem} {x : List UInt8} {c n : Nat}

end Search

/-! ## Reading and listing -/

section Read

variable {v : Vol} {d : Mem} {c n : Nat}

end Read

/-! ## Freeing -/

section Free

variable {v : Vol} {d : Mem} {c c' n : Nat}

/-- What mounted volumes with sectors of 512 bytes have. -/
structure Plain (v : Vol) : Prop where
  sector : v.bytesPerSector = sectorSize
  fatSize : v.fatSize < 2 ^ 32
  cluster_pos : 0 < v.sectorsPerCluster
  cluster_lt : v.sectorsPerCluster < 2 ^ 8
  bytes : sectorSize ≤ v.bytesPerCluster

lemma Plain.bytes_pos (hv : Plain v) : 0 < v.bytesPerCluster := lt_of_lt_of_le (by decide) hv.bytes

lemma Plain.fatOffset (hv : Plain v) (c : Nat) :
    fatOffset v c % 4 = 0 ∧ fatOffset v c < sectorSize := by
  unfold Fat32.fatOffset u32
  rw [hv.sector]
  unfold sectorSize
  omega

/-- The clusters that a loop over a chain can still go on from. -/
def linked (v : Vol) (d : Mem) : Finset Nat :=
  (range fat32Eoc).filter fun c => fatEntry v d c ≠ 0

end Free

/-! ## Writing -/

section Write

variable {v : Vol} {d : Mem} {c n : Nat}

variable {name83 : List UInt8} {first size : Nat}

end Write

/-! ## Calls -/

section Calls

variable {v : Vol} {d : Mem} {data : List UInt8}

end Calls

lemma Bpb.Ranges.plain {buf : Mem} (h : (bpbOf buf).Ranges) (startLba : Nat)
    (hs : (bpbOf buf).bytesPerSector = sectorSize) : Plain ((bpbOf buf).vol startLba) := by
  have hlt : (bpbOf buf).sectorsPerCluster < 256 ^ 1 := buf.read_lt 13 1
  have hpos := h.cluster_pos
  refine ⟨hs, h.fat_lt, hpos, hlt, ?_⟩
  simp only [vol, hs]
  unfold sectorSize
  rw [u32_of_lt (by omega)]
  omega

end YamKernel.Fat32
