import Mathlib.Tactic.Linarith
import YamKernel.Fs.Fat32.Model

/-!
# Mounting a volume

`fat32_mount` takes the layout of a volume from its boot sector. It rejects a sector size or
cluster size of zero and asks for the type string, and believes the rest. The layout holds
every cluster that the driver numbers exactly when `Bpb.Consistent` does.
-/

namespace YamKernel.Fat32

open Lib Nat

/-- The fields of `fat32_bpb_t` that `fat32_mount` reads. -/
structure Bpb where
  bytesPerSector : Nat
  sectorsPerCluster : Nat
  reservedSectors : Nat
  numFats : Nat
  totalSectors32 : Nat
  fatSize32 : Nat
  rootCluster : Nat
  fsType : List UInt8
  deriving DecidableEq, Repr

def bpbOf (buf : Mem) : Bpb where
  bytesPerSector := buf.read 11 2
  sectorsPerCluster := buf.read 13 1
  reservedSectors := buf.read 14 2
  numFats := buf.read 16 1
  totalSectors32 := buf.read 32 4
  fatSize32 := buf.read 36 4
  rootCluster := buf.read 44 4
  fsType := buf.load 82 8

def fat32Type : List UInt8 := [70, 65, 84, 51, 50, 32, 32, 32]

def Bpb.vol (bpb : Bpb) (startLba : Nat) : Vol where
  startLba
  bytesPerSector := bpb.bytesPerSector
  sectorsPerCluster := bpb.sectorsPerCluster
  bytesPerCluster := u32 (bpb.bytesPerSector * bpb.sectorsPerCluster)
  reservedSectors := bpb.reservedSectors
  numFats := bpb.numFats
  fatSize := bpb.fatSize32
  rootCluster := bpb.rootCluster
  dataStart := u32 (bpb.reservedSectors + bpb.numFats * bpb.fatSize32)
  totalClusters :=
    sub32 bpb.totalSectors32 (u32 (bpb.reservedSectors + bpb.numFats * bpb.fatSize32)) /
      bpb.sectorsPerCluster
  mounted := true

def fat32Mount (startLba : Nat) (buf : Mem) : Option Vol :=
  let bpb := bpbOf buf
  if bpb.bytesPerSector = 0 ∨ bpb.sectorsPerCluster = 0 then none
  else if bpb.fsType ≠ fat32Type then none
  else some (bpb.vol startLba)

/-- Cluster `c` has its entry in the first table and its sectors in the data area. Positions
in the table are in bytes, the others in sectors; all are the exact values, without
wrap-around. -/
structure Inside (bpb : Bpb) (v : Vol) (c : Nat) : Prop where
  entry : fatSector v c * bpb.bytesPerSector + fatOffset v c =
    bpb.reservedSectors * bpb.bytesPerSector + 4 * c
  entry_le : fatSector v c * bpb.bytesPerSector + fatOffset v c + 4 ≤
    (bpb.reservedSectors + bpb.fatSize32) * bpb.bytesPerSector
  data : clusterToSector v c = bpb.reservedSectors + bpb.numFats * bpb.fatSize32 +
    (c - 2) * bpb.sectorsPerCluster
  data_le : clusterToSector v c + bpb.sectorsPerCluster ≤ bpb.totalSectors32
  apart : bpb.reservedSectors + bpb.fatSize32 ≤ clusterToSector v c

/-- No cluster fits on the volume, or the layout has no wrap-around, the data area begins
after a table and before the end of the volume, and the table has an entry for every
cluster of the data area. -/
def Bpb.Consistent (bpb : Bpb) : Prop :=
  let dataStart := bpb.reservedSectors + bpb.numFats * bpb.fatSize32
  let clusters := (bpb.totalSectors32 - dataStart) / bpb.sectorsPerCluster
  sub32 bpb.totalSectors32 (u32 dataStart) < bpb.sectorsPerCluster ∨
    (1 ≤ bpb.numFats ∧ dataStart < 2 ^ 32 ∧ dataStart ≤ bpb.totalSectors32 ∧
      4 * (clusters + 1) < 2 ^ 32 ∧ 4 * (clusters + 2) ≤ bpb.fatSize32 * bpb.bytesPerSector)

structure Bpb.Ranges (bpb : Bpb) : Prop where
  bytes_pos : 0 < bpb.bytesPerSector
  cluster_pos : 0 < bpb.sectorsPerCluster
  total_lt : bpb.totalSectors32 < 2 ^ 32
  fat_lt : bpb.fatSize32 < 2 ^ 32

lemma fat32Mount_some {startLba : Nat} {buf : Mem} {v : Vol}
    (h : fat32Mount startLba buf = some v) : v = (bpbOf buf).vol startLba ∧ (bpbOf buf).Ranges := by
  unfold fat32Mount at h
  dsimp only at h
  split_ifs at h with h1
  obtain ⟨hb, hs⟩ := not_or.mp h1
  refine ⟨(Option.some.inj h).symm, pos_of_ne_zero hb, pos_of_ne_zero hs,
    buf.read_lt 32 4, buf.read_lt 36 4⟩

section Layout

variable {bpb : Bpb} {startLba c : Nat}

/-- The byte position of an entry is exact as long as nothing wraps. -/
theorem entry_eq (bpb : Bpb) (startLba : Nat) (hc : 4 * c < 2 ^ 32)
    (hs : bpb.reservedSectors + 4 * c / bpb.bytesPerSector < 2 ^ 32) :
    fatSector (bpb.vol startLba) c * bpb.bytesPerSector + fatOffset (bpb.vol startLba) c =
      bpb.reservedSectors * bpb.bytesPerSector + 4 * c := by
  simp only [fatSector, fatOffset, Bpb.vol]
  rw [mul_comm c 4, u32_of_lt hc, u32_of_lt hs, add_mul, add_assoc,
    div_add_mod' (4 * c)]

lemma entry_noWrap (h : fatSector (bpb.vol startLba) c * bpb.bytesPerSector +
    fatOffset (bpb.vol startLba) c = bpb.reservedSectors * bpb.bytesPerSector + 4 * c) :
    4 * c < 2 ^ 32 := by
  simp only [fatSector, fatOffset, Bpb.vol] at h
  have hle : u32 (bpb.reservedSectors + u32 (c * 4) / bpb.bytesPerSector) ≤
      bpb.reservedSectors + u32 (c * 4) / bpb.bytesPerSector := mod_le _ _
  have hmul := mul_le_mul_right bpb.bytesPerSector hle
  rw [add_mul] at hmul
  have := div_add_mod' (u32 (c * 4)) bpb.bytesPerSector
  have := u32_lt (c * 4)
  omega

lemma clusterToSector_eq (bpb : Bpb) (startLba : Nat)
    (h : bpb.reservedSectors + bpb.numFats * bpb.fatSize32 +
      (c - 2) * bpb.sectorsPerCluster < 2 ^ 32) (h2 : 2 ≤ c) (hc : c < 2 ^ 32) :
    clusterToSector (bpb.vol startLba) c = bpb.reservedSectors + bpb.numFats * bpb.fatSize32 +
      (c - 2) * bpb.sectorsPerCluster := by
  have hstart : u32 (bpb.reservedSectors + bpb.numFats * bpb.fatSize32) =
      bpb.reservedSectors + bpb.numFats * bpb.fatSize32 := u32_of_lt
  simp only [clusterToSector, Bpb.vol]
  rw [sub32_of_le h2 hc, hstart, u32_of_lt h]

lemma Bpb.Consistent.inside (h : bpb.Consistent) (hr : bpb.Ranges) (h2 : 2 ≤ c)
    (hc : c < (bpb.vol startLba).totalClusters + 2) : Inside bpb (bpb.vol startLba) c := by
  obtain ⟨hbytes, hcl, htot, hfat⟩ := hr
  simp only [vol] at hc
  rcases h with hnone | ⟨hn, hstart, hle, hwrap, htable⟩
  · rw [div_eq_of_lt hnone] at hc
    omega
  rw [u32_of_lt hstart, sub32_of_le hle htot] at hc
  have := div_mul_le_self
    (bpb.totalSectors32 - (bpb.reservedSectors + bpb.numFats * bpb.fatSize32))
    bpb.sectorsPerCluster
  generalize (bpb.totalSectors32 - (bpb.reservedSectors + bpb.numFats * bpb.fatSize32)) /
    bpb.sectorsPerCluster = k at *
  have : bpb.fatSize32 ≤ bpb.numFats * bpb.fatSize32 := Nat.le_mul_of_pos_left _ hn
  have : (c - 2) * bpb.sectorsPerCluster + bpb.sectorsPerCluster ≤
      k * bpb.sectorsPerCluster := by
    rw [← succ_mul]
    exact mul_le_mul_right _ (by omega)
  have : 4 * c / bpb.bytesPerSector < bpb.fatSize32 := by
    rw [div_lt_iff_lt_mul hbytes]
    omega
  have hdata := clusterToSector_eq bpb startLba (by omega) h2 (by omega)
  have hpos := entry_eq bpb startLba (c := c) (by omega) (by omega)
  refine ⟨hpos, ?_, hdata, ?_, ?_⟩
  · rw [add_mul]; omega
  · rw [hdata]; omega
  · rw [hdata]; omega

lemma consistent_of_inside (hr : bpb.Ranges)
    (h : ∀ c, 2 ≤ c → c < (bpb.vol startLba).totalClusters + 2 → Inside bpb (bpb.vol startLba) c) :
    bpb.Consistent := by
  obtain ⟨hbytes, hcl, htot, hfat⟩ := hr
  refine or_iff_not_imp_left.mpr fun hsome => ?_
  have : 1 ≤ (bpb.vol startLba).totalClusters := div_pos (by omega) hcl
  have hfirst := h 2 (by omega) (by omega)
  have hlast := h ((bpb.vol startLba).totalClusters + 1) (by omega) (by omega)
  have hdata := hfirst.data
  -- The first cluster is at the start of the data area, so that start is exact.
  have hstart : u32 (bpb.reservedSectors + bpb.numFats * bpb.fatSize32) =
      bpb.reservedSectors + bpb.numFats * bpb.fatSize32 := by
    have : clusterToSector (bpb.vol startLba) 2 < 2 ^ 32 := u32_lt _
    exact u32_of_lt
  have := hfirst.data_le
  have := hfirst.apart
  have hcount : (bpb.vol startLba).totalClusters =
      (bpb.totalSectors32 - (bpb.reservedSectors + bpb.numFats * bpb.fatSize32)) /
        bpb.sectorsPerCluster := by
    simp only [Bpb.vol]
    rw [hstart, sub32_of_le (by omega) htot]
  have hentry := hlast.entry_le
  rw [hlast.entry, add_mul] at hentry
  refine ⟨?_, by omega, by omega, ?_, ?_⟩
  · by_contra hzero
    obtain hzero : bpb.numFats = 0 := by omega
    rw [hzero] at hdata
    obtain hempty : bpb.fatSize32 = 0 := by omega
    rw [hempty] at hentry
    omega
  · rw [← hcount]; exact entry_noWrap hlast.entry
  · rw [← hcount]; omega

end Layout

/-- The layout taken from an accepted boot sector holds every cluster exactly when the
fields agree with each other. -/
theorem mount_inside_iff {startLba : Nat} {buf : Mem} {v : Vol}
    (h : fat32Mount startLba buf = some v) :
    (∀ c, 2 ≤ c → c < v.totalClusters + 2 → Inside (bpbOf buf) v c) ↔
      (bpbOf buf).Consistent := by
  obtain ⟨rfl, hr⟩ := fat32Mount_some h
  exact ⟨consistent_of_inside hr, fun hc c h2 hlt => hc.inside hr h2 hlt⟩

/-- A boot sector with 512-byte sectors, one sector in a cluster, one reserved sector, two
tables of `fatSize` sectors and `total` sectors in all. -/
def bootSector (fatSize total : Nat) : Mem :=
  Mem.write (fun _ => 0) 11 2 512
    |>.write 13 1 1 |>.write 14 2 1 |>.write 16 1 2 |>.write 32 4 total |>.write 36 4 fatSize
    |>.write 44 4 2 |>.store 82 fat32Type

/-- 126 clusters and a table of 128 entries. -/
theorem mount_inside_iff_exact :
    fat32Mount 0 (bootSector 1 129) = some ((bpbOf (bootSector 1 129)).vol 0) ∧
      ((∀ c, 2 ≤ c → c < ((bpbOf (bootSector 1 129)).vol 0).totalClusters + 2 →
        Inside (bpbOf (bootSector 1 129)) ((bpbOf (bootSector 1 129)).vol 0) c) ↔
          (bpbOf (bootSector 1 129)).Consistent) := by
  have hm : fat32Mount 0 (bootSector 1 129) = some ((bpbOf (bootSector 1 129)).vol 0) := by
    decide +kernel
  exact ⟨hm, mount_inside_iff hm⟩

/-- One cluster more: cluster 128 has its entry in the second table. -/
theorem mount_accepts_short_table :
    ∃ v, fat32Mount 0 (bootSector 1 130) = some v ∧
      ¬ ∀ c, 2 ≤ c → c < v.totalClusters + 2 → Inside (bpbOf (bootSector 1 130)) v c := by
  refine ⟨(bpbOf (bootSector 1 130)).vol 0, by decide +kernel, fun h => ?_⟩
  have hlast := (h 128 (by decide) (by decide +kernel)).entry_le
  revert hlast
  decide +kernel

end YamKernel.Fat32
