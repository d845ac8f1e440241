import YamKernel.Lib.Loop
import YamKernel.Lib.Memory
import YamKernel.Lib.Word
import YamKernel.Fs.Vfs.Path

/-!
# The RAM file system

The `ramfs_*` functions of `fs/vfs.c`: a table of 128 nodes, each with its whole path as its
name, and a budget of 16 MB for the buffers of all files. There are no directories to hold
the nodes; a node is below another one when its name says so.

A buffer is a memory of its own, so a write past its end shows in the bytes after `cap`.
`alloc` says which sizes `kmalloc` can serve during a call. The loop that doubles a capacity
takes a fuel; the outer `none` says that it was not enough, the inner one is the result -1.
-/

namespace YamKernel.Ramfs

open Lib Vfs List

def ramfsMaxFiles : Nat := 128
def ramfsMaxData : Nat := 16 * 1024 * 1024

/-- The size of the field `name` of a node, with the terminator. -/
def nameSize : Nat := 192

structure Node where
  name : Name
  data : Mem
  size : Nat
  cap : Nat
  isDir : Bool

/-- `ramfs_t`; an entry that is not `used` is `none`. -/
structure Fs where
  nodes : Nat → Option Node
  bytesUsed : Nat

def Fs.setNode (fs : Fs) (i : Nat) (n : Option Node) : Fs :=
  { fs with nodes := Function.update fs.nodes i n }

def emptyNode (name : Name) (isDir : Bool) : Node := ⟨name, fun _ => 0, 0, 0, isDir⟩

def ramfsInit : Fs := ⟨fun i => if i = 0 then some (emptyNode [slash] true) else none, 0⟩

def ramfsFind (fs : Fs) (path : Name) : Option Nat :=
  if path = [] then none
  else (range ramfsMaxFiles).find? fun i => (fs.nodes i).any fun n => n.name = path

/-- The existing node, whatever it is, or a new one. A name is cut to fit its field. -/
def ramfsCreate (fs : Fs) (path : Name) (isDir : Bool) : Option Nat × Fs :=
  if path = [] then (none, fs)
  else match ramfsFind fs path with
    | some i => (some i, fs)
    | none => match (range ramfsMaxFiles).find? fun i => (fs.nodes i).isNone with
      | some i => (some i, fs.setNode i (some (emptyNode (path.take (nameSize - 1)) isDir)))
      | none => (none, fs)

/-- The file to write to, created if it is not there; `none` for a directory. -/
def ramfsOpenFile (fs : Fs) (path : Name) : Option (Nat × Node) × Fs :=
  match ramfsCreate fs path false with
  | (none, fs) => (none, fs)
  | (some i, fs) => match fs.nodes i with
    | some n => (if n.isDir then none else some (i, n), fs)
    | none => (none, fs)

def ramfsRead (fs : Fs) (path : Name) (count offset : Nat) : Option (List UInt8) :=
  match (ramfsFind fs path).bind fs.nodes with
  | none => none
  | some n =>
    if n.isDir then none
    else if offset ≥ n.size then some []
    else some (n.data.load offset (min (n.size - offset) count))

/-- `while (newcap < end) newcap *= 2` -/
def growBody (target newcap : Nat) : Nat ⊕ Nat :=
  if newcap < target then .inl (u64 (newcap * 2)) else .inr newcap

def growCap (fuel cap target : Nat) : Option Nat :=
  loop (growBody target) fuel (if cap ≠ 0 then cap else 256)

/-- The common part of `ramfs_write` and `ramfs_resize`: a buffer for `target` bytes that
keeps the first `keep` ones. -/
def enlarge (fuel : Nat) (alloc : Nat → Bool) (fs : Fs) (i : Nat) (n : Node)
    (target keep : Nat) : Option (Option (Node × Fs)) :=
  if target > n.cap then
    (growCap fuel n.cap target).map fun newcap =>
      let bytesUsed := u64 (sub64 fs.bytesUsed n.cap + newcap)
      if bytesUsed > ramfsMaxData then none
      else if alloc newcap then
        let n := { n with data := fun k => if k < keep then n.data k else 0, cap := newcap }
        some (n, { fs.setNode i (some n) with bytesUsed })
      else none
  else some (some (n, fs))

def ramfsWrite (fuel : Nat) (alloc : Nat → Bool) (fs : Fs) (path : Name) (buf : List UInt8)
    (offset : Nat) : Option (Option Nat × Fs) :=
  match ramfsOpenFile fs path with
  | (none, fs) => some (none, fs)
  | (some (i, n), fs) =>
    let last := u64 (offset + buf.length)
    (enlarge fuel alloc fs i n last n.size).map fun
      | none => (none, fs)
      | some (n, fs) => (some buf.length, fs.setNode i (some
          { n with data := n.data.store offset buf, size := max n.size last }))

def ramfsTruncate (fs : Fs) (path : Name) : Bool × Fs :=
  match ramfsOpenFile fs path with
  | (none, fs) => (false, fs)
  | (some (i, n), fs) => (true, fs.setNode i (some { n with size := 0 }))

def ramfsResize (fuel : Nat) (alloc : Nat → Bool) (fs : Fs) (path : Name) (size : Nat) :
    Option (Bool × Fs) :=
  match ramfsOpenFile fs path with
  | (none, fs) => some (false, fs)
  | (some (i, n), fs) =>
    (enlarge fuel alloc fs i n size (min n.size size)).map fun
      | none => (false, fs)
      | some (n, fs) =>
        (true, fs.setNode i (some { n with
          data := if n.cap ≠ 0 ∧ size > n.size then n.data.fill n.size (size - n.size) 0
            else n.data
          size }))

def Below (path name : Name) : Prop := (path ++ [slash]) <+: name

instance (path name : Name) : Decidable (Below path name) :=
  inferInstanceAs (Decidable (_ <+: _))

def Fs.release (fs : Fs) (i : Nat) : Fs :=
  match fs.nodes i with
  | some n => { fs.setNode i none with bytesUsed := sub64 fs.bytesUsed n.cap }
  | none => fs

/-- One entry in the loop of `ramfs_unlink`; `i` is the node to be removed. -/
def unlinkBelow (path : Name) (i : Nat) (fs : Fs) (j : Nat) : Fs :=
  match fs.nodes j with
  | some n => if j ≠ i ∧ Below path n.name then fs.release j else fs
  | none => fs

def ramfsUnlink (fs : Fs) (path : Name) : Bool × Fs :=
  match ramfsFind fs path with
  | none => (false, fs)
  | some i =>
    if path = [slash] then (false, fs)
    else (true, ((range ramfsMaxFiles).foldl (unlinkBelow path i) fs).release i)

/-- The loop of `ramfs_rename` over the other nodes; it stops at a name that does not fit. -/
def renameBelow (old new : Name) (i : Nat) : List Nat → Fs → Bool × Fs
  | [], fs => (true, fs)
  | j :: js, fs => match fs.nodes j with
    | some child =>
      if j ≠ i ∧ Below old child.name then
        let rest := child.name.drop old.length
        if new.length + rest.length ≥ nameSize then (false, fs)
        else renameBelow old new i js (fs.setNode j (some { child with name := new ++ rest }))
      else renameBelow old new i js fs
    | none => renameBelow old new i js fs

def ramfsRename (fs : Fs) (old new : Name) : Bool × Fs :=
  match ramfsFind fs old with
  | none => (false, fs)
  | some i => match fs.nodes i with
    | none => (false, fs)
    | some n =>
      if old = [slash] ∨ (ramfsFind fs new).isSome ∨ new.length ≥ nameSize then (false, fs)
      else
        let fs := fs.setNode i (some { n with name := new })
        if n.isDir then renameBelow old new i (range ramfsMaxFiles) fs else (true, fs)

end YamKernel.Ramfs
