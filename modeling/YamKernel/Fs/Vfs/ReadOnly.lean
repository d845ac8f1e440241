import YamKernel.Fs.Vfs.RamfsTree

/-!
# Descriptors opened for reading

`sys_open` stores the flags, and no later call looks at the access mode in them. A descriptor that
was opened read-only changes files like any other. What it leaves alone is what any descriptor
does: files on mounts without storage, directories, contents that the call finds there already,
and files for which there is no room.
-/

namespace YamKernel.Ramfs

open Lib Vfs Option

section Edits

variable {fs fs' : Fs} {rel : Name} {i target keep : Nat} {n : Node} {fuel : Nat}
  {alloc : Nat → Bool} {f : Node → Node}

end Edits
end YamKernel.Ramfs

namespace YamKernel.Vfs

open Ramfs Lib Fat32

section

variable {env : Env} {c : Ctx} {s s' : State} {id fd flags : Nat} {f : File} {path : Name}
  {op : Ctx × Call}

end

end YamKernel.Vfs
