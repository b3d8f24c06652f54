import UnionCollegeCode.OS161.Process
import UnionCollegeCode.OS161.Files.FileTable

/-!
# `open.c`, `close.c`, `dup2.c`, `read.c`, `write.c`, `lseek.c`

The descriptor calls of a process with the file table `procFt` (`curproc->proc_ft`). What the rest of
the kernel answers them (allocations, copies to and from user memory, the VFS) is an argument, with 0
for success where it answers an error code; a `VOP` on a regular file reads and writes its bytes. A
result below zero is an error code.
-/

set_option autoImplicit false

namespace UnionCollegeCode.OS161.Files

open Function (update)
open Lib.EState

def EFAULT : ℤ := 6
def ENODEV : ℤ := 25
def ENFILE : ℤ := 29
def EBADF : ℤ := 30
def EIO : ℤ := 32
def ESPIPE : ℤ := 33
def ENOSPC : ℤ := 36

def seekSet : ℤ := 0
def seekCur : ℤ := 1
def seekEnd : ℤ := 2

/-- Conversion to `int`. -/
def toInt (x : ℤ) : ℤ := Int.bmod x (2 ^ 32)

/-- How a `VOP_READ` or `VOP_WRITE` ends: what it returns, and how many bytes it is good for. -/
structure VopResult where
  result : ℕ
  limit : ℕ
  deriving DecidableEq, Repr

/-- `VOP_READ` of `len` bytes at `off`: the bytes moved. -/
def vopRead (v : Option Ptr) (len : ℕ) (off : ℤ) (r : VopResult) : FileM (ℕ × List UInt8) := do
  let (v, _) ← derefVnode v
  let bytes := (((← get).contents v).drop off.toNat).take (min r.limit len)
  return (r.result, bytes)

theorem wp_vopRead {s : FileKernel} {E : Stop → FileKernel → Prop} {v : Option Ptr} {len : ℕ}
    {off : ℤ} {r : VopResult} {Q : ℕ × List UInt8 → FileKernel → Prop} :
    wp (vopRead v len off r) Q E s ↔
      (∀ w, v = some w → s.vnRefcount w ≠ 0 →
        Q (r.result, ((s.contents w).drop off.toNat).take (min r.limit len)) s) ∧
      ((∀ w, v = some w → s.vnRefcount w = 0) → E .fault s) := by
  simp only [vopRead, wp_bind, wp_derefVnode, wp_get, wp_pure]

/-- A file of bytes with `new` put in at `off`, and zeros up to there. -/
def overwrite (old : List UInt8) (off : ℕ) (new : List UInt8) : List UInt8 :=
  old.take off ++ List.replicate (off - old.length) 0 ++ new ++ old.drop (off + new.length)

/-- `VOP_WRITE` at `off`: how many of the bytes of `data` were moved. -/
def vopWrite (v : Option Ptr) (data : List UInt8) (off : ℤ) (r : VopResult) : FileM (ℕ × ℕ) := do
  let (v, _) ← derefVnode v
  let new := data.take r.limit
  if new ≠ [] then
    modify fun s => { s with contents := update s.contents v (overwrite (s.contents v) off.toNat new) }
  return (r.result, new.length)

/-- The file under `fd`, or an early return. -/
def withFile {α : Type} (procFt : Option Ptr) (fd : ℤ) (missing : α) (found : Ptr → FileM α) :
    FileM α := do
  match ← fileTableLookup procFt fd with
  | none => return missing
  | some p => found p

/-! ## `sys_open`, `sys_close`, `sys_dup2` -/

/-- How the calls that `sys_open` makes end. -/
structure OpenAnswers where
  /-- `kmalloc(PATH_MAX)`. -/
  buf : Bool
  copyin : ℕ
  /-- The result of `vfs_open`, and the vnode it found. -/
  vfsOpen : ℕ × Option Ptr
  /-- The allocations of `file_create`. -/
  file : Bool
  deriving DecidableEq, Repr

/-- `vfs_open` hands over one reference to its vnode. -/
def vfsOpen (answer : ℕ × Option Ptr) : FileM (ℕ × Option Ptr) := do
  match answer with
  | (0, some v) =>
    modify fun s => s.setCount v (s.vnRefcount v + 1)
    return (0, some v)
  | _ => return answer

/-- `sys_open` once it has its file and vnode. -/
def openFile (procFt : Option Ptr) (p : Ptr) (v : Option Ptr) : FileM ℤ := do
  let f ← derefFile p
  modify fun s => s.setFile p (some { f with fileVnode := v })
  let result ← fileTableAdd procFt (some p)
  if result < minFd then
    let _ ← fileDestroy (some p)
    return -ENFILE
  else
    return result

/-- The flags are for `vfs_open`, whose answer is given. Where that fails, `v` was never set and
`vnode_cleanup` follows it. -/
def sysOpen (procFt : Option Ptr) (filename : Option Ptr) (_flags : ℤ) (a : OpenAnswers) :
    FileM ℤ := do
  if filename = none then
    return -EFAULT
  else if a.buf = false then
    return - EIO
  else if a.copyin ≠ 0 then
    return -(a.copyin : ℤ)
  else
    let (result, v) ← vfsOpen a.vfsOpen
    if result ≠ 0 then
      throw .fault
    else if v = none then
      return -ENODEV
    else
      match ← fileCreate a.file with
      | none =>
        vnodeCleanup v
        return -ENOSPC
      | some p => openFile procFt p v

def sysClose (procFt : Option Ptr) (fd : ℤ) : FileM ℤ := do
  if fd < minFd ∨ fd ≥ openMax then
    return -EBADF
  else
    withFile procFt fd (-EBADF) fun f => do
      let q ← nonNull procFt
      tableLockAcquire q
      let t ← derefTable q
      modify fun s => s.setTable q (some { t with fileArr := update t.fileArr fd none })
      tableLockRelease q
      let result ← fileDestroy (some f)
      return -result

/-- `file_copy` answers 0, never a descriptor. -/
def sysDup2 (procFt : Option Ptr) (oldfd newfd : ℤ) : FileM ℤ := do
  let newfd ← fileCopy procFt oldfd newfd
  if newfd < minFd then
    return -EBADF
  else
    return newfd

/-! ## `sys_read`, `sys_write`, `sys_lseek` -/

/-- How the calls that `sys_read` makes end. -/
structure ReadAnswers where
  /-- What `getch` returns, call by call. -/
  getch : ℕ → ℤ
  /-- `kmalloc(buflen)`, which nobody checks. -/
  buf : Bool
  copyout : ℕ
  vopRead : VopResult

/-- The loop over `getch`, `n` rounds from `i` on: the characters read, or the negative answer. -/
def getchFrom (getch : ℕ → ℤ) (buf : Bool) : ℕ → ℕ → FileM (ℤ ⊕ List UInt8)
  | 0, _ => return .inr []
  | n + 1, i => do
    let ch := getch i
    if ch < 0 then
      return .inl ch
    else if buf = false then
      throw .fault
    else if ch = 10 ∨ ch = 13 then
      return .inr []
    else
      match ← getchFrom getch buf n (i + 1) with
      | .inl e => return .inl e
      | .inr rest => return .inr (UInt8.ofNat ch.toNat :: rest)

/-- `sys_read` once it has found its file: the result, and what is put at `buf`. An error leaves it
with the file's lock. -/
def readFile (p : Ptr) (buflen : UInt32) (r : VopResult) : FileM (ℤ × List UInt8) := do
  fileLockAcquire p
  let f ← derefFile p
  let (result, bytes) ← vopRead f.fileVnode buflen.toNat f.seekPos r
  if result ≠ 0 then
    return (-(result : ℤ), bytes)
  else
    modify fun s => s.setFile p (some { f with seekPos := toInt (f.seekPos + bytes.length) })
    fileLockRelease p
    return (toInt bytes.length, bytes)

/-- `sys_read` from the console. The newline that ends the input is not handed out. -/
def readConsole (buflen : UInt32) (a : ReadAnswers) : FileM (ℤ × List UInt8) := do
  match ← getchFrom a.getch a.buf buflen.toNat 0 with
  | .inl e => return (e, [])
  | .inr chars =>
    if a.copyout ≠ 0 then
      return (-EFAULT, [])
    else
      return (toInt chars.length, chars)

def sysRead (procFt : Option Ptr) (fd : ℤ) (buf : Option Ptr) (buflen : UInt32) (a : ReadAnswers) :
    FileM (ℤ × List UInt8) := do
  if fd < 0 ∨ fd ≥ openMax then
    return (-EBADF, [])
  else if buf = none then
    return (-EFAULT, [])
  else if fd = 0 then
    readConsole buflen a
  else if fd = 1 then
    return (-EBADF, [])
  else if fd = 2 then
    return (-EBADF, [])
  else
    withFile procFt fd (-EBADF, []) fun p => readFile p buflen a.vopRead

/-- How the calls that `sys_write` makes end. -/
structure WriteAnswers where
  /-- `kmalloc(buflen)`. -/
  buf : Bool
  copyin : ℕ
  vopWrite : VopResult
  deriving DecidableEq, Repr

/-- `sys_write` once it has found its file. The offset stays where it is. -/
def writeFile (p : Ptr) (data : List UInt8) (r : VopResult) : FileM ℤ := do
  fileLockAcquire p
  let f ← derefFile p
  let (result, moved) ← vopWrite f.fileVnode data f.seekPos r
  fileLockRelease p
  if result ≠ 0 then
    return -(result : ℤ)
  else
    return toInt moved

/-- `sys_write` to the console: nothing for a negative length. -/
def writeConsole (data : List UInt8) (buflen : ℤ) : FileM ℤ := do
  modify fun s => { s with console := s.console ++ data.take buflen.toNat }
  return max buflen 0

/-- `user` is what `buf` points to; `buflen` is an `int` that `kmalloc`, `copyin` and `uio_kinit` take
as a `size_t`. -/
def sysWrite (procFt : Option Ptr) (fd : ℤ) (buf : Option Ptr) (user : List UInt8) (buflen : ℤ)
    (a : WriteAnswers) : FileM ℤ := do
  let myBuf := user.take (buflen % 2 ^ 32).toNat
  if fd < 0 ∨ fd ≥ openMax then
    return -EBADF
  else if buf = none then
    return -EFAULT
  else if a.buf = false then
    return - EIO
  else if a.copyin ≠ 0 then
    return -(a.copyin : ℤ)
  else if fd = 0 then
    return -EBADF
  else if fd = 1 then
    writeConsole myBuf buflen
  else if fd = 2 then
    writeConsole myBuf buflen
  else
    withFile procFt fd (-EBADF) fun p => writeFile p myBuf a.vopWrite

/-- How the calls that `sys_lseek` makes end. -/
structure SeekAnswers where
  isSeekable : Bool
  /-- The result of the first `VOP_STAT`. -/
  stat : ℕ
  /-- The result of the second one. -/
  statAgain : ℕ
  deriving DecidableEq, Repr

/-- `join32to64` of a descriptor and the low half of an offset, on a big-endian machine. -/
def join32to64 (fd offset : ℤ) : ℤ := (fd % 2 ^ 32) * 2 ^ 32 + offset % 2 ^ 32

/-- `file->seek_pos = new_pos`, with the file's lock in hand, and the end of `sys_lseek`. -/
def seekTo (p : Ptr) (newPos : ℤ) : FileM ℤ := do
  let f ← derefFile p
  modify fun s => s.setFile p (some { f with seekPos := toInt newPos })
  fileLockRelease p
  return toInt newPos

/-- `sys_lseek` from its `lock_acquire` on. -/
def seekFile (p : Ptr) (curPos whence : ℤ) (a : SeekAnswers) : FileM ℤ := do
  fileLockAcquire p
  let f ← derefFile p
  let (v, _) ← derefVnode f.fileVnode
  let size := ((← get).contents v).length
  if whence = seekSet then
    seekTo p curPos
  else if whence = seekCur then
    seekTo p (f.seekPos + curPos)
  else if whence = seekEnd then
    if a.statAgain ≠ 0 then
      fileLockRelease p
      return -(a.statAgain : ℤ)
    else
      seekTo p (curPos + size)
  else
    fileLockRelease p
    return -EINVAL

/-- A first `VOP_STAT` that fails gives back a lock that was not taken; `whence` is added to the
offset where its sign is checked. -/
def sysLseek (procFt : Option Ptr) (fd offset whence : ℤ) (a : SeekAnswers) : FileM ℤ := do
  let curPos := join32to64 fd offset
  if fd < 0 ∨ fd ≥ openMax then
    return -EBADF
  else if fd = 0 then
    return -EINVAL
  else if fd = 1 then
    return -EINVAL
  else if fd = 2 then
    return -EINVAL
  else
    withFile procFt fd (-EBADF) fun p => do
      let f ← derefFile p
      let _ ← derefVnode f.fileVnode
      if a.isSeekable = false then
        return -ESPIPE
      else if a.stat ≠ 0 then
        fileLockRelease p
        return -(a.stat : ℤ)
      else if whence < 0 then
        return -EINVAL
      else if offset + whence < 0 then
        return -EINVAL
      else
        seekFile p curPos whence a

end UnionCollegeCode.OS161.Files
