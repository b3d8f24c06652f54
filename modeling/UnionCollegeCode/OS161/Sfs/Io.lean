import UnionCollegeCode.OS161.Sfs.Bmap

/-!
# `sfs_io.c`: bytes of a file

The number of a block within a file is a `uint32_t`, whatever the offset. So is the offset on the
disk that `sfs_blockio` gives to the device.
-/

set_option autoImplicit false

namespace UnionCollegeCode.OS161.Sfs

open Lib.EState

def zerosLength : ℕ := 16

section

variable (w : World)

/-- The loop of `uiomovezeros`. -/
def zerosLoop (n : ℕ) : IoM Unit := do
  if 0 < n then
    let amt := min zerosLength n
    let _ ← uiomove w (List.replicate amt 0)
    zerosLoop (n - amt)
termination_by n
decreasing_by
  unfold zerosLength
  omega

def uiomovezeros (n : ℕ) : IoM Unit := do
  if (← get).2.uioRw ≠ .read then
    throw (.stop (.kassert "uio->uio_rw == UIO_READ"))
  else
    zerosLoop w n

/-- What comes after `m` is done with or without an error of `m`. -/
def thenAlways (m out : IoM Unit) : IoM Unit := do
  tryCatch m fun
    | .errno result => do
      out
      throw (.errno result)
    | stop => throw stop
  out

/-- `iobuf`, filled. -/
def fillIobuf (diskblock : UInt32) : IoM Block :=
  if diskblock = 0 then pure Block.zero else onSfs (sfsReadblock w diskblock)

def sfsPartialio (ino : UInt32) (skipstart len : ℕ) : IoM Unit := do
  let (_, u) ← get
  if sfsBlocksize < skipstart + len then
    throw (.stop (.kassert "skipstart + len <= SFS_BLOCKSIZE"))
  else
    let fileblock := UInt32.ofNat (u.uioOffset / sfsBlocksize)
    let diskblock ← onSfs (sfsBmap w ino fileblock (u.uioRw = .write))
    if diskblock = 0 ∧ u.uioRw ≠ .read then
      throw (.stop (.kassert "uio->uio_rw == UIO_READ"))
    else
      let iobuf ← fillIobuf w diskblock
      let before := iobuf.toList.take skipstart
      let after := iobuf.toList.drop (skipstart + len)
      let moved ← uiomove w ((iobuf.toList.drop skipstart).take len)
      if u.uioRw = .write then
        onSfs (sfsWriteblock w diskblock (.ofList (before ++ moved ++ after)))

def sfsBlockio (ino : UInt32) : IoM Unit := do
  let (_, u) ← get
  let fileblock := UInt32.ofNat (u.uioOffset / sfsBlocksize)
  let diskblock ← onSfs (sfsBmap w ino fileblock (u.uioRw = .write))
  if diskblock = 0 then
    if u.uioRw ≠ .read then
      throw (.stop (.kassert "uio->uio_rw == UIO_READ"))
    else
      uiomovezeros w sfsBlocksize
  else if u.uioResid < sfsBlocksize then
    throw (.stop (.kassert "uio->uio_resid >= SFS_BLOCKSIZE"))
  else
    let saveoff := u.uioOffset
    let diskoff := (diskblock * UInt32.ofNat sfsBlocksize).toNat
    let saveres := u.uioResid
    modify fun t => (t.1, { t.2 with uioOffset := diskoff, uioResid := sfsBlocksize })
    thenAlways (sfsRwblock w) (modify fun t => (t.1, { t.2 with
      uioOffset := t.2.uioOffset - diskoff + saveoff
      uioResid := t.2.uioResid + saveres - sfsBlocksize }))

def blockLoop (ino : UInt32) : ℕ → IoM Unit
  | 0 => pure ()
  | n + 1 => do
    sfsBlockio w ino
    blockLoop ino n

/-- Any leading partial block. -/
def sfsIoLead (ino : UInt32) : IoM Unit := do
  let (_, u) ← get
  let blkoff := u.uioOffset % sfsBlocksize
  if blkoff ≠ 0 then
    sfsPartialio w ino blkoff (min (sfsBlocksize - blkoff) u.uioResid)

/-- `sfs_io` from the check for the end of the file to `out:`. -/
def sfsIoParts (ino : UInt32) : IoM Unit := do
  sfsIoLead w ino
  let (_, u) ← get
  if u.uioResid = 0 then
    return ()
  else if u.uioOffset % sfsBlocksize ≠ 0 then
    throw (.stop (.kassert "uio->uio_offset % SFS_BLOCKSIZE == 0"))
  else
    blockLoop w ino (u.uioResid / sfsBlocksize)
    let (_, u) ← get
    if sfsBlocksize ≤ u.uioResid then
      throw (.stop (.kassert "uio->uio_resid < SFS_BLOCKSIZE"))
    else if 0 < u.uioResid then
      sfsPartialio w ino 0 u.uioResid

/-- From `out:` on. -/
def sfsIoOut (ino : UInt32) (origresid extraresid : ℕ) : IoM Unit := do
  let (_, u) ← get
  let sv ← onSfs (vnode ino)
  if u.uioResid ≠ origresid ∧ u.uioRw = .write ∧ sv.svI.sfiSize.toNat < u.uioOffset then
    onSfs (changeInode ino fun d => { d with sfiSize := .ofNat u.uioOffset })
  modify fun t => (t.1, { t.2 with uioResid := t.2.uioResid + extraresid })

def sfsIo (ino : UInt32) : IoM Unit := do
  let (_, u) ← get
  let origresid := u.uioResid
  let sv ← onSfs (vnode ino)
  let size := sv.svI.sfiSize.toNat
  if u.uioRw = .read ∧ size ≤ u.uioOffset then
    return ()
  else
    let extraresid := if u.uioRw = .read then u.uioOffset + u.uioResid - size else 0
    if extraresid ≠ 0 ∧ u.uioResid ≤ extraresid then
      throw (.stop (.kassert "uio->uio_resid > extraresid"))
    else
      modify fun t => (t.1, { t.2 with uioResid := t.2.uioResid - extraresid })
      thenAlways (sfsIoParts w ino) (sfsIoOut ino origresid extraresid)

/-- A piece of `data` that lies within one block, for entries of directories. What `data` is
afterwards. -/
def sfsMetaio (ino : UInt32) (actualpos : ℕ) (data : List UInt8) (rw : UioRw) : SfsM (List UInt8) := do
  let vnblock := UInt32.ofNat (actualpos / sfsBlocksize)
  let blockoffset := actualpos % sfsBlocksize
  let diskblock ← sfsBmap w ino vnblock (rw = .write)
  if diskblock = 0 then
    if rw ≠ .read then
      throw (.stop (.kassert "rw == UIO_READ"))
    else
      return List.replicate data.length 0
  else
    let metaiobuf ← sfsReadblock w diskblock
    match rw with
    | .read => return (metaiobuf.toList.drop blockoffset).take data.length
    | .write =>
      sfsWriteblock w diskblock (.ofList (metaiobuf.toList.take blockoffset ++ data ++
        metaiobuf.toList.drop (blockoffset + data.length)))
      let endpos := actualpos + data.length
      let sv ← vnode ino
      if sv.svI.sfiSize.toNat < endpos then
        changeInode ino fun d => { d with sfiSize := .ofNat endpos }
      return data

end

/-! ## `sfs_vnops.c` -/

section

variable (w : World)

def sfsRead (ino : UInt32) : IoM Unit := do
  if (← get).2.uioRw ≠ .read then
    throw (.stop (.kassert "uio->uio_rw==UIO_READ"))
  else
    sfsIo w ino

def sfsWrite (ino : UInt32) : IoM Unit := do
  if (← get).2.uioRw ≠ .write then
    throw (.stop (.kassert "uio->uio_rw==UIO_WRITE"))
  else
    sfsIo w ino

end

end UnionCollegeCode.OS161.Sfs
