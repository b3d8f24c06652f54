import UnionCollegeCode.OS161.Sfs.Inode

/-!
# `sfs_fsops.c`, `mksfs.c`: whole volumes

A mount reads the superblock and the free map, a sync writes what has changed in memory. What is only
in memory when the power goes is lost, and the next mount starts from the disk.
-/

set_option autoImplicit false

namespace UnionCollegeCode.OS161.Sfs

open Function (update)
open Lib.EState

def ENXIO : ℕ := 26

/-- `SFS_FS_FREEMAPBITS`, in `uint32_t`. -/
def sfsFsFreemapbits (nblocks : UInt32) : UInt32 := (nblocks + 4096 - 1) / 4096 * 4096

/-- `SFS_FS_FREEMAPBLOCKS`. -/
def sfsFsFreemapblocks (nblocks : UInt32) : UInt32 := sfsFsFreemapbits nblocks / 4096

/-- The data of the bitmap at `j * SFS_BLOCKSIZE`. -/
def freemapBlock (m : Bitmap) (j : ℕ) : Block := fun i => m.v (j * sfsBlocksize + i.1)

/-- The bitmap with a block read to `j * SFS_BLOCKSIZE`. -/
def loadFreemapBlock (m : Bitmap) (j : ℕ) (data : Block) : Bitmap :=
  { m with v := fun p =>
      if p / sfsBlocksize = j then data ⟨p % sfsBlocksize, Nat.mod_lt _ (by decide)⟩ else m.v p }

section

variable (w : World)

/-- The loop of `sfs_freemapio` over the blocks `js`, writing. -/
def freemapWrite : List ℕ → SfsM Unit
  | [] => return ()
  | j :: js => do
    sfsWriteblock w (.ofNat (sfsFreemapStart + j)) (freemapBlock (← get).freemap j)
    freemapWrite js

/-- The loop of `sfs_freemapio` over the blocks `js`, reading. -/
def freemapRead : List ℕ → SfsM Unit
  | [] => return ()
  | j :: js => do
    let data ← sfsReadblock w (.ofNat (sfsFreemapStart + j))
    modify fun s => { s with freemap := loadFreemapBlock s.freemap j data }
    freemapRead js

def sfsFreemapio (rw : UioRw) : SfsM Unit := do
  let js := List.range (sfsFsFreemapblocks (← get).sbNblocks).toNat
  match rw with
  | .read => freemapRead w js
  | .write => freemapWrite w js

/-- The loop of `sfs_sync_vnodes`. What `VOP_FSYNC` returns is not looked at. -/
def syncLoop : List SfsVnode → SfsM Unit
  | [] => return ()
  | sv :: svs => do
    tryCatch (sfsSyncInode w sv.svIno) fun
      | .errno _ => pure ()
      | stop => throw stop
    syncLoop svs

def sfsSyncVnodes : SfsM Unit := do
  syncLoop w (← get).vnodes

def sfsSyncFreemap : SfsM Unit := do
  if (← get).freemapdirty = true then
    sfsFreemapio w .write
    modify fun s => { s with freemapdirty := false }

def sfsSyncSuperblock : SfsM Unit := do
  let s ← get
  if s.superdirty = true then
    sfsWriteblock w (.ofNat sfsSuperBlock) s.sb.encode
    modify fun s => { s with superdirty := false }

def sfsSync : SfsM Unit := do
  sfsSyncVnodes w
  sfsSyncFreemap w
  sfsSyncSuperblock w

def sfsUnmount : SfsM Unit := do
  let s ← get
  if 0 < s.vnodes.length then
    throw (.errno EBUSY)
  else if s.superdirty = true then
    throw (.stop (.kassert "sfs->sfs_superdirty == false"))
  else if s.freemapdirty = true then
    throw (.stop (.kassert "sfs->sfs_freemapdirty == false"))
  else
    return ()

/-- `vfs_unmount` of a volume. -/
def vfsUnmount : SfsM Unit := do
  sfsSync w
  sfsUnmount

/-- With two allocations. -/
def sfsFsCreate : SfsM Unit := do
  if ← ask w.kmallocFails then
    throw (.errno ENOMEM)
  else if ← ask w.kmallocFails then
    throw (.errno ENOMEM)
  else
    modify fun s => { s with superdirty := false, vnodes := [], freemapdirty := false }

/-- `bitmap_create`, with its two allocations. -/
def createFreemap (nbits : ℕ) : SfsM Unit := do
  if ← ask w.kmallocFails then
    throw (.errno ENOMEM)
  else if ← ask w.kmallocFails then
    throw (.errno ENOMEM)
  else
    match Bitmap.bitmapCreate nbits with
    | .error stop => throw (.stop stop)
    | .ok m => modify fun s => { s with freemap := m }

/-- Of the state it starts from, a mount uses the disk alone. -/
def sfsDomount (dBlocksize : ℕ) : SfsM Unit := do
  if dBlocksize ≠ sfsBlocksize then
    throw (.errno ENXIO)
  else
    sfsFsCreate w
    let data ← sfsReadblock w (.ofNat sfsSuperBlock)
    let sb := SfsSuperblock.decode data
    if sb.sbMagic ≠ sfsMagic then
      throw (.errno EINVAL)
    else
      modify fun s => { s with sb := { sb with sbVolname := update sb.sbVolname 31 0 } }
      createFreemap w (sfsFsFreemapbits sb.sbNblocks).toNat
      sfsFreemapio w .read

end

/-! ## `mksfs.c` -/

def maxfreemapblocks : ℕ := 32

/-- `allocblock`. The mask is an `unsigned char`. -/
def allocblock (block : ℕ) (buf : ℕ → UInt8) : Except String (ℕ → UInt8) :=
  if buf (block / 8) &&& Bitmap.mask (block % 8) ≠ 0 then
    .error "(freemapbuf[mapbyte] & mask) == 0"
  else
    .ok (update buf (block / 8) (buf (block / 8) ||| Bitmap.mask (block % 8)))

def allocblocks : List ℕ → (ℕ → UInt8) → Except String (ℕ → UInt8)
  | [], buf => .ok buf
  | block :: blocks, buf => allocblock block buf >>= allocblocks blocks

/-- `initfreemap`. -/
def initfreemap (fsblocks : UInt32) : Except String (ℕ → UInt8) := do
  let freemapbits := (sfsFsFreemapbits fsblocks).toNat
  let freemapblocks := (sfsFsFreemapblocks fsblocks).toNat
  if maxfreemapblocks < freemapblocks then
    throw "Filesystem too large -- increase MAXFREEMAPBLOCKS and recompile"
  else
    let buf ← allocblock sfsSuperBlock fun _ => 0
    let buf ← allocblock sfsRootdirIno.toNat buf
    let buf ← allocblocks (List.range' sfsFreemapStart freemapblocks) buf
    allocblocks (List.range' fsblocks.toNat (freemapbits - fsblocks.toNat)) buf

/-- The checks of `main`: a colon may only be the last character, and is cut off. -/
def volumeName (volname : CString) : Except String (List UInt8) :=
  let colon := volname.1.dropWhile (· ≠ 58)
  let name := volname.1.takeWhile (· ≠ 58)
  if colon ≠ [] ∧ colon.length ≠ 1 then
    .error "Illegal volume name"
  else if 47 ∈ name then
    .error "Illegal volume name"
  else
    .ok name

/-- `writesuper`. -/
def superblockOf (volname : List UInt8) (nblocks : UInt32) : Except String SfsSuperblock :=
  if 32 ≤ volname.length then
    .error "Volume name too long"
  else
    .ok ⟨sfsMagic, nblocks, fun i => volname.getD i.1 0, fun _ => 0⟩

/-- `writerootdir`. -/
def rootdirInode : SfsDinode := ⟨0, sfsTypeDir, 1, fun _ => 0, 0, fun _ => 0⟩

/-- `writefreemap`. -/
def writefreemap (buf : ℕ → UInt8) : List ℕ → (ℕ → Block) → ℕ → Block
  | [], disk => disk
  | j :: js, disk =>
    writefreemap buf js (update disk (sfsFreemapStart + j) fun i => buf (j * sfsBlocksize + i.1))

/-- `main`, on a disk of `size` blocks. -/
def mksfs (volname : CString) (size : UInt32) (disk : ℕ → Block) : Except String (ℕ → Block) := do
  let name ← volumeName volname
  let buf ← initfreemap size
  let sb ← superblockOf name size
  let disk := update disk sfsSuperBlock sb.encode
  let disk := writefreemap buf (List.range (sfsFsFreemapblocks size).toNat) disk
  return update disk sfsRootdirIno.toNat rootdirInode.encode

end UnionCollegeCode.OS161.Sfs
