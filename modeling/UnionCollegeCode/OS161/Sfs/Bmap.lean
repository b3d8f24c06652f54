import UnionCollegeCode.OS161.Sfs.Device

/-!
# `sfs_balloc.c`, `sfs_bmap.c`: which block of the disk is which block of a file

A vnode is named by its inode, and its fields are those of the entry of `sfs_vnodes`. The buffer for
an indirect block is not part of the state: it is filled before it is read.
-/

set_option autoImplicit false

namespace UnionCollegeCode.OS161.Sfs

open Function (update)
open Lib.EState

def EFBIG : ℕ := 38

/-! ## Vnodes in memory -/

namespace SfsFs

def vnodeOf (s : SfsFs) (ino : UInt32) : Option SfsVnode := s.vnodes.find? fun sv => sv.svIno = ino

def modifyVnode (s : SfsFs) (ino : UInt32) (f : SfsVnode → SfsVnode) : SfsFs :=
  { s with vnodes := s.vnodes.map fun sv => if sv.svIno = ino then f sv else sv }

end SfsFs

/-- Follow a pointer to the vnode of an inode. -/
def vnode (ino : UInt32) : SfsM SfsVnode := do
  match (← get).vnodeOf ino with
  | none => throw (.stop .fault)
  | some sv => return sv

/-- Change the inode of a vnode, which makes it dirty. -/
def changeInode (ino : UInt32) (f : SfsDinode → SfsDinode) : SfsM Unit :=
  modify fun s => s.modifyVnode ino fun sv => { sv with svI := f sv.svI, svDirty := true }

def onFreemap {α : Type} (m : BitmapM α) : SfsM α :=
  zoom SfsFs.freemap (fun s b => { s with freemap := b }) m

section

variable (w : World)

/-! ## `sfs_balloc.c` -/

def sfsClearblock (block : UInt32) : SfsM Unit := sfsWriteblock w block Block.zero

def sfsBalloc : SfsM UInt32 := do
  let index ← onFreemap Bitmap.bitmapAlloc
  let diskblock := UInt32.ofNat index
  modify fun s => { s with freemapdirty := true }
  if (← get).sbNblocks ≤ diskblock then
    throw (.stop (.panic "sfs: balloc: invalid block\n"))
  else
    tryCatch (sfsClearblock w diskblock) fun
      | .errno result => do
        onFreemap (Bitmap.bitmapUnmark diskblock.toNat)
        throw (.errno result)
      | stop => throw stop
    return diskblock

def sfsBfree (diskblock : UInt32) : SfsM Unit := do
  onFreemap (Bitmap.bitmapUnmark diskblock.toNat)
  modify fun s => { s with freemapdirty := true }

def sfsBused (diskblock : UInt32) : SfsM Bool := do
  let s ← get
  if s.sbNblocks ≤ diskblock then
    throw (.stop (.panic "sfs: sfs_bused called on out of range block\n"))
  else
    return s.freemap.bitmapIsset diskblock.toNat

/-! ## `sfs_bmap.c` -/

/-- A block is handed back when it is none, or in use. -/
def handBack (block : UInt32) : SfsM UInt32 := do
  if block = 0 then
    return block
  else if ← sfsBused block then
    return block
  else
    throw (.stop (.panic "sfs: Data block marked free\n"))

def bmapDirect (ino : UInt32) (fileblock : Fin 15) (doalloc : Bool) : SfsM UInt32 := do
  let sv ← vnode ino
  let block := sv.svI.sfiDirect fileblock
  if block = 0 ∧ doalloc = true then
    let block ← sfsBalloc w
    changeInode ino fun d => { d with sfiDirect := update d.sfiDirect fileblock block }
    handBack block
  else
    handBack block

/-- The rest of `sfs_bmap` once the indirect block is in the buffer. -/
def bmapEntry (idblock : UInt32) (idbuf : Fin 128 → UInt32) (idoff : Fin 128) (doalloc : Bool) :
    SfsM UInt32 := do
  let block := idbuf idoff
  if block = 0 ∧ doalloc = true then
    let block ← sfsBalloc w
    sfsWriteblock w idblock (.ofWords (update idbuf idoff block))
    handBack block
  else
    handBack block

def bmapIndirect (ino : UInt32) (idoff : Fin 128) (doalloc : Bool) : SfsM UInt32 := do
  let sv ← vnode ino
  let idblock := sv.svI.sfiIndirect
  if idblock = 0 ∧ doalloc = false then
    return 0
  else if idblock = 0 then
    let idblock ← sfsBalloc w
    changeInode ino fun d => { d with sfiIndirect := idblock }
    bmapEntry w idblock (fun _ => 0) idoff doalloc
  else
    let data ← sfsReadblock w idblock
    bmapEntry w idblock data.words idoff doalloc

def sfsBmap (ino : UInt32) (fileblock : UInt32) (doalloc : Bool) : SfsM UInt32 :=
  if h : fileblock.toNat < sfsNdirect then
    bmapDirect w ino ⟨fileblock.toNat, h⟩ doalloc
  else
    let fileblock := fileblock.toNat - sfsNdirect
    let idnum := fileblock / sfsDbperidb
    let idoff := fileblock % sfsDbperidb
    if sfsNindirect ≤ idnum then
      throw (.errno EFBIG)
    else
      bmapIndirect w ino ⟨idoff, Nat.mod_lt _ (by decide)⟩ doalloc

/-- The loop of `sfs_itrunc` over the direct blocks. -/
def truncDirect (ino : UInt32) (blocklen : ℕ) : List (Fin 15) → SfsM Unit
  | [] => pure ()
  | i :: is => do
    let sv ← vnode ino
    let block := sv.svI.sfiDirect i
    if blocklen ≤ i.1 ∧ block ≠ 0 then
      sfsBfree block
      changeInode ino fun d => { d with sfiDirect := update d.sfiDirect i 0 }
    truncDirect ino blocklen is

/-- The buffer of the indirect block, `hasnonzero` and `iddirty`. -/
structure TruncState where
  idbuf : Fin 128 → UInt32
  hasnonzero : Bool
  iddirty : Bool

/-- The loop over the indirect block. -/
def truncEntries (blocklen : ℕ) : List (Fin 128) → TruncState → SfsM TruncState
  | [], t => pure t
  | j :: js, t => do
    let t ← if blocklen < sfsNdirect + j.1 ∧ t.idbuf j ≠ 0 then do
        sfsBfree (t.idbuf j)
        pure { t with idbuf := update t.idbuf j 0, iddirty := true }
      else pure t
    truncEntries blocklen js (if t.idbuf j ≠ 0 then { t with hasnonzero := true } else t)

def truncIndirect (ino : UInt32) (blocklen : ℕ) : SfsM Unit := do
  let sv ← vnode ino
  let idblock := sv.svI.sfiIndirect
  let highblock := sfsNdirect + sfsDbperidb - 1
  if blocklen < highblock ∧ idblock ≠ 0 then
    let data ← sfsReadblock w idblock
    let t ← truncEntries blocklen (List.finRange 128) ⟨data.words, false, false⟩
    if t.hasnonzero = false then
      sfsBfree idblock
      changeInode ino fun d => { d with sfiIndirect := 0 }
    else if t.iddirty = true then
      sfsWriteblock w idblock (.ofWords t.idbuf)

/-- `DIVROUNDUP(len, SFS_BLOCKSIZE)`, a `uint32_t`. -/
def blocklenOf (len : ℤ) : ℕ := ((len + sfsBlocksize - 1).tdiv sfsBlocksize % 2 ^ 32).toNat

def sfsItrunc (ino : UInt32) (len : ℤ) : SfsM Unit := do
  let blocklen := blocklenOf len
  truncDirect ino blocklen (List.finRange 15)
  truncIndirect w ino blocklen
  changeInode ino fun d => { d with sfiSize := .ofInt len }

end

end UnionCollegeCode.OS161.Sfs
