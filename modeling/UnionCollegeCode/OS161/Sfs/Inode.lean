import UnionCollegeCode.OS161.Sfs.Bmap

/-!
# `sfs_inode.c`: inodes in memory

The reference that `vnode_decref` does not take off goes with the call to `sfs_reclaim`. When that
fails, for all but `EBUSY`, nobody has the reference any more and the vnode stays in the table.
-/

set_option autoImplicit false

namespace UnionCollegeCode.OS161.Sfs

open Lib.EState

def ENOMEM : ℕ := 3
def EBUSY : ℕ := 27

/-- Change the number of references to a vnode. -/
def changeRefcount (ino : UInt32) (f : ℕ → ℕ) : SfsM Unit :=
  modify fun s => s.modifyVnode ino fun sv => { sv with vnRefcount := f sv.vnRefcount }

def vnodeIncref (ino : UInt32) : SfsM Unit := do
  let _ ← vnode ino
  changeRefcount ino (· + 1)

section

variable (w : World)

def sfsSyncInode (ino : UInt32) : SfsM Unit := do
  let sv ← vnode ino
  if sv.svDirty = true then
    sfsWriteblock w sv.svIno sv.svI.encode
    modify fun s => s.modifyVnode ino fun sv => { sv with svDirty := false }

/-- If there are no on-disk references to the file either, erase it. -/
def eraseFile (ino : UInt32) : SfsM Unit := do
  let sv ← vnode ino
  if sv.svI.sfiLinkcount = 0 then
    sfsItrunc w ino 0

/-- If there are no on-disk references, discard the inode. -/
def discardInode (ino : UInt32) : SfsM Unit := do
  let sv ← vnode ino
  if sv.svI.sfiLinkcount = 0 then
    sfsBfree sv.svIno

/-- Remove the vnode structure from the table. -/
def removeVnode (ino : UInt32) : SfsM Unit := do
  match (← get).vnodeOf ino with
  | none => throw (.stop (.panic "sfs: reclaim vnode not in vnode pool\n"))
  | some sv =>
    modify fun s => { s with vnodes := s.vnodes.eraseP fun sv => sv.svIno = ino }
    if sv.vnRefcount ≠ 1 then
      throw (.stop (.kassert "vn->vn_refcount == 1"))

def sfsReclaim (ino : UInt32) : SfsM Unit := do
  let sv ← vnode ino
  if sv.vnRefcount ≠ 1 then
    if ¬ 1 < sv.vnRefcount then
      throw (.stop (.kassert "v->vn_refcount>1"))
    else
      changeRefcount ino (· - 1)
      throw (.errno EBUSY)
  else
    eraseFile w ino
    sfsSyncInode w ino
    discardInode ino
    removeVnode ino

def vnodeDecref (ino : UInt32) : SfsM Unit := do
  let sv ← vnode ino
  if sv.vnRefcount = 0 then
    throw (.stop (.kassert "vn->vn_refcount > 0"))
  else if 1 < sv.vnRefcount then
    changeRefcount ino (· - 1)
  else
    tryCatch (sfsReclaim w ino) fun
      | .errno _ => pure ()
      | stop => throw stop

/-- The search of `sfs_loadvnode` through the table. -/
def loadSearch (ino : UInt32) (forcetype : UInt16) : List SfsVnode → SfsM Bool
  | [] => return false
  | sv :: svs => do
    let used ← sfsBused sv.svIno
    if used = false then
      throw (.stop (.panic "sfs: Found inode in unallocated block\n"))
    else if sv.svIno = ino then
      if forcetype ≠ sfsTypeInval then
        throw (.stop (.kassert "forcetype==SFS_TYPE_INVAL"))
      else
        vnodeIncref ino
        return true
    else
      loadSearch ino forcetype svs

/-- The inode that was read, with the type it is to have, and whether it is dirty. -/
def forceType (d : SfsDinode) (forcetype : UInt16) : SfsM (SfsDinode × Bool) :=
  if forcetype = sfsTypeInval then
    return (d, false)
  else if d.sfiType ≠ sfsTypeInval then
    throw (.stop (.kassert "sv->sv_i.sfi_type == SFS_TYPE_INVAL"))
  else
    return ({ d with sfiType := forcetype }, true)

/-- `sfs_loadvnode` of what is not loaded. -/
def loadFresh (ino : UInt32) (forcetype : UInt16) : SfsM Unit := do
  if ← ask w.kmallocFails then
    throw (.errno ENOMEM)
  else
    let used ← sfsBused ino
    if used = false then
      throw (.stop (.panic "sfs: Tried to load inode from unallocated block\n"))
    else
      let data ← sfsReadblock w ino
      let (d, dirty) ← forceType (.decode data) forcetype
      if d.sfiType ≠ sfsTypeFile ∧ d.sfiType ≠ sfsTypeDir then
        throw (.stop (.panic "sfs: loadvnode: Invalid inode type\n"))
      else if ← ask w.kmallocFails then
        throw (.errno ENOMEM)
      else
        modify fun s => { s with vnodes := s.vnodes ++ [⟨ino, d, dirty, 1⟩] }

def sfsLoadvnode (ino : UInt32) (forcetype : UInt16) : SfsM Unit := do
  let found ← loadSearch ino forcetype (← get).vnodes
  if found = true then
    return ()
  else
    loadFresh w ino forcetype

def sfsMakeobj (type : UInt16) : SfsM UInt32 := do
  let ino ← sfsBalloc w
  tryCatch (sfsLoadvnode w ino type) fun
    | .errno result => do
      sfsBfree ino
      throw (.errno result)
    | stop => throw stop
  return ino

def sfsGetroot : SfsM UInt32 := do
  sfsLoadvnode w sfsRootdirIno sfsTypeInval
  let sv ← vnode sfsRootdirIno
  if sv.svI.sfiType ≠ sfsTypeDir then
    throw (.errno EINVAL)
  else
    return sfsRootdirIno

end

end UnionCollegeCode.OS161.Sfs
