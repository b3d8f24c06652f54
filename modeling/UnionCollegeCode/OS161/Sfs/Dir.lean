import UnionCollegeCode.OS161.Sfs.Inode
import UnionCollegeCode.OS161.Sfs.Io

/-!
# `sfs_dir.c`, `sfs_vnops.c`: the directory

There is one directory, and a slot of it is 64 bytes. A search goes through all the slots, so it sees
a name that is there twice.
-/

set_option autoImplicit false

namespace UnionCollegeCode.OS161.Sfs

open Lib.EState

def ENOENT : ℕ := 19
def ENAMETOOLONG : ℕ := 7
def ENOTDIR : ℕ := 17
def EEXIST : ℕ := 22

/-- `sizeof(struct sfs_direntry)`. -/
def sfsDirentrySize : ℕ := 64

def SfsDirentry.toList (d : SfsDirentry) : List UInt8 := List.ofFn d.encode

def SfsDirentry.ofList (l : List UInt8) : SfsDirentry := .decode fun i => l.getD i.1 0

section

variable (w : World)

/-! ## `sfs_dir.c` -/

def sfsReaddir (dir : UInt32) (slot : ℕ) : SfsM SfsDirentry := do
  let data ← sfsMetaio w dir (slot * sfsDirentrySize) (List.replicate sfsDirentrySize 0) .read
  return .ofList data

def sfsWritedir (dir : UInt32) (slot : ℕ) (sd : SfsDirentry) : SfsM Unit := do
  let _ ← sfsMetaio w dir (slot * sfsDirentrySize) sd.toList .write

def sfsDirNentries (dir : UInt32) : SfsM ℕ := do
  let sv ← vnode dir
  if sv.svI.sfiType ≠ sfsTypeDir then
    throw (.stop (.kassert "sv->sv_i.sfi_type == SFS_TYPE_DIR"))
  else
    let size := sv.svI.sfiSize.toNat
    if size % sfsDirentrySize ≠ 0 then
      throw (.stop (.panic "sfs: directory: Invalid size\n"))
    else
      return size / sfsDirentrySize

/-- What a search of the directory has found so far. -/
structure Search where
  /-- The inode and the slot. -/
  found : Option (UInt32 × ℕ)
  emptyslot : Option ℕ
  deriving DecidableEq

def findLoop (dir : UInt32) (name : CString) : List ℕ → Search → SfsM Search
  | [], r => return r
  | i :: is, r => do
    let tsd ← sfsReaddir w dir i
    if tsd.sfdIno = sfsNoino then
      findLoop dir name is { r with emptyslot := some i }
    else if tsd.name = name.1 then
      if r.found.isSome = true then
        throw (.stop (.kassert "found==0"))
      else
        findLoop dir name is { r with found := some (tsd.sfdIno, i) }
    else
      findLoop dir name is r

/-- The result is `ENOENT` when nothing was found. -/
def sfsDirFindname (dir : UInt32) (name : CString) : SfsM Search := do
  let nentries ← sfsDirNentries dir
  findLoop w dir name (List.range nentries) ⟨none, none⟩

def sfsDirLink (dir : UInt32) (name : CString) (ino : UInt32) : SfsM ℕ := do
  let r ← sfsDirFindname w dir name
  if r.found.isSome = true then
    throw (.errno EEXIST)
  else if sfsNamelen < name.1.length + 1 then
    throw (.errno ENAMETOOLONG)
  else
    let emptyslot ← match r.emptyslot with
      | some i => pure i
      | none => sfsDirNentries dir
    sfsWritedir w dir emptyslot (.ofName ino name.1)
    return emptyslot

def sfsDirUnlink (dir : UInt32) (slot : ℕ) : SfsM Unit := sfsWritedir w dir slot (.ofName sfsNoino [])

def sfsLookonce (dir : UInt32) (name : CString) : SfsM (UInt32 × ℕ) := do
  let r ← sfsDirFindname w dir name
  match r.found with
  | none => throw (.errno ENOENT)
  | some (ino, slot) =>
    sfsLoadvnode w ino sfsTypeInval
    let sv ← vnode ino
    if sv.svI.sfiLinkcount = 0 then
      throw (.stop (.panic "sfs: name has linkcount 0\n"))
    else
      return (ino, slot)

/-! ## `sfs_vnops.c` -/

def sfsCreat (dir : UInt32) (name : CString) (excl : Bool) : SfsM UInt32 := do
  let r ← sfsDirFindname w dir name
  match r.found with
  | some (ino, _) =>
    if excl = true then
      throw (.errno EEXIST)
    else
      sfsLoadvnode w ino sfsTypeInval
      return ino
  | none =>
    let newguy ← sfsMakeobj w sfsTypeFile
    let _ ← tryCatch (sfsDirLink w dir name newguy) fun
      | .errno result => do
        vnodeDecref w newguy
        throw (.errno result)
      | stop => throw stop
    changeInode newguy fun d => { d with sfiLinkcount := d.sfiLinkcount + 1 }
    return newguy

def sfsLink (dir : UInt32) (name : CString) (file : UInt32) : SfsM Unit := do
  let f ← vnode file
  if f.svI.sfiType = sfsTypeDir then
    throw (.errno EINVAL)
  else
    let _ ← sfsDirLink w dir name file
    changeInode file fun d => { d with sfiLinkcount := d.sfiLinkcount + 1 }

/-- Take off a link that is there. -/
def dropLink (ino : UInt32) : SfsM Unit := do
  let sv ← vnode ino
  if sv.svI.sfiLinkcount = 0 then
    throw (.stop (.kassert "sfi_linkcount > 0"))
  else
    changeInode ino fun d => { d with sfiLinkcount := d.sfiLinkcount - 1 }

def sfsRemove (dir : UInt32) (name : CString) : SfsM Unit := do
  let (victim, slot) ← sfsLookonce w dir name
  tryCatch (sfsDirUnlink w dir slot) fun
    | .errno result => do
      vnodeDecref w victim
      throw (.errno result)
    | stop => throw stop
  dropLink victim
  vnodeDecref w victim

/-- `puke_harder:` and then `puke:`. The inode is dirty already. -/
def renameRecover (dir g1 : UInt32) (slot2 result : ℕ) : SfsM Unit := do
  tryCatch (sfsDirUnlink w dir slot2) fun
    | .errno _ => throw (.stop (.panic "sfs: rename: Cannot recover\n"))
    | stop => throw stop
  modify fun s => s.modifyVnode g1 fun sv =>
    { sv with svI := { sv.svI with sfiLinkcount := sv.svI.sfiLinkcount - 1 } }
  vnodeDecref w g1
  throw (.errno result)

def sfsRename (d1 : UInt32) (n1 : CString) (d2 : UInt32) (n2 : CString) : SfsM Unit := do
  if d1 ≠ d2 then
    throw (.stop (.kassert "d1==d2"))
  else if d1 ≠ sfsRootdirIno then
    throw (.stop (.kassert "sv->sv_ino == SFS_ROOTDIR_INO"))
  else
    let (g1, slot1) ← sfsLookonce w d1 n1
    let sv ← vnode g1
    if sv.svI.sfiType ≠ sfsTypeFile then
      throw (.stop (.kassert "g1->sv_i.sfi_type == SFS_TYPE_FILE"))
    else
      let slot2 ← tryCatch (sfsDirLink w d1 n2 g1) fun
        | .errno result => do
          vnodeDecref w g1
          throw (.errno result)
        | stop => throw stop
      changeInode g1 fun d => { d with sfiLinkcount := d.sfiLinkcount + 1 }
      tryCatch (sfsDirUnlink w d1 slot1) fun
        | .errno result => renameRecover w d1 g1 slot2 result
        | stop => throw stop
      dropLink g1
      vnodeDecref w g1

/-- The name is handed back in a buffer of `buflen` bytes. -/
def sfsLookparent (v : UInt32) (path : CString) (buflen : ℕ) : SfsM (UInt32 × CString) := do
  let sv ← vnode v
  if sv.svI.sfiType ≠ sfsTypeDir then
    throw (.errno ENOTDIR)
  else if buflen < path.1.length + 1 then
    throw (.errno ENAMETOOLONG)
  else
    vnodeIncref v
    return (v, path)

def sfsLookup (v : UInt32) (path : CString) : SfsM UInt32 := do
  let sv ← vnode v
  if sv.svI.sfiType ≠ sfsTypeDir then
    throw (.errno ENOTDIR)
  else
    let (final, _) ← sfsLookonce w v path
    return final

def sfsTruncate (v : UInt32) (len : ℤ) : SfsM Unit := sfsItrunc w v len

def sfsFsync (v : UInt32) : SfsM Unit := sfsSyncInode w v

end

end UnionCollegeCode.OS161.Sfs
