import UnionCollegeCode.Lib.EState
import UnionCollegeCode.OS161.Emufs.Tree
import UnionCollegeCode.OS161.Kernel

/-!
# `emu.c`: the path of a directory

`emufs_namefile` climbs to the root and looks in each parent for the directory it comes from. Every
step of the device may fail, with an error of its own. The three buffers are not part of the state;
the one for a name is as long as its block on the heap, one byte more than was asked for.
-/

set_option autoImplicit false

namespace UnionCollegeCode.OS161.Emufs

open Function (update)
open Lib.EState

def ENOENT : ℕ := 19
def ENAMETOOLONG : ℕ := 7

variable {V : Type}

@[ext] structure EmuState (V : Type) where
  /-- `vn_refcount`. -/
  refs : V → ℕ
  /-- How many steps of the device have been taken. -/
  tick : ℕ
  /-- The room that the caller's `uio` has left, and what was moved to it. -/
  uioResid : ℕ
  moved : List UInt8

abbrev EmuM (V α : Type) := EStateM Stop (EmuState V) α

/-- A device, with the error in which each step ends; `0` is none. -/
structure Emu (V : Type) where
  tree : EmuTree V
  errno : ℕ → ℕ

section

variable [DecidableEq V] (e : Emu V)

/-! ## Vnodes -/

def vopIncref (v : V) : EmuM V Unit :=
  modify fun s => { s with refs := update s.refs v (s.refs v + 1) }

/-- A vnode that is reclaimed has no reference left. -/
def vopDecref (v : V) : EmuM V Unit := do
  let s ← get
  if s.refs v = 0 then
    throw (.kassert "vn->vn_refcount > 0")
  else
    set { s with refs := update s.refs v (s.refs v - 1) }

/-- The device, `kmalloc` or the user's memory answers. -/
def takeStep : EmuM V ℕ := do
  let s ← get
  set { s with tick := s.tick + 1 }
  return e.errno s.tick

def emufsLookup (dir : V) (pathname : List UInt8) : EmuM V (Except ℕ V) := do
  let result ← takeStep e
  if result ≠ 0 then
    return .error result
  else
    match e.tree.lookup dir pathname with
    | none => return .error ENOENT
    | some v =>
      vopIncref v
      return .ok v

/-- What stands before and behind the last `c`. -/
def strrchr (c : UInt8) : List UInt8 → Option (List UInt8 × List UInt8)
  | [] => none
  | x :: xs =>
    match strrchr c xs with
    | some (front, rest) => some (x :: front, rest)
    | none => if x = c then some ([], xs) else none

/-- The last component is returned as well. -/
def emufsLookparent (dir : V) (pathname : List UInt8) (len : ℕ) :
    EmuM V (Except ℕ V × List UInt8) := do
  match strrchr slash pathname with
  | none =>
    if pathname.length + 1 > len then
      return (.error ENAMETOOLONG, [])
    else
      vopIncref dir
      return (.ok dir, pathname)
  | some (front, s) =>
    if s.length + 1 > len then
      return (.error ENAMETOOLONG, [])
    else
      return (← emufsLookup e dir front, s)

/-- The entry at an offset, and the offset behind it. -/
def emufsGetdirentry (dir : V) (offset : ℕ) : EmuM V (ℕ × List UInt8 × ℕ) := do
  let result ← takeStep e
  if result ≠ 0 then
    return (result, [], offset)
  else
    match (e.tree.listing dir)[offset]? with
    | none => return (0, [], offset)
    | some name => return (0, name, offset + 1)

/-- `emufs_dir_gettype`, `emufs_file_gettype`: an error, and whether the mode is `S_IFDIR`. -/
def vopGettype (v : V) : ℕ × Bool := (0, e.tree.isDir v)

/-- What does not fit is dropped. -/
def uiomove (bytes : List UInt8) : EmuM V ℕ := do
  if (← get).uioResid = 0 then
    return 0
  else
    let result ← takeStep e
    if result ≠ 0 then
      return result
    else
      modify fun s => { s with
        uioResid := s.uioResid - bytes.length
        moved := s.moved ++ bytes.take s.uioResid }
      return 0

/-! ## `emufs_namefile` -/

/-- How the search in one directory ends. -/
inductive Scan (V : Type)
  | out (result : ℕ) (entryVn : Option V)
  /-- `return ENAMETOOLONG`. -/
  | tooLong
  | done (fullPath : List UInt8)

/-- The inner loop; `next = offset` is what ends it. -/
def scan (parentVn curVn : V) (fullPath : List UInt8) : ℕ → ℕ → EmuM V (Scan V)
  | 0, _ => throw .asleep
  | rounds + 1, offset => do
    let (result, entryName, next) ← emufsGetdirentry e parentVn offset
    if result ≠ 0 then
      return .out result none
    else if next = offset then
      return .done fullPath
    else
      match ← emufsLookup e parentVn entryName with
      | .error result => return .out result none
      | .ok entryVn =>
        let (result, isDir) := vopGettype e entryVn
        if result ≠ 0 then
          return .out result (some entryVn)
        else
          vopDecref entryVn
          if isDir = true ∧ entryVn = curVn then
            if fullPath.length + entryName.length + 1 + 1 > pathMax then
              return .tooLong
            else
              return .done (entryName ++ slash :: fullPath)
          else
            scan parentVn curVn fullPath rounds next

/-- `if (vn != NULL && vn != v) VOP_DECREF(vn);` -/
def decrefUnless (v : V) (vn : Option V) : EmuM V Unit := do
  match vn with
  | none => return ()
  | some u => if u ≠ v then vopDecref u else return ()

/-- The vnodes at `out`. -/
def namefileOut (v : V) (curVn parentVn entryVn : Option V) : EmuM V Unit := do
  decrefUnless v curVn
  decrefUnless v parentVn
  match entryVn with
  | none => return ()
  | some u => vopDecref u

/-- The outer loop. -/
def climbLoop (v : V) : ℕ → V → List UInt8 → EmuM V ℕ
  | 0, _, _ => throw .asleep
  | rounds + 1, curVn, fullPath => do
    match (← emufsLookparent e curVn (dotdot ++ [slash]) 4).1 with
    | .error result =>
      namefileOut v (some curVn) none none
      return result
    | .ok parentVn =>
      match ← scan e parentVn curVn fullPath ((e.tree.listing parentVn).length + 1) 0 with
      | .out result entryVn =>
        namefileOut v (some curVn) (some parentVn) entryVn
        return result
      | .tooLong => return ENAMETOOLONG
      | .done fullPath =>
        decrefUnless v (some curVn)
        if parentVn ≠ e.tree.efRoot then
          climbLoop v rounds parentVn fullPath
        else
          let result ← uiomove e (fullPath ++ [0])
          namefileOut v (some parentVn) none none
          return result

/-- `kmalloc` of each buffer. -/
structure Kmallocs where
  fullPath : Bool
  tmpBuf : Bool
  entryName : Bool

def emufsNamefile (k : Kmallocs) (v : V) : EmuM V ℕ := do
  if v = e.tree.efRoot then
    return 0
  else if k.fullPath = false ∨ k.tmpBuf = false ∨ k.entryName = false then
    namefileOut v (some v) none none
    return 0
  else
    climbLoop e v (e.tree.depth v) v []

end

end UnionCollegeCode.OS161.Emufs
