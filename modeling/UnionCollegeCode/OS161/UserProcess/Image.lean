import UnionCollegeCode.Lib.ByteFile
import UnionCollegeCode.OS161.Files.Syscalls
import UnionCollegeCode.OS161.Sections
import UnionCollegeCode.OS161.Syscall.Dispatch

/-!
# A user process as a whole: `proc.c`, `dumbvm.c`

The process structures and their table (`Kernel`), the file tables (`FileKernel`), and what a process
has besides: its name, its address space, trapframes on the kernel heap, and what its first thread is
started with. A function on one of the parts is a function on the whole.

A block that is freed twice stops the kernel in `kfree`.
-/

set_option autoImplicit false

namespace UnionCollegeCode.OS161.UserProcess

open Function (update)
open Lib.EState
open Files (FileKernel FileM TableAlloc)
open Syscall (Trapframe)

def ENOMEM : ℤ := 3

/-- The three regions of `dumbvm`, each with the bytes of its pages. -/
structure Addrspace where
  asVbase1 : ℕ
  asNpages1 : ℕ
  asVbase2 : ℕ
  asNpages2 : ℕ
  region1 : List UInt8
  region2 : List UInt8
  stack : List UInt8
  deriving DecidableEq, Repr

structure Image where
  kernel : Kernel
  files : FileKernel
  /-- `p_name`. -/
  pName : Ptr → List UInt8
  /-- `proc_ft`. -/
  procFt : Ptr → Option Ptr
  addrspaces : Ptr → Option Addrspace
  trapframes : Ptr → Option Trapframe
  /-- The arguments with which `entrypoint` starts on a new thread. -/
  starts : Tid → Option (Ptr × Option Ptr)
  next : Ptr

abbrev ImageM (α : Type) := EStateM Stop Image α

namespace Image

def setKernel (s : Image) (k : Kernel) : Image := { s with kernel := k }

def setFiles (s : Image) (f : FileKernel) : Image := { s with files := f }

def setFt (s : Image) (proc : Ptr) (ft : Option Ptr) : Image :=
  { s with procFt := update s.procFt proc ft }

def setAs (s : Image) (p : Ptr) (as : Option Addrspace) : Image :=
  { s with addrspaces := update s.addrspaces p as }

def setTf (s : Image) (p : Ptr) (tf : Option Trapframe) : Image :=
  { s with trapframes := update s.trapframes p tf }

/-- The next address is taken. -/
def advance (s : Image) : Image := { s with next := s.next + 1 }

@[simp] theorem setKernel_self (s : Image) : s.setKernel s.kernel = s := rfl

@[simp] theorem kernel_setKernel (s : Image) (k : Kernel) : (s.setKernel k).kernel = k := rfl

@[simp] theorem addrspaces_setAs (s : Image) (p : Ptr) (as : Option Addrspace) :
    (s.setAs p as).addrspaces p = as := by
  simp [setAs]

end Image

def onKernel {α : Type} (m : KernelM α) : ImageM α := zoom Image.kernel Image.setKernel m

def onFiles {α : Type} (m : FileM α) : ImageM α := zoom Image.files Image.setFiles m

section

variable {α : Type} {s s' : Image} {a : α}

@[simp] theorem onKernel_eq_ok {m : KernelM α} :
    onKernel m s = .ok a s' ↔ ∃ k, m s.kernel = .ok a k ∧ s.setKernel k = s' :=
  zoom_eq_ok

@[simp] theorem onFiles_eq_ok {m : FileM α} :
    onFiles m s = .ok a s' ↔ ∃ f, m s.files = .ok a f ∧ s.setFiles f = s' :=
  zoom_eq_ok

end

/-! ## Address spaces -/

/-- The address space, its pages not yet allocated. -/
def asCreate (ok : Bool) : ImageM (Option Ptr) := do
  if ok then
    let s ← get
    set (s.setAs s.next (some ⟨0, 0, 0, 0, [], [], []⟩)).advance
    return some s.next
  else
    return none

def derefAs (as : Option Ptr) : ImageM (Ptr × Addrspace) := do
  match as with
  | none => throw .fault
  | some p =>
    match (← get).addrspaces p with
    | none => throw .fault
    | some a => return (p, a)

/-- `kfree` of an address space. -/
def asDestroy (as : Option Ptr) : ImageM Unit := do
  match as with
  | none => return ()
  | some p =>
    if (← get).addrspaces p = none then
      throw (.kassert "fl != fl->next")
    else
      modify fun s => s.setAs p none

section

variable {s s' : Image}

@[simp] theorem derefAs_eq_ok {as : Option Ptr} {r : Ptr × Addrspace} :
    derefAs as s = .ok r s' ↔ (as = some r.1 ∧ s.addrspaces r.1 = some r.2) ∧ s = s' := by
  obtain ⟨p', a'⟩ := r
  cases as with
  | none => simp [derefAs]
  | some p =>
    simp only [derefAs, bind_eq_ok, get_eq_ok, Option.some.injEq]
    constructor
    · rintro ⟨_, _, ⟨rfl, rfl⟩, h⟩
      cases hp : s.addrspaces p with
      | none => simp [hp] at h
      | some a =>
        simp only [hp, pure_eq_ok, Prod.mk.injEq] at h
        obtain ⟨⟨rfl, rfl⟩, rfl⟩ := h
        exact ⟨⟨rfl, hp⟩, rfl⟩
    · rintro ⟨⟨rfl, hp⟩, rfl⟩
      exact ⟨s, s, ⟨rfl, rfl⟩, by simp [hp]⟩

/-- An address space that is destroyed was there. -/
theorem asDestroy_some {p : Ptr} {u : Unit} :
    asDestroy (some p) s = .ok u s' ↔ s.addrspaces p ≠ none ∧
      s.setAs p none = s' := by
  simp only [asDestroy, bind_eq_ok, get_eq_ok]
  constructor
  · rintro ⟨_, _, ⟨rfl, rfl⟩, h⟩
    split at h
    · exact absurd h throw_eq_ok
    · rename_i hp
      exact ⟨hp, modify_eq_ok.mp h⟩
  · rintro ⟨hp, h⟩
    exact ⟨s, s, ⟨rfl, rfl⟩, by rw [if_neg hp]; exact modify_eq_ok.mpr h⟩

end

/-- How the calls that `as_copy` makes end. -/
structure AsCopyAnswers where
  asCreate : Bool
  asPrepareLoad : ℕ
  deriving DecidableEq, Repr

/-- The bases, the page counts and the bytes of `old` in pages of their own. -/
def asCopy (old : Option Ptr) (a : AsCopyAnswers) : ImageM (ℤ × Option Ptr) := do
  match ← asCreate a.asCreate with
  | none => return (ENOMEM, none)
  | some new =>
    let (_, o) ← derefAs old
    if a.asPrepareLoad ≠ 0 then
      asDestroy (some new)
      return (ENOMEM, none)
    else
      modify fun s => s.setAs new (some o)
      return (0, some new)

/-- A copy that succeeds is at a new address; nothing but the address spaces is changed in any case. -/
theorem asCopy_spec {s s' : Image} {old : Option Ptr} {a : AsCopyAnswers} {r : ℤ × Option Ptr}
    (h : asCopy old a s = .ok r s') :
    s'.kernel = s.kernel ∧ s'.files = s.files ∧ s'.procFt = s.procFt ∧
      (r.1 = 0 → a.asCreate = true ∧ a.asPrepareLoad = 0 ∧ r.2 ≠ none) := by
  cases hcreate : a.asCreate with
  | false =>
    simp only [asCopy, asCreate, hcreate, Bool.false_eq_true, if_false, bind_eq_ok, pure_eq_ok] at h
    obtain ⟨_, _, ⟨rfl, rfl⟩, rfl, rfl⟩ := h
    exact ⟨rfl, rfl, rfl, fun habs => absurd habs (by decide)⟩
  | true =>
    simp only [asCopy, asCreate, hcreate, if_true, bind_eq_ok, get_eq_ok, set_eq_ok, pure_eq_ok] at h
    obtain ⟨_, _, ⟨_, _, ⟨rfl, rfl⟩, _, _, rfl, rfl, rfl⟩, h⟩ := h
    simp only [bind_eq_ok, derefAs_eq_ok] at h
    obtain ⟨⟨p, o⟩, _, ⟨-, rfl⟩, h⟩ := h
    split at h
    case isTrue hprepare =>
      simp only [bind_eq_ok, asDestroy_some, pure_eq_ok] at h
      obtain ⟨_, _, ⟨-, rfl⟩, rfl, rfl⟩ := h
      exact ⟨rfl, rfl, rfl, fun habs => absurd habs (by decide)⟩
    case isFalse hprepare =>
      simp only [bind_eq_ok, modify_eq_ok, pure_eq_ok] at h
      obtain ⟨_, _, rfl, rfl, rfl⟩ := h
      exact ⟨rfl, rfl, rfl, fun _ => ⟨rfl, Classical.not_not.mp hprepare, by simp⟩⟩

def pageSize : ℕ := 4096
def userstack : ℕ := 0x80000000
def dumbvmStackpages : ℕ := 18

/-- Bytes put where `vm_fault` finds a virtual address. -/
def Addrspace.store (as : Addrspace) (addr : ℕ) (bytes : List UInt8) : Option Addrspace :=
  let stackbase := userstack - dumbvmStackpages * pageSize
  if as.asVbase1 ≤ addr ∧ addr < as.asVbase1 + as.asNpages1 * pageSize then
    some { as with region1 := Lib.splice 0 as.region1 (addr - as.asVbase1) bytes }
  else if as.asVbase2 ≤ addr ∧ addr < as.asVbase2 + as.asNpages2 * pageSize then
    some { as with region2 := Lib.splice 0 as.region2 (addr - as.asVbase2) bytes }
  else if stackbase ≤ addr ∧ addr < userstack then
    some { as with stack := Lib.splice 0 as.stack (addr - stackbase) bytes }
  else
    none

/-- An `int` in memory, most significant byte first. -/
def intBytes (x : ℤ) : List UInt8 :=
  let w := Syscall.word x
  [(w >>> 24).toUInt8, (w >>> 16).toUInt8, (w >>> 8).toUInt8, w.toUInt8]

/-- Bytes put in the memory of the current process. -/
def storeUser (t : Tid) (addr : ℕ) (bytes : List UInt8) : ImageM Unit := do
  let s ← get
  let (_, p) ← onKernel (follow Kernel.procHeap (s.kernel.curproc t))
  let (as, a) ← derefAs p.pAddrspace
  match a.store addr bytes with
  | none => throw .fault
  | some a => modify fun s => s.setAs as (some a)

/-- The kernel stores an `int` through a pointer from user mode. Unmapped kernel memory and an odd
address are faults; what a word of mapped kernel memory holds is not part of the state. -/
def storeInt (t : Tid) (addr : UInt32) (x : ℤ) : ImageM Unit :=
  if addr.toNat % 4 ≠ 0 ∨ 0xC0000000 ≤ addr.toNat then throw .fault
  else if addr.toNat < userstack then storeUser t addr.toNat (intBytes x)
  else pure ()

/-! ## Trapframes -/

def tfCreate (ok : Bool) (tf : Trapframe) : ImageM (Option Ptr) := do
  if ok then
    let s ← get
    set (s.setTf s.next (some tf)).advance
    return some s.next
  else
    return none

/-- `kfree` of a trapframe. -/
def tfDestroy (tf : Option Ptr) : ImageM Unit := do
  match tf with
  | none => return ()
  | some p =>
    if (← get).trapframes p = none then
      throw (.kassert "fl != fl->next")
    else
      modify fun s => s.setTf p none

/-! ## Processes -/

def setAddrspace (proc : Ptr) (as : Option Ptr) : ImageM Unit := do
  let (_, p) ← onKernel (follow Kernel.procHeap (some proc))
  modify fun s => s.setKernel (s.kernel.setProc proc (some { p with pAddrspace := as }))

def setProcFt (proc : Ptr) (ft : Option Ptr) : ImageM Unit :=
  modify fun s => s.setFt proc ft

/-- The address space of a process to be destroyed is taken from it. -/
def clearAddrspace (t : Tid) (proc : Ptr) : ImageM Unit := do
  if (← get).kernel.curproc t = some proc then
    onKernel (procClearas t)
  else
    setAddrspace proc none

/-- `proc_destroy` up to and with its `as_destroy`: the pid of the process. -/
def procDestroyAs (t : Tid) (proc : Ptr) : ImageM ℤ := do
  let s ← get
  onKernel (kassert (proc ≠ s.kernel.kproc) "proc != kproc")
  let (_, p) ← onKernel (follow Kernel.procHeap (some proc))
  if p.pAddrspace.isSome then
    clearAddrspace t proc
    asDestroy p.pAddrspace
    return p.pPid
  else
    return p.pPid

/-- Name and list go with the structure; the file table stays behind. -/
def procDestroy (t : Tid) (proc : Ptr) : ImageM Unit := do
  let pid ← procDestroyAs t proc
  onKernel (removeProc t pid)
  onKernel (procDestroyEnd t proc)

section

variable {t : Tid} {s s' : Image} {proc : Ptr}

/-- The process without its address space, if it has one; nothing else is changed. -/
theorem clearAddrspace_spec {u : Unit} (h : clearAddrspace t proc s = .ok u s') :
    ∃ P, s.kernel.procHeap proc = some P ∧
      s' = s.setKernel (s.kernel.setProc proc (some { P with pAddrspace := none })) := by
  simp only [clearAddrspace, bind_eq_ok, get_eq_ok] at h
  obtain ⟨_, _, ⟨rfl, rfl⟩, h⟩ := h
  split at h
  case isTrue hcur =>
    simp only [onKernel_eq_ok, procClearas, bind_eq_ok, get_eq_ok, kassert_eq_ok, follow_eq_ok,
      modify_eq_ok] at h
    obtain ⟨_, ⟨_, _, ⟨rfl, rfl⟩, -, _, ⟨-, rfl⟩, ⟨q, Q⟩, _, ⟨⟨hq, hQ⟩, rfl⟩, rfl⟩, rfl⟩ := h
    obtain rfl : proc = q := Option.some.inj (hcur.symm.trans hq)
    exact ⟨Q, hQ, rfl⟩
  case isFalse =>
    simp only [setAddrspace, bind_eq_ok, onKernel_eq_ok, follow_eq_ok, modify_eq_ok] at h
    obtain ⟨⟨q, Q⟩, _, ⟨_, ⟨⟨hq, hQ⟩, rfl⟩, rfl⟩, rfl⟩ := h
    obtain rfl : proc = q := Option.some.inj hq
    exact ⟨Q, hQ, rfl⟩

/-- `proc_destroy` of a process with an address space needs one that is not freed. -/
theorem procDestroyAs_spec {P : Proc} {pid : ℤ} (hP : s.kernel.procHeap proc = some P)
    (h : procDestroyAs t proc s = .ok pid s') :
    pid = P.pPid ∧ (∀ as, P.pAddrspace = some as → s.addrspaces as ≠ none) ∧
      s'.kernel.procTable = s.kernel.procTable ∧
      ∃ Q, s'.kernel.procHeap proc = some Q ∧ Q.kin = P.kin := by
  simp only [procDestroyAs, bind_eq_ok, get_eq_ok, onKernel_eq_ok, follow_eq_ok, kassert_eq_ok] at h
  obtain ⟨_, _, ⟨rfl, rfl⟩, -, _, ⟨_, ⟨-, rfl⟩, rfl⟩, ⟨q, Q⟩, _, ⟨_, ⟨⟨hq, hQ⟩, rfl⟩, rfl⟩, h⟩ := h
  obtain rfl : proc = q := Option.some.inj hq
  obtain rfl : P = Q := Option.some.inj (hP.symm.trans hQ)
  split at h
  case isFalse hnone =>
    obtain ⟨rfl, rfl⟩ := pure_eq_ok.mp h
    refine ⟨rfl, fun as has => ?_, rfl, P, hP, rfl⟩
    exact absurd (by rw [has]; rfl) hnone
  case isTrue hsome =>
    obtain ⟨as, has⟩ := Option.isSome_iff_exists.mp hsome
    have has : P.pAddrspace = some as := has
    simp only [has, bind_eq_ok, pure_eq_ok] at h
    obtain ⟨_, s₁, hclear, _, s₂, hdestroy, rfl, rfl⟩ := h
    obtain ⟨Q, hQ', rfl⟩ := clearAddrspace_spec hclear
    obtain rfl : P = Q := Option.some.inj (hP.symm.trans hQ')
    obtain ⟨hlive, rfl⟩ := asDestroy_some.mp hdestroy
    refine ⟨rfl, fun as' has' => ?_, rfl, _, Function.update_self proc _ _, rfl⟩
    obtain rfl : as = as' := Option.some.inj (has.symm.trans has')
    exact hlive

end

end UnionCollegeCode.OS161.UserProcess
