import UnionCollegeCode.Lib.RefLedger
import UnionCollegeCode.OS161.Files.Outcomes

/-!
# The descriptors of all processes

All processes together, call by call: what their tables hold of files, and what the files hold of
vnodes. A file's first reference is the one that `vfs_open` hands over, and every descriptor adds one.
-/

set_option autoImplicit false

namespace UnionCollegeCode.OS161.Files

open Function (update)
open Lib (RefLedger)
open Lib.EState

structure Desk where
  code : FileKernel
  /-- The file tables of the processes there are. -/
  live : Finset Ptr
  /-- The references to a vnode that are not the descriptors' doing. -/
  outside : Ptr → ℕ

inductive RefCall
  | open (procFt : Option Ptr) (filename : Option Ptr) (flags : ℤ) (a : OpenAnswers)
  | close (procFt : Option Ptr) (fd : ℤ)
  | dup2 (procFt : Option Ptr) (oldfd newfd : ℤ)
  /-- A process made by `proc_create`. -/
  | create (a : TableAlloc)
  | fork (procFt : Option Ptr) (a : TableAlloc)
  /-- `sys_execv` changes its table for a new one. -/
  | exec (procFt : Ptr) (a : TableAlloc)
  /-- `proc_destroy` forgets the table. -/
  | exit (procFt : Ptr)
  /-- Somebody else takes a reference to a vnode, or gives it up. -/
  | take (v : Ptr)
  | give (v : Ptr)

namespace Desk

def setCode (w : Desk) (s : FileKernel) : Desk := { w with code := s }

/-- The table is that of some process. -/
def Owns (w : Desk) (procFt : Option Ptr) : Prop := ∀ q ∈ procFt, q ∈ w.live

instance (w : Desk) (procFt : Option Ptr) : Decidable (w.Owns procFt) :=
  inferInstanceAs (Decidable (∀ q ∈ procFt, q ∈ w.live))

/-- A call by a process, which enters the kernel without a lock. -/
def call {α : Type} (w : Desk) (procFt : Option Ptr) (m : FileM α) : Option Desk :=
  if w.Owns procFt then
    match m (w.code.setHeld []) with
    | .ok _ s => some (w.setCode s)
    | .error _ _ => none
  else
    none

/-- A call that hands a table to a process, with the tables `live` besides. -/
def equip (w : Desk) (procFt : Option Ptr) (live : Finset Ptr) (m : FileM (Option Ptr)) :
    Option Desk :=
  if w.Owns procFt then
    match m (w.code.setHeld []) with
    | .ok (some q) s => some { w with code := s, live := insert q live }
    | .ok none s => some { w with code := s, live := live }
    | .error _ _ => none
  else
    none

/-- One call that comes to its end. -/
def step (w : Desk) : RefCall → Option Desk
  | .open procFt filename flags a => w.call procFt (sysOpen procFt filename flags a)
  | .close procFt fd => w.call procFt (sysClose procFt fd)
  | .dup2 procFt oldfd newfd => w.call procFt (sysDup2 procFt oldfd newfd)
  | .create a => w.equip none w.live (fileTableCreate a)
  | .fork procFt a => w.equip procFt w.live (fileTableCopy procFt a)
  | .exec procFt a => w.equip (some procFt) (w.live.erase procFt) do
      let _ ← fileTableDestroy procFt
      fileTableCreate a
  | .exit procFt => if procFt ∈ w.live then some { w with live := w.live.erase procFt } else none
  | .take v => some { w with
      code := w.code.setCount v (w.code.vnRefcount v + 1)
      outside := update w.outside v (w.outside v + 1) }
  | .give v =>
    if w.outside v = 0 then none
    else some { w with
      code := w.code.setCount v (w.code.vnRefcount v - 1)
      outside := update w.outside v (w.outside v - 1) }

/-- The descriptors `file_table_add` gives out. -/
def descriptors : Finset ℤ := (Finset.range (openMax - minFd).toNat).image fun i : ℕ => minFd + i

/-- The local descriptors, the files they refer to, and the vnodes these are on. -/
def ledger (w : Desk) : RefLedger (Ptr × ℤ) Ptr Ptr where
  slots := w.live ×ˢ descriptors
  held x := w.code.descriptor (some x.1) x.2
  objects := (Finset.range w.code.next).filter fun p => (w.code.files p).isSome
  home p := (w.code.files p).bind File.fileVnode

/-- All counts are right, no slot of a table refers to a destroyed file, and a file without a
descriptor is destroyed. -/
structure Intact (w : Desk) : Prop where
  balanced : w.ledger.Balanced w.code.vnRefcount w.outside
  slots : w.ledger.Sound
  master : ∀ fd p, w.code.master.fileArr fd = some p → w.code.files p ≠ none
  closed : w.ledger.Used

/-- The calls that keep the counts right. -/
def Keeps (w : Desk) : RefCall → Prop
  | .open procFt filename _ a =>
    ∀ v, a.Opens filename v → w.code.Full procFt → w.code.vnRefcount v = 1
  | .close procFt fd => ∀ p, minFd ≤ fd → fd < openMax → w.code.descriptor procFt fd = some p →
      2 ≤ w.ledger.refs p
  | .dup2 procFt oldfd newfd => ¬ w.code.Copies procFt oldfd newfd
  | .exit procFt => ∀ fd, minFd ≤ fd → fd < openMax → w.code.descriptor (some procFt) fd = none
  | _ => True

/-- Before any file is open. -/
structure Fresh (w : Desk) : Prop where
  files : ∀ p, w.code.files p = none
  master : ∀ fd, w.code.master.fileArr fd = none
  tables : ∀ q ∈ w.live, ∃ t, w.code.tables q = some t ∧ ∀ fd, t.fileArr fd = none
  allocated : ∀ q, w.code.next ≤ q → w.code.tables q = none
  counts : ∀ v, w.code.vnRefcount v = w.outside v

/-! ## What is kept -/

/-- `Intact` without its last clause, and that the pointers at hand are allocated. -/
structure Core (w : Desk) : Prop where
  balanced : w.ledger.Balanced w.code.vnRefcount w.outside
  slots : w.ledger.Sound
  master : ∀ fd p, w.code.master.fileArr fd = some p → w.code.files p ≠ none
  allocated : ∀ p, w.code.next ≤ p → w.code.files p = none ∧ w.code.tables p = none
  tables : ∀ q ∈ w.live, w.code.tables q ≠ none
  vnodes : ∀ p f, w.code.files p = some f → f.fileVnode ≠ none

structure Sane (w : Desk) : Prop where
  core : w.Core
  closed : w.ledger.Used

theorem Sane.intact {w : Desk} (h : w.Sane) : w.Intact :=
  ⟨h.core.balanced, h.core.slots, h.core.master, h.closed⟩

section Ledger

variable {w : Desk} {q p v : Ptr} {t : FileTable} {f : File} {fd : ℤ}

theorem mem_objects_iff :
    p ∈ w.ledger.objects ↔ p < w.code.next ∧ w.code.files p ≠ none := by
  simp only [ledger, Finset.mem_filter, Finset.mem_range, Option.isSome_iff_ne_none]

theorem mem_objects (h : w.Core) : p ∈ w.ledger.objects ↔ w.code.files p ≠ none := by
  rw [mem_objects_iff]
  constructor
  · exact fun hp => hp.2
  · intro hp
    refine ⟨Nat.not_le.mp fun hle => hp (h.allocated p hle).1, hp⟩

theorem mem_descriptors {fd : ℤ} : fd ∈ descriptors ↔ minFd ≤ fd ∧ fd < openMax := by
  simp only [descriptors, Finset.mem_image, Finset.mem_range]
  constructor
  · intro ⟨i, hi, heq⟩
    omega
  · intro ⟨hlow, hhigh⟩
    exact ⟨(fd - minFd).toNat, by omega, by omega⟩

theorem mem_slots : (q, fd) ∈ w.ledger.slots ↔ q ∈ w.live ∧ minFd ≤ fd ∧ fd < openMax := by
  simp [ledger, mem_descriptors]

theorem held_slot (ht : w.code.tables q = some t) : w.ledger.held (q, fd) = t.fileArr fd := by
  simp [ledger, FileKernel.descriptor, ht]

theorem home_file (hf : w.code.files p = some f) : w.ledger.home p = f.fileVnode := by
  simp [ledger, hf]

theorem exists_home (h : w.Core) (hp : w.code.files p ≠ none) : ∃ v, w.ledger.home p = some v := by
  obtain ⟨f, hf⟩ := Option.ne_none_iff_exists'.mp hp
  rw [home_file hf]
  exact Option.ne_none_iff_exists'.mp (h.vnodes p f hf)

/-- A slot of a table is a slot of the ledger. -/
theorem ledger_setTable {o : Option Ptr} {i : ℤ} (ht : w.code.tables q = some t) :
    (w.setCode (w.code.setTable q (some { t with fileArr := update t.fileArr i o }))).ledger =
      w.ledger.store (q, i) o := by
  refine RefLedger.ext rfl (funext fun ⟨q', fd'⟩ => ?_) rfl rfl
  by_cases hq : q' = q
  · subst hq
    by_cases hfd : fd' = i
    · subst hfd
      simp [ledger, RefLedger.store, setCode, FileKernel.setTable, FileKernel.descriptor]
    · simp [ledger, RefLedger.store, setCode, FileKernel.setTable, FileKernel.descriptor, ht, hfd]
  · simp [ledger, RefLedger.store, setCode, FileKernel.setTable, FileKernel.descriptor, hq]

theorem ledger_opened : (w.setCode (w.code.opened v)).ledger = w.ledger.enrol w.code.next v := by
  refine RefLedger.ext rfl rfl (Finset.ext fun p => ?_) (funext fun p => ?_)
  · rw [RefLedger.enrol, Finset.mem_insert, mem_objects_iff, mem_objects_iff]
    by_cases hp : p = w.code.next
    · simp [setCode, FileKernel.opened, FileKernel.setFile, hp]
    · have hlt : p < w.code.next + 1 ↔ p < w.code.next :=
        Nat.lt_succ_iff_lt_or_eq.trans (or_iff_left hp)
      simp [setCode, FileKernel.opened, FileKernel.setFile, FileKernel.setCount, hp, hlt]
  · by_cases hp : p = w.code.next
    · simp [ledger, RefLedger.enrol, setCode, FileKernel.opened, FileKernel.setFile, hp]
    · simp [ledger, RefLedger.enrol, setCode, FileKernel.opened, FileKernel.setFile,
        FileKernel.setCount, hp]

/-- Where a file is in the master table is not in the ledger. -/
theorem ledger_setFile {g : File} (hf : w.code.files p = some f) (hg : g.fileVnode = f.fileVnode) :
    (w.setCode (w.code.setFile p (some g))).ledger = w.ledger := by
  refine RefLedger.ext rfl rfl (Finset.ext fun p' => ?_) (funext fun p' => ?_)
  · rw [mem_objects_iff, mem_objects_iff]
    by_cases hp : p' = p
    · simp [setCode, FileKernel.setFile, hp, hf]
    · simp [setCode, FileKernel.setFile, hp]
  · by_cases hp : p' = p
    · simp [ledger, setCode, FileKernel.setFile, hp, hf, hg]
    · simp [ledger, setCode, FileKernel.setFile, hp]

theorem ledger_setMaster {m : ℤ} (hf : w.code.files p = some f) :
    (w.setCode ((w.code.setMaster m (some p)).setFile p (some { f with masterFd := m }))).ledger =
      w.ledger :=
  ledger_setFile (w := w.setCode (w.code.setMaster m (some p))) (f := f) hf rfl

/-! ### Step by step -/

theorem Core.setHeld {held : List LockId} (h : w.Core) : (w.setCode (w.code.setHeld held)).Core :=
  ⟨h.balanced, h.slots, h.master, h.allocated, h.tables, h.vnodes⟩

/-- A slot and a count change together. -/
theorem Core.setSlot {o : Option Ptr} {n : ℕ} (h : w.Core) (hq : q ∈ w.live)
    (ht : w.code.tables q = some t)
    (hbalanced : (w.ledger.store (q, fd) o).Balanced (update w.code.vnRefcount v n) w.outside)
    (hslots : (w.ledger.store (q, fd) o).Sound) :
    (w.setCode ((w.code.setTable q (some { t with fileArr := update t.fileArr fd o })).setCount v
      n)).Core := by
  rw [← ledger_setTable ht] at hbalanced hslots
  refine ⟨hbalanced, hslots, h.master, fun p' hp' => ⟨(h.allocated p' hp').1, ?_⟩, fun q' hq' => ?_,
    h.vnodes⟩
  · have hne : p' ≠ q := fun habs => h.tables q hq (habs ▸ (h.allocated p' hp').2)
    show update w.code.tables q _ p' = none
    rw [Function.update_of_ne hne]
    exact (h.allocated p' hp').2
  · show update w.code.tables q _ q' ≠ none
    by_cases hne : q' = q
    · simp [hne]
    · rw [Function.update_of_ne hne]
      exact h.tables q' hq'

/-- A free slot is filled, and the file's vnode counts it. -/
theorem Core.fill (h : w.Core) (hq : q ∈ w.live) (ht : w.code.tables q = some t)
    (hfd : minFd ≤ fd ∧ fd < openMax) (hempty : t.fileArr fd = none) (hf : w.code.files p = some f)
    (hv : f.fileVnode = some v) :
    (w.setCode ((w.code.setTable q
      (some { t with fileArr := update t.fileArr fd (some p) })).setCount v
        (w.code.vnRefcount v + 1))).Core := by
  have hx : (q, fd) ∈ w.ledger.slots := mem_slots.mpr ⟨hq, hfd⟩
  have hp : p ∈ w.ledger.objects := (mem_objects h).mpr (by simp [hf])
  have hheld : w.ledger.held (q, fd) = none := by rw [held_slot ht, hempty]
  have hhome : w.ledger.home p = some v := by rw [home_file hf, hv]
  apply h.setSlot hq ht
  · exact h.balanced.fill h.slots hx hheld hp hhome
  · exact h.slots.store fun o ho => by cases ho; exact hp

/-- A slot is emptied, and the file's vnode counts it no longer. -/
theorem Core.clear (h : w.Core) (hq : q ∈ w.live) (ht : w.code.tables q = some t)
    (hfd : minFd ≤ fd ∧ fd < openMax) (hslot : t.fileArr fd = some p) (hf : w.code.files p = some f)
    (hv : f.fileVnode = some v) :
    (w.setCode ((w.code.setTable q
      (some { t with fileArr := update t.fileArr fd none })).setCount v
        (w.code.vnRefcount v - 1))).Core := by
  have hx : (q, fd) ∈ w.ledger.slots := mem_slots.mpr ⟨hq, hfd⟩
  have hheld : w.ledger.held (q, fd) = some p := by rw [held_slot ht, hslot]
  have hhome : w.ledger.home p = some v := by rw [home_file hf, hv]
  apply h.setSlot hq ht
  · exact h.balanced.clear h.slots hx hheld hhome
  · exact h.slots.store fun o ho => by cases ho

/-- A new file. -/
theorem Core.opened (h : w.Core) : (w.setCode (w.code.opened v)).Core := by
  have hnew : w.code.next ∉ w.ledger.objects := fun habs =>
    (mem_objects h).mp habs (h.allocated _ (Nat.le_refl _)).1
  refine ⟨?_, ?_, fun fd p hp => ?_, fun p hp => ⟨?_, ?_⟩, h.tables, fun p f hf => ?_⟩
  · rw [ledger_opened]
    exact h.balanced.enrol h.slots hnew
  · rw [ledger_opened]
    exact h.slots.enrol
  · show update w.code.files _ _ p ≠ none
    by_cases hne : p = w.code.next
    · simp [hne]
    · rw [Function.update_of_ne hne]
      exact h.master fd p hp
  · show update w.code.files _ _ p = none
    rw [Function.update_of_ne (Nat.ne_of_gt hp)]
    exact (h.allocated p (Nat.le_of_succ_le hp)).1
  · exact (h.allocated p (Nat.le_of_succ_le hp)).2
  · have hf : update w.code.files w.code.next _ p = some f := hf
    by_cases hne : p = w.code.next
    · rw [hne, Function.update_self] at hf
      cases hf
      simp
    · rw [Function.update_of_ne hne] at hf
      exact h.vnodes p f hf

/-- A file goes to a slot of the master table. -/
theorem Core.setMaster {m : ℤ} (h : w.Core) (hf : w.code.files p = some f) :
    (w.setCode ((w.code.setMaster m (some p)).setFile p (some { f with masterFd := m }))).Core := by
  have hledger := ledger_setMaster (m := m) hf
  have hsome : ∀ p', w.code.files p' ≠ none →
      update w.code.files p (some { f with masterFd := m }) p' ≠ none := fun p' hp' => by
    by_cases hne : p' = p
    · simp [hne]
    · rwa [Function.update_of_ne hne]
  refine ⟨?_, ?_, fun fd p' hp' => hsome p' ?_, fun p' hp' => ⟨?_, (h.allocated p' hp').2⟩, h.tables,
    fun p' f' hf' => ?_⟩
  · rw [hledger]
    exact h.balanced
  · rw [hledger]
    exact h.slots
  · have hp' : update w.code.master.fileArr m (some p) fd = some p' := hp'
    by_cases hfd : fd = m
    · rw [hfd, Function.update_self] at hp'
      cases hp'
      simp [hf]
    · rw [Function.update_of_ne hfd] at hp'
      exact h.master fd p' hp'
  · have hne : p' ≠ p := fun habs => by
      have hnone := (h.allocated p' hp').1
      rw [habs, hf] at hnone
      cases hnone
    show update w.code.files p _ p' = none
    rw [Function.update_of_ne hne]
    exact (h.allocated p' hp').1
  · have hf' : update w.code.files p _ p' = some f' := hf'
    by_cases hne : p' = p
    · rw [hne, Function.update_self] at hf'
      cases hf'
      exact h.vnodes p f hf
    · rw [Function.update_of_ne hne] at hf'
      exact h.vnodes p' f' hf'

end Ledger

end Desk

end UnionCollegeCode.OS161.Files
