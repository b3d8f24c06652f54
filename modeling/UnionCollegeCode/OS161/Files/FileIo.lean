import UnionCollegeCode.Lib.ByteFile
import UnionCollegeCode.Lib.Run
import UnionCollegeCode.OS161.Files.Syscalls

/-!
# Reading, writing and seeking against one array of bytes and one offset

A process reads, writes and seeks on one descriptor, a regular file. Beside it runs a `ByteFile`,
which moves its offset by what a call moved. The two agree for as long as nobody relies on an offset
that the kernel has let go stale: a write leaves the stored offset where it was, and an offset past
what an `int` holds is cut.
-/

set_option autoImplicit false

namespace UnionCollegeCode.OS161.Files

open Function (update)
open Lib (ByteFile splice)
open Lib.EState
open Lib.Run (Along Meets exec)

/-! ## The calls, and what they should do -/

inductive IoCall
  | read (buf : Option Ptr) (buflen : UInt32) (a : ReadAnswers)
  | write (buf : Option Ptr) (user : List UInt8) (buflen : ℤ) (a : WriteAnswers)
  | lseek (offset whence : ℤ) (a : SeekAnswers)

namespace IoCall

/-- The result of a call, and what a read puts at `buf`. -/
def run (procFt : Option Ptr) (fd : ℤ) : IoCall → FileM (ℤ × List UInt8)
  | .read buf buflen a => sysRead procFt fd buf buflen a
  | .write buf user buflen a => do
    let k ← sysWrite procFt fd buf user buflen a
    return (k, [])
  | .lseek offset whence a => do
    let pos ← sysLseek procFt fd offset whence a
    return (pos, [])

/-- How many bytes a read is after, as far as the disk goes along. -/
def asked (buflen : UInt32) (a : ReadAnswers) : ℕ := min a.vopRead.limit buflen.toNat

/-- The bytes a write puts in the file. -/
def moved (user : List UInt8) (buflen : ℤ) (a : WriteAnswers) : List UInt8 :=
  (user.take (buflen % 2 ^ 32).toNat).take a.vopWrite.limit

/-- Where `whence` counts from, when the offset is `pos`. -/
def base (pos : ℤ) (bytes : List UInt8) (whence : ℤ) : Option ℤ :=
  if whence = seekSet then some 0
  else if whence = seekCur then some pos
  else if whence = seekEnd then some bytes.length
  else none

/-- The call on an abstract file. -/
def spec (f : ByteFile UInt8) : IoCall → (ℤ × List UInt8) × ByteFile UInt8
  | .read _ buflen a =>
    let bytes := f.peek (asked buflen a)
    ((bytes.length, bytes), f.advance bytes.length)
  | .write _ user buflen a =>
    let new := moved user buflen a
    ((new.length, []), f.write 0 new)
  | .lseek offset whence _ =>
    match (base f.offset f.bytes whence).bind fun b => f.seek (b + offset) with
    | none => ((-EINVAL, []), f)
    | some f' => ((f'.offset, []), f')

/-- The abstract file after some calls. -/
def specs (f : ByteFile UInt8) (calls : List IoCall) : ByteFile UInt8 :=
  calls.foldl (fun f call => (call.spec f).2) f

/-- What a call puts in the file. -/
def data : IoCall → List UInt8
  | .write _ user buflen a => moved user buflen a
  | _ => []

/-- On the abstract file, writes in a row land in a row. -/
theorem specs_writes {calls : List IoCall}
    (hwrites : ∀ call ∈ calls, ∃ buf user buflen a, call = .write buf user buflen a) :
    ∀ f, specs f calls = f.write 0 (calls.map data).flatten := by
  induction calls with
  | nil => exact fun f => rfl
  | cons call calls ih =>
    intro f
    obtain ⟨buf, user, buflen, a, rfl⟩ := hwrites call List.mem_cons_self
    show specs (f.write 0 (moved user buflen a)) calls = _
    rw [ih fun c hc => hwrites c (List.mem_cons_of_mem _ hc), ByteFile.write_write]
    rfl

/-- Back where they began, a read hands out all that was written. -/
theorem specs_readBack {calls : List IoCall} {a : SeekAnswers}
    (hwrites : ∀ call ∈ calls, ∃ buf user buflen a, call = .write buf user buflen a)
    (f : ByteFile UInt8) :
    (specs f (calls ++ [.lseek f.offset seekSet a])).peek (calls.map data).flatten.length =
      (calls.map data).flatten := by
  have hseek : ∀ g : ByteFile UInt8, ((IoCall.lseek f.offset seekSet a).spec g).2 =
      { g with offset := f.offset } := fun g => by
    simp [spec, base, ByteFile.seek]
  rw [specs, List.foldl_append, List.foldl_cons, List.foldl_nil, hseek]
  have hafter := specs_writes hwrites f
  rw [specs] at hafter
  rw [hafter]
  exact ByteFile.peek_write 0 f _

end IoCall

/-- The kernel and the abstract file side by side, with what they have answered so far. -/
structure IoPair where
  code : FileKernel
  file : ByteFile UInt8
  /-- The stored offset has not followed the abstract one. -/
  stale : Bool
  answers : List (ℤ × List UInt8)
  expected : List (ℤ × List UInt8)

namespace IoPair

/-- After a call that left the abstract file at `f'`. -/
def staleAfter (x : IoPair) (f' : ByteFile UInt8) : IoCall → Bool
  | .read _ _ _ => x.stale || decide (2 ^ 31 ≤ f'.offset)
  | .write _ user buflen a => x.stale || decide (IoCall.moved user buflen a ≠ [])
  | .lseek _ _ _ => false

/-- One call that succeeds. -/
def step (procFt : Option Ptr) (fd : ℤ) (x : IoPair) (call : IoCall) : Option IoPair :=
  match call.run procFt fd x.code with
  | .error _ _ => none
  | .ok answer code =>
    if answer.1 < 0 then none
    else
      let (expected, file) := call.spec x.file
      some ⟨code, file, x.staleAfter file call, x.answers ++ [answer], x.expected ++ [expected]⟩

/-- A call goes by the stored offset only where that is the right one, and leaves it where an `int`
can follow. -/
def InStep (x : IoPair) : IoCall → Prop
  | .read _ buflen a => x.stale = true → IoCall.asked buflen a = 0
  | .write _ user buflen a => x.stale = true → IoCall.moved user buflen a = []
  | .lseek offset whence _ => (x.stale = true → whence ≠ seekCur) ∧
      ∀ b, IoCall.base x.file.offset x.file.bytes whence = some b → b + offset < 2 ^ 31

/-- The same answers, and the same contents of the file on vnode `v`. -/
def Agrees (v : Ptr) (x : IoPair) : Prop :=
  x.answers = x.expected ∧ x.code.contents v = x.file.bytes

/-- The descriptor as it is. An offset below zero is none. -/
def start (s : FileKernel) (f : File) (v : Ptr) : IoPair :=
  ⟨s, ⟨s.contents v, f.seekPos.toNat⟩, decide (f.seekPos < 0), [], []⟩

end IoPair

/-! ## What a call that succeeds does to the descriptor -/

/-- The descriptor is open on `v`, at `pos`; the file holds `bytes`; the thread has no lock. -/
structure OpenAt (procFt : Option Ptr) (fd : ℤ) (p v : Ptr) (pos : ℤ) (bytes : List UInt8)
    (s : FileKernel) : Prop where
  isOpen : ∃ f, s.OpenAs procFt fd p f v ∧ f.seekPos = pos
  contents : s.contents v = bytes
  held : s.held = []

section Calls

variable {procFt : Option Ptr} {fd : ℤ} {p v : Ptr} {pos : ℤ} {bytes : List UInt8}
  {s : FileKernel}

/-- A descriptor that is open is found. -/
theorem wp_withFile_open {α : Type} {missing : α} {found : Ptr → FileM α}
    {Q : α → FileKernel → Prop} {E : Stop → FileKernel → Prop} (h : OpenAt procFt fd p v pos bytes s) :
    wp (withFile procFt fd missing found) Q E s ↔ wp (found p) Q E s := by
  obtain ⟨f, hf, -⟩ := h.isOpen
  have hslot := hf.slot
  obtain ⟨q, hq⟩ : ∃ q, procFt = some q := by
    cases procFt with
    | none => simp [FileKernel.descriptor] at hslot
    | some q => exact ⟨q, rfl⟩
  obtain ⟨t, ht⟩ : ∃ t, s.tables q = some t := by
    cases ht : s.tables q with
    | none => simp [FileKernel.descriptor, hq, ht] at hslot
    | some t => exact ⟨t, rfl⟩
  have hfd : t.fileArr fd = some p := by simpa [FileKernel.descriptor, hq, ht] using hslot
  rw [withFile, wp_bind, wp_fileTableLookup h.held hf.range]
  simp only [hq, reduceCtorEq, false_implies, true_and, Option.some.injEq, forall_eq', ht, hfd,
    and_true]

/-- A new offset, and the locks given back. -/
theorem OpenAt.moveTo {f : File} (h : OpenAt procFt fd p v pos bytes s)
    (hf : s.OpenAs procFt fd p f v) (pos' : ℤ) :
    OpenAt procFt fd p v pos' bytes
      ((s.setFile p (some { f with seekPos := pos' })).setHeld []) where
  isOpen := ⟨{ f with seekPos := pos' },
    ⟨hf.range, hf.slot, Function.update_self p _ _, hf.vnode, hf.inMemory⟩, rfl⟩
  contents := h.contents
  held := rfl

theorem OpenAt.setContents (h : OpenAt procFt fd p v pos bytes s) (bytes' : List UInt8) :
    OpenAt procFt fd p v pos bytes'
      ({ s with contents := update s.contents v bytes' }.setHeld []) := by
  obtain ⟨f, hf, hpos⟩ := h.isOpen
  refine ⟨⟨f, ⟨hf.range, hf.slot, hf.file, hf.vnode, hf.inMemory⟩, hpos⟩, ?_, rfl⟩
  exact Function.update_self v bytes' s.contents

theorem toInt_eq_self {k : ℤ} (hlow : -2 ^ 31 ≤ k) (hhigh : k < 2 ^ 31) : toInt k = k := by
  simp only [toInt, Int.bmod]
  split <;> omega

/-- A count that is not negative as an `int` is what it was. -/
theorem toInt_count {k : ℕ} (hk : k < 2 ^ 32) (hpos : 0 ≤ toInt k) : toInt k = k := by
  refine toInt_eq_self (by omega) ?_
  simp only [toInt, Int.bmod] at hpos
  split at hpos <;> omega

/-- The low half of the joined offset is the offset. -/
theorem toInt_join (base fd offset : ℤ) :
    toInt (base + join32to64 fd offset) = toInt (base + offset) := by
  unfold toInt join32to64
  rw [← Int.emod_bmod, ← Int.emod_bmod (base + offset)]
  congr 1
  omega

theorem wp_readFile {buflen : UInt32} {r : VopResult} {f : File} {Q : ℤ × List UInt8 → FileKernel → Prop}
    {E : Stop → FileKernel → Prop} (h : OpenAt procFt fd p v pos bytes s)
    (hf : s.OpenAs procFt fd p f v) :
    wp (readFile p buflen r) Q E s ↔
      let new := (bytes.drop f.seekPos.toNat).take (min r.limit buflen.toNat)
      (r.result ≠ 0 → Q (-(r.result : ℤ), new) (s.setHeld [.file p])) ∧
      (r.result = 0 → Q (toInt new.length, new)
        ((s.setFile p (some { f with seekPos := toInt (f.seekPos + new.length) })).setHeld [])) := by
  simp only [readFile, fileLockAcquire, fileLockRelease, wp_bind, wp_derefFile, wp_lockAcquire,
    wp_vopRead, wp_ite, wp_modify, wp_lockRelease, wp_pure]
  simp [FileKernel.setHeld, FileKernel.setFile, hf.file, hf.vnode, hf.inMemory, h.held, h.contents]

theorem sysRead_ok {buf : Option Ptr} {buflen : UInt32} {a : ReadAnswers} {r : ℤ × List UInt8}
    {t : FileKernel} (h : OpenAt procFt fd p v pos bytes s)
    (hrun : sysRead procFt fd buf buflen a s = .ok r t) (hr : 0 ≤ r.1) :
    let new := (bytes.drop pos.toNat).take (IoCall.asked buflen a)
    r = ((new.length : ℤ), new) ∧ OpenAt procFt fd p v (toInt (pos + new.length)) bytes t := by
  intro new
  obtain ⟨f, hf, hpos⟩ := h.isOpen
  obtain ⟨hmin, hmax⟩ := hf.range
  rw [minFd] at hmin
  suffices hwp : wp (sysRead procFt fd buf buflen a) (fun r t => 0 ≤ r.1 →
      r = ((new.length : ℤ), new) ∧ OpenAt procFt fd p v (toInt (pos + new.length)) bytes t)
      (fun _ _ => True) s from (wp_of_ok hrun).mp hwp hr
  simp only [sysRead, wp_ite, wp_pure, wp_withFile_open h, wp_readFile h hf]
  refine ⟨fun hout => by omega, fun _ => ⟨fun _ hneg => ?_, fun _ => ⟨fun h0 => by omega, fun _ =>
    ⟨fun h1 => by omega, fun _ => ⟨fun h2 => by omega, fun _ => ⟨fun he hneg => ?_, fun _ hcount => ?_⟩⟩⟩⟩⟩⟩
  · exact absurd hneg (by decide)
  · have : (0 : ℤ) ≤ -(a.vopRead.result : ℤ) := hneg
    omega
  · have hlen : new.length ≤ buflen.toNat := by
      rw [List.length_take]
      exact Nat.le_trans (Nat.min_le_left _ _) (Nat.min_le_right _ _)
    rw [hpos] at hcount ⊢
    have hnew : toInt new.length = new.length :=
      toInt_count (Nat.lt_of_le_of_lt hlen (UInt32.toNat_lt buflen)) hcount
    exact ⟨by rw [← hnew]; rfl, h.moveTo hf _⟩

theorem wp_writeFile {data : List UInt8} {r : VopResult} {f : File} {Q : ℤ → FileKernel → Prop}
    {E : Stop → FileKernel → Prop} (h : OpenAt procFt fd p v pos bytes s)
    (hf : s.OpenAs procFt fd p f v) :
    wp (writeFile p data r) Q E s ↔
      let new := data.take r.limit
      let t := if new = [] then s else
        { s with contents := update s.contents v (overwrite bytes f.seekPos.toNat new) }
      (r.result ≠ 0 → Q (-(r.result : ℤ)) (t.setHeld [])) ∧
      (r.result = 0 → Q (toInt new.length) (t.setHeld [])) := by
  simp only [writeFile, fileLockAcquire, fileLockRelease, vopWrite, wp_bind, wp_derefFile,
    wp_lockAcquire, wp_derefVnode, wp_ite, wp_modify, wp_lockRelease, wp_pure]
  generalize data.take r.limit = new
  by_cases hnew : new = []
  · simp [FileKernel.setHeld, hf.file, hf.vnode, hf.inMemory, h.held, hnew]
  · simp [FileKernel.setHeld, hf.file, hf.vnode, hf.inMemory, h.held, h.contents, hnew]

theorem sysWrite_ok {buf : Option Ptr} {user : List UInt8} {buflen : ℤ} {a : WriteAnswers} {r : ℤ}
    {t : FileKernel} (h : OpenAt procFt fd p v pos bytes s)
    (hrun : sysWrite procFt fd buf user buflen a s = .ok r t) (hr : 0 ≤ r) :
    let new := IoCall.moved user buflen a
    r = new.length ∧ OpenAt procFt fd p v pos
      (if new = [] then bytes else splice 0 bytes pos.toNat new) t := by
  intro new
  obtain ⟨f, hf, hpos⟩ := h.isOpen
  obtain ⟨hmin, hmax⟩ := hf.range
  rw [minFd] at hmin
  suffices hwp : wp (sysWrite procFt fd buf user buflen a) (fun r t => 0 ≤ r →
      r = new.length ∧ OpenAt procFt fd p v pos
        (if new = [] then bytes else splice 0 bytes pos.toNat new) t)
      (fun _ _ => True) s from (wp_of_ok hrun).mp hwp hr
  simp only [sysWrite, wp_ite, wp_pure, wp_withFile_open h, wp_writeFile h hf]
  refine ⟨fun hout => by omega, fun _ => ⟨fun _ hneg => ?_, fun _ => ⟨fun _ hneg => ?_, fun _ =>
    ⟨fun _ hneg => ?_, fun _ => ⟨fun h0 => by omega, fun _ => ⟨fun h1 => by omega, fun _ =>
      ⟨fun h2 => by omega, fun _ => ⟨fun he hneg => ?_, fun _ hcount => ?_⟩⟩⟩⟩⟩⟩⟩⟩
  · exact absurd hneg (by decide)
  · exact absurd hneg (by decide)
  · omega
  · omega
  · have hlen : new.length < 2 ^ 32 := by
      have hmod : (buflen % 2 ^ 32).toNat < 2 ^ 32 := by omega
      have hmoved : new.length ≤ (buflen % 2 ^ 32).toNat := by
        simp only [new, IoCall.moved, List.length_take]
        omega
      exact Nat.lt_of_le_of_lt hmoved hmod
    refine ⟨toInt_count hlen hcount, ?_⟩
    rw [hpos]
    show OpenAt procFt fd p v pos (if new = [] then bytes else splice 0 bytes pos.toNat new)
      (FileKernel.setHeld (if new = [] then s else
        { s with contents := update s.contents v (overwrite bytes pos.toNat new) }) [])
    by_cases hnew : new = []
    · rw [if_pos hnew, if_pos hnew]
      exact ⟨⟨f, ⟨hf.range, hf.slot, hf.file, hf.vnode, hf.inMemory⟩, hpos⟩, h.contents, rfl⟩
    · rw [if_neg hnew, if_neg hnew]
      exact h.setContents _

section OpenFile

variable {f : File} {E : Stop → FileKernel → Prop}

theorem wp_fileLockAcquire_open {Q : Unit → FileKernel → Prop} (h : OpenAt procFt fd p v pos bytes s)
    (hf : s.OpenAs procFt fd p f v) :
    wp (fileLockAcquire p) Q E s ↔ Q () (s.setHeld [.file p]) := by
  simp only [fileLockAcquire, wp_bind, wp_derefFile, wp_lockAcquire]
  simp [hf.file, h.held]

theorem wp_fileLockRelease_open {Q : Unit → FileKernel → Prop} (hf : s.OpenAs procFt fd p f v) :
    wp (fileLockRelease p) Q E (s.setHeld [.file p]) ↔ Q () (s.setHeld []) := by
  simp only [fileLockRelease, wp_bind, wp_derefFile, wp_lockRelease]
  simp [FileKernel.setHeld, hf.file]

theorem wp_derefFile_open {Q : File → FileKernel → Prop} {held : List LockId}
    (hf : s.OpenAs procFt fd p f v) :
    wp (derefFile p) Q E (s.setHeld held) ↔ Q f (s.setHeld held) := by
  rw [wp_derefFile]
  simp [FileKernel.setHeld, hf.file]

theorem wp_derefVnode_open {Q : Ptr × ℕ → FileKernel → Prop} {held : List LockId}
    (hf : s.OpenAs procFt fd p f v) :
    wp (derefVnode f.fileVnode) Q E (s.setHeld held) ↔ Q (v, s.vnRefcount v) (s.setHeld held) := by
  rw [wp_derefVnode]
  simp [FileKernel.setHeld, hf.vnode, hf.inMemory]

theorem wp_seekTo {target : ℤ} {Q : ℤ → FileKernel → Prop} (hf : s.OpenAs procFt fd p f v) :
    wp (seekTo p target) Q E (s.setHeld [.file p]) ↔ Q (toInt target)
      ((s.setFile p (some { f with seekPos := toInt target })).setHeld []) := by
  simp only [seekTo, fileLockRelease, wp_bind, wp_derefFile, wp_modify, wp_lockRelease, wp_pure]
  simp [FileKernel.setHeld, FileKernel.setFile, hf.file]

theorem wp_seekFile {curPos whence : ℤ} {a : SeekAnswers} {Q : ℤ → FileKernel → Prop}
    (h : OpenAt procFt fd p v pos bytes s) (hf : s.OpenAs procFt fd p f v) :
    wp (seekFile p curPos whence a) Q E s ↔
      let goto := fun target => Q (toInt target)
        ((s.setFile p (some { f with seekPos := toInt target })).setHeld [])
      (whence = seekSet → goto curPos) ∧
      (whence ≠ seekSet → (whence = seekCur → goto (f.seekPos + curPos)) ∧
      (whence ≠ seekCur → (whence = seekEnd →
        (a.statAgain ≠ 0 → Q (-(a.statAgain : ℤ)) (s.setHeld [])) ∧
        (a.statAgain = 0 → goto (curPos + bytes.length))) ∧
      (whence ≠ seekEnd → Q (-EINVAL) (s.setHeld [])))) := by
  have hbytes : (s.setHeld [.file p]).contents v = bytes := h.contents
  simp only [seekFile, wp_bind, wp_fileLockAcquire_open h hf, wp_derefFile_open hf,
    wp_derefVnode_open hf, wp_get, wp_ite, wp_pure, wp_seekTo hf, wp_fileLockRelease_open hf, hbytes,
    not_not, ne_eq]

end OpenFile

/-- `sys_lseek` has answered `r` and left the descriptor there. -/
def SoughtTo (procFt : Option Ptr) (fd : ℤ) (p v : Ptr) (pos : ℤ) (bytes : List UInt8)
    (offset whence r : ℤ) (t : FileKernel) : Prop :=
  ∃ base, IoCall.base pos bytes whence = some base ∧ -2 ≤ offset ∧ r = toInt (base + offset) ∧
    OpenAt procFt fd p v (toInt (base + offset)) bytes t

theorem sysLseek_ok {offset whence : ℤ} {a : SeekAnswers} {r : ℤ} {t : FileKernel}
    (h : OpenAt procFt fd p v pos bytes s)
    (hrun : sysLseek procFt fd offset whence a s = .ok r t) (hr : 0 ≤ r) :
    SoughtTo procFt fd p v pos bytes offset whence r t := by
  obtain ⟨f, hf, hpos⟩ := h.isOpen
  obtain ⟨hmin, hmax⟩ := hf.range
  rw [minFd] at hmin
  suffices hwp : wp (sysLseek procFt fd offset whence a) (fun r t => 0 ≤ r →
      SoughtTo procFt fd p v pos bytes offset whence r t) (fun _ _ => True) s from
    (wp_of_ok hrun).mp hwp hr
  have hfile : ∀ Q, wp (derefFile p) Q (fun _ _ => True) s ↔ Q f s := fun Q => by
    rw [wp_derefFile]
    simp [hf.file]
  have hvnode : ∀ Q, wp (derefVnode f.fileVnode) Q (fun _ _ => True) s ↔ Q (v, s.vnRefcount v) s :=
    fun Q => by
      rw [wp_derefVnode]
      simp [hf.vnode, hf.inMemory]
  -- Without the lock, the release is a failed assertion.
  have hrelease : ∀ Q, wp (fileLockRelease p) Q (fun _ _ => True) s := fun Q => by
    simp only [fileLockRelease, wp_bind, hfile, wp_lockRelease]
    simp [h.held]
  have hgoto : ∀ base target, IoCall.base pos bytes whence = some base → -2 ≤ offset →
      target = base + join32to64 fd offset → SoughtTo procFt fd p v pos bytes offset whence
        (toInt target) ((s.setFile p (some { f with seekPos := toInt target })).setHeld []) := by
    intro base target hbase hlow htarget
    rw [htarget, toInt_join]
    exact ⟨base, hbase, hlow, rfl, h.moveTo hf _⟩
  simp only [sysLseek, wp_bind, wp_ite, wp_pure, wp_withFile_open h, hfile, hvnode, wp_seekFile h hf,
    hrelease]
  refine ⟨fun hout => by omega, fun _ => ⟨fun h0 => by omega, fun _ => ⟨fun h1 => by omega, fun _ =>
    ⟨fun h2 => by omega, fun _ => ⟨fun _ hneg => ?_, fun _ => ⟨fun _ => trivial, fun _ =>
      ⟨fun _ hneg => ?_, fun hwhence => ⟨fun _ hneg => ?_, fun hsum => ?_⟩⟩⟩⟩⟩⟩⟩⟩
  · exact absurd hneg (by decide)
  · exact absurd hneg (by decide)
  · exact absurd hneg (by decide)
  · refine ⟨fun hset _ => ?_, fun hset => ⟨fun hcur _ => ?_, fun hcur => ⟨fun hend =>
      ⟨fun _ hneg => ?_, fun _ _ => ?_⟩, fun _ hneg => ?_⟩⟩⟩
    · refine hgoto 0 _ (by rw [IoCall.base, if_pos hset]) ?_ (Int.zero_add _).symm
      simp only [hset, seekSet] at hsum
      omega
    · refine hgoto pos _ (by rw [IoCall.base, if_neg hset, if_pos hcur]) ?_ (by rw [hpos])
      simp only [hcur, seekCur] at hsum
      omega
    · omega
    · refine hgoto bytes.length _ (by rw [IoCall.base, if_neg hset, if_neg hcur, if_pos hend]) ?_ (Int.add_comm _ _)
      simp only [hend, seekEnd] at hsum
      omega
    · exact absurd hneg (by decide)

end Calls

/-! ## Runs -/

namespace IoPair

variable {procFt : Option Ptr} {fd : ℤ} {p v : Ptr}

/-- What every call in step keeps: the answers and the bytes agree, and a stored offset that is not
stale is the abstract one. -/
def Tracks (procFt : Option Ptr) (fd : ℤ) (p v : Ptr) (x : IoPair) : Prop :=
  x.answers = x.expected ∧ ∃ pos, OpenAt procFt fd p v pos x.file.bytes x.code ∧
    (x.stale = false → pos = x.file.offset)

theorem Tracks.agrees {x : IoPair} (h : Tracks procFt fd p v x) : x.Agrees v := by
  obtain ⟨hanswers, _, hopen, -⟩ := h
  exact ⟨hanswers, hopen.contents⟩

theorem tracks_start {s : FileKernel} {f : File} (hs : s.held = [])
    (hf : s.OpenAs procFt fd p f v) : Tracks procFt fd p v (start s f v) := by
  refine ⟨rfl, f.seekPos, ⟨⟨f, hf, rfl⟩, rfl, hs⟩, fun hfresh => ?_⟩
  simp only [start, decide_eq_false_iff_not, Int.not_lt] at hfresh
  exact (Int.toNat_of_nonneg hfresh).symm

/-- A step, taken apart. -/
theorem step_eq {x x' : IoPair} {call : IoCall} (h : x.step procFt fd call = some x') :
    ∃ answer code, call.run procFt fd x.code = .ok answer code ∧ 0 ≤ answer.1 ∧
      x' = ⟨code, (call.spec x.file).2, x.staleAfter (call.spec x.file).2 call,
        x.answers ++ [answer], x.expected ++ [(call.spec x.file).1]⟩ := by
  unfold step at h
  split at h
  · cases h
  · rename_i answer code hrun
    split at h
    · cases h
    · rename_i hpos
      exact ⟨answer, code, hrun, Int.not_lt.mp hpos, (Option.some.inj h).symm⟩

/-- The stored offset is the abstract one, or nothing hangs on it. -/
theorem bytes_eq_peek {f : ByteFile UInt8} {pos : ℤ} {stale : Bool} {n : ℕ}
    (hfresh : stale = false → pos = f.offset) (hstep : stale = true → n = 0) :
    (f.bytes.drop pos.toNat).take n = f.peek n := by
  cases stale with
  | true => rw [hstep rfl, ByteFile.peek, List.take_zero, List.take_zero]
  | false => rw [hfresh rfl, Int.toNat_natCast, ByteFile.peek]

theorem bytes_eq_write {f : ByteFile UInt8} {pos : ℤ} {stale : Bool} {new : List UInt8}
    (hfresh : stale = false → pos = f.offset) (hstep : stale = true → new = []) :
    (if new = [] then f.bytes else splice 0 f.bytes pos.toNat new) = (f.write 0 new).bytes := by
  by_cases hnew : new = []
  · rw [if_pos hnew, hnew, ByteFile.write_nil]
  · have hpos : pos = f.offset := hfresh (Bool.eq_false_iff.mpr fun hstale => hnew (hstep hstale))
    rw [if_neg hnew, hpos, Int.toNat_natCast, ByteFile.write, if_neg hnew]

theorem base_eq {f : ByteFile UInt8} {pos b whence : ℤ} {stale : Bool}
    (hfresh : stale = false → pos = f.offset) (hstep : stale = true → whence ≠ seekCur)
    (hbase : IoCall.base pos f.bytes whence = some b) :
    IoCall.base f.offset f.bytes whence = some b ∧ 0 ≤ b := by
  unfold IoCall.base at hbase ⊢
  split at hbase
  · rename_i hset
    rw [if_pos hset]
    cases hbase
    exact ⟨rfl, Int.le_refl _⟩
  · rename_i hset
    rw [if_neg hset]
    split at hbase
    · rename_i hcur
      have hpos : pos = f.offset := hfresh (Bool.eq_false_iff.mpr fun hstale => hstep hstale hcur)
      cases hbase
      rw [if_pos hcur, hpos]
      exact ⟨rfl, Int.natCast_nonneg _⟩
    · rename_i hcur
      rw [if_neg hcur]
      split at hbase
      · rename_i hend
        cases hbase
        rw [if_pos hend]
        exact ⟨rfl, Int.natCast_nonneg _⟩
      · cases hbase

/-- What a call that succeeds in step answers and leaves. -/
theorem Tracks.run {x : IoPair} (h : Tracks procFt fd p v x) {call : IoCall} (hstep : x.InStep call)
    {answer : ℤ × List UInt8} {code : FileKernel} (hrun : call.run procFt fd x.code = .ok answer code)
    (hpos : 0 ≤ answer.1) :
    answer = (call.spec x.file).1 ∧ ∃ pos, OpenAt procFt fd p v pos (call.spec x.file).2.bytes code ∧
      (x.staleAfter (call.spec x.file).2 call = false → pos = (call.spec x.file).2.offset) := by
  obtain ⟨-, pos, hopen, hfresh⟩ := h
  cases call with
  | read buf buflen a =>
    obtain ⟨hanswer, hopen'⟩ := sysRead_ok hopen hrun hpos
    rw [bytes_eq_peek hfresh hstep] at hanswer hopen'
    refine ⟨hanswer, _, hopen', fun hstale => ?_⟩
    obtain ⟨hx, hsmall⟩ := Bool.or_eq_false_iff.mp hstale
    have hsmall := Nat.not_le.mp (of_decide_eq_false hsmall)
    rw [hfresh hx]
    exact toInt_eq_self (by omega) (Int.ofNat_lt.mpr hsmall)
  | write buf user buflen a =>
    simp only [IoCall.run, bind_eq_ok, pure_eq_ok] at hrun
    obtain ⟨k, _, hrun, rfl, rfl⟩ := hrun
    obtain ⟨hanswer, hopen'⟩ := sysWrite_ok hopen hrun hpos
    rw [bytes_eq_write hfresh hstep] at hopen'
    refine ⟨by rw [hanswer]; rfl, _, hopen', fun hstale => ?_⟩
    obtain ⟨hx, hnone⟩ := Bool.or_eq_false_iff.mp hstale
    have hnone := Classical.not_not.mp (of_decide_eq_false hnone)
    show pos = (x.file.write 0 (IoCall.moved user buflen a)).offset
    rw [hfresh hx, hnone, ByteFile.write_nil]
  | lseek offset whence a =>
    simp only [IoCall.run, bind_eq_ok, pure_eq_ok] at hrun
    obtain ⟨r, _, hrun, rfl, rfl⟩ := hrun
    obtain ⟨b, hbase, hlow, hr, hopen'⟩ := sysLseek_ok hopen hrun hpos
    obtain ⟨hbase, hb⟩ := base_eq hfresh hstep.1 hbase
    have hint : toInt (b + offset) = b + offset := toInt_eq_self (by omega) (hstep.2 b hbase)
    rw [hint] at hr hopen'
    have htarget : 0 ≤ b + offset := by rw [← hr]; exact hpos
    have hspec : (IoCall.lseek offset whence a).spec x.file =
        ((((b + offset).toNat : ℤ), []), { x.file with offset := (b + offset).toNat }) := by
      simp only [IoCall.spec, hbase, Option.bind_some, ByteFile.seek, if_pos htarget]
    rw [hspec]
    have hnat := Int.toNat_of_nonneg htarget
    exact ⟨by rw [hr, hnat], _, hopen', fun _ => hnat.symm⟩

theorem tracks_step {x x' : IoPair} {call : IoCall} (h : Tracks procFt fd p v x)
    (hcall : x.step procFt fd call = some x') (hstep : x.InStep call) :
    Tracks procFt fd p v x' := by
  obtain ⟨answer, code, hrun, hpos, rfl⟩ := step_eq hcall
  obtain ⟨hanswer, hopen⟩ := h.run hstep hrun hpos
  exact ⟨by rw [h.1, hanswer], hopen⟩

/-- **Reading, writing and seeking on a regular file** answer what the abstract file answers and leave
the same bytes, in every run of calls that succeed and are in step. -/
theorem fileIo_agrees {s : FileKernel} {f : File} (hs : s.held = []) (hf : s.OpenAs procFt fd p f v)
    {calls : List IoCall} (hcalls : Meets (step procFt fd) InStep (start s f v) calls) :
    Along (step procFt fd) (Agrees v) (start s f v) calls :=
  (Lib.Run.along_of_meets (fun _ _ _ h hcall hstep => tracks_step h hcall hstep)
    (tracks_start hs hf) hcalls).mono fun _ h => h.agrees

/-- Descriptor 3 of table 1 is file 2, just opened on the empty vnode 0. -/
def emptyFile : FileKernel where
  vnRefcount := fun v => if v = 0 then 2 else 0
  files := fun p => if p = 2 then some ⟨some 0, 0, 3⟩ else none
  tables := fun q => if q = 1 then some ⟨fun fd => if fd = 3 then some 2 else none, 0⟩ else none
  master := ⟨fun fd => if fd = 3 then some 2 else none, 0⟩
  contents := fun _ => []
  console := []
  held := []
  next := 3

theorem emptyFile_open : emptyFile.OpenAs (some 1) 3 2 ⟨some 0, 0, 3⟩ 0 where
  range := by decide
  slot := rfl
  file := rfl
  vnode := rfl
  inMemory := by decide

def writeByte (b : UInt8) : IoCall := .write (some 0) [b] 1 ⟨true, 0, ⟨0, 1⟩⟩

/-- A byte is written, and read back from the start of the file. -/
theorem fileIo_agrees_readBack :
    emptyFile.held = [] ∧ Along (step (some 1) 3) (Agrees 0) (start emptyFile ⟨some 0, 0, 3⟩ 0)
      [writeByte 1, .lseek 0 0 ⟨true, 0, 0⟩, .read (some 0) 1 ⟨fun _ => 0, true, 0, ⟨0, 1⟩⟩] := by
  refine ⟨rfl, fileIo_agrees rfl emptyFile_open fun x₁ _ => ⟨fun hstale => absurd hstale (by decide),
    fun x₂ h₂ => ⟨⟨fun _ => by decide, fun b hb => ?_⟩, fun x₃ _ => ⟨fun hstale => ?_, trivial⟩⟩⟩⟩
  · obtain rfl : 0 = b := Option.some.inj hb
    decide
  · obtain ⟨_, _, _, _, rfl⟩ := step_eq h₂
    cases hstale

/-- Two writes in a row: the second one lands on the first. -/
theorem writes_land_on_each_other :
    ((exec (step (some 1) 3) (start emptyFile ⟨some 0, 0, 3⟩ 0) [writeByte 1, writeByte 2]).map
      fun x => (x.code.contents 0, x.file.bytes)) = some ([2], [1, 2]) ∧
      ¬ Along (step (some 1) 3) (Agrees 0) (start emptyFile ⟨some 0, 0, 3⟩ 0)
        [writeByte 1, writeByte 2] := by
  have hrun : ((exec (step (some 1) 3) (start emptyFile ⟨some 0, 0, 3⟩ 0)
      [writeByte 1, writeByte 2]).map fun x => (x.code.contents 0, x.file.bytes)) =
      some ([2], [1, 2]) := rfl
  refine ⟨hrun, fun h => ?_⟩
  obtain ⟨x, hx, hbytes⟩ := Option.map_eq_some_iff.mp hrun
  have := (h.last hx).2
  simp only [Prod.mk.injEq] at hbytes
  rw [hbytes.1, hbytes.2] at this
  cases this

end IoPair

end UnionCollegeCode.OS161.Files
