import UnionCollegeCode.OS161.Files.Outcomes
import UnionCollegeCode.OS161.UserProcess.Fork

/-!
# `execv.c`: failures of `sys_execv`

Until its `as_destroy` the call changes nothing but copies of its own. The only failure it reports
after that is a missing address space for the new program: `file_table_destroy` loses the table it
is to destroy, so that nothing behind it is reached.
-/

set_option autoImplicit false

namespace UnionCollegeCode.OS161.UserProcess

open Function (update)
open Lib.EState
open Files (TableAlloc EFAULT)

def ENAMETOOLONG : ℤ := 7
def E2BIG : ℤ := 14

def argMax : ℕ := 65536
def userspacetop : ℕ := 0x80000000

/-! ## Strings from user mode -/

/-- A string in memory: its characters up to the null byte, if the kernel can read them all. -/
structure CString where
  addr : ℕ
  chars : Option (List UInt8)
  fits : ∀ cs, chars = some cs → addr + cs.length < 2 ^ 32

/-- A string that cannot be read stops the kernel here. -/
def strlen (s : CString) : ImageM ℕ :=
  match s.chars with
  | none => throw .fault
  | some cs => return cs.length

/-- The error, and how many bytes may be copied. -/
def copycheck (bot len : ℕ) : ℤ × ℕ :=
  let top := (bot + len - 1) % 2 ^ 32
  if top < bot then (EFAULT, len)
  else if userspacetop ≤ bot then (EFAULT, len)
  else if userspacetop ≤ top then (0, userspacetop - bot)
  else (0, len)

/-- `copyin` of bytes that can be read. -/
def copyin (usersrc len : ℕ) : ℤ :=
  let (result, stoplen) := copycheck usersrc len
  if result ≠ 0 then result
  else if stoplen ≠ len then EFAULT
  else 0

/-- The loop finds the null byte behind `n` characters, unless it has to stop before. -/
def copystr (n maxlen stoplen : ℕ) : ℤ :=
  if n < maxlen ∧ n < stoplen then 0
  else if stoplen < maxlen then EFAULT
  else ENAMETOOLONG

/-- `copyinstr` of a string of `n` characters that can be read. -/
def copyinstr (usersrc n len : ℕ) : ℤ :=
  let (result, stoplen) := copycheck usersrc len
  if result ≠ 0 then result else copystr n len stoplen

/-- The string with its null byte is in user memory. -/
def CString.InUser (s : CString) : Prop := ∃ cs, s.chars = some cs ∧ s.addr + cs.length < userspacetop

theorem strlen_eq_ok {s : CString} {n : ℕ} {i i' : Image} :
    strlen s i = .ok n i' ↔ (∃ cs, s.chars = some cs ∧ cs.length = n) ∧ i = i' := by
  unfold strlen
  cases s.chars with
  | none => simp
  | some cs => simp

theorem copycheck_user {s : CString} {cs : List UInt8} (h : s.chars = some cs) :
    copycheck s.addr (cs.length + 1) =
      if userspacetop ≤ s.addr then (EFAULT, cs.length + 1)
      else if userspacetop ≤ s.addr + cs.length then (0, userspacetop - s.addr)
      else (0, cs.length + 1) := by
  have htop : (s.addr + (cs.length + 1) - 1) % 2 ^ 32 = s.addr + cs.length :=
    Nat.mod_eq_of_lt (s.fits cs h)
  have hwrap : ¬ s.addr + cs.length < s.addr := by omega
  simp only [copycheck, htop, hwrap, if_false]

theorem copyin_eq_zero {s : CString} {cs : List UInt8} (h : s.chars = some cs) :
    copyin s.addr (cs.length + 1) = 0 ↔ s.InUser := by
  have hefault : EFAULT ≠ 0 := by decide
  simp only [copyin, copycheck_user h, CString.InUser, h, Option.some.injEq, exists_eq_left']
  split
  · simp only [hefault, false_iff]
    omega
  · split
    · have hshort : userspacetop - s.addr ≠ cs.length + 1 := by omega
      simp only [ne_eq, not_true, if_false, hshort, not_false_eq_true, if_true, hefault, false_iff]
      omega
    · simp only [ne_eq, not_true, if_false, true_iff]
      omega

theorem copyinstr_eq_zero {s : CString} {cs : List UInt8} (h : s.chars = some cs) :
    copyinstr s.addr cs.length (cs.length + 1) = 0 ↔ s.InUser := by
  have hefault : EFAULT ≠ 0 := by decide
  simp only [copyinstr, copystr, copycheck_user h, CString.InUser, h, Option.some.injEq,
    exists_eq_left']
  split
  · simp only [hefault, false_iff]
    omega
  · split
    · have hstop : ¬ cs.length < userspacetop - s.addr := by omega
      have hshort : userspacetop - s.addr < cs.length + 1 := by omega
      simp only [ne_eq, not_true, if_false, hstop, and_false, hshort, if_true, hefault, false_iff]
      omega
    · simp only [ne_eq, not_true, if_false, Nat.lt_succ_self, and_self, if_true, true_iff]
      omega

/-! ## `sys_execv` -/

/-- How the calls that `sys_execv` makes end. -/
structure ExecAnswers where
  /-- `kmalloc` of the array of copied arguments, and of its `i`-th string. -/
  copiedArgs : Bool
  copiedArg : ℕ → Bool
  kernelPath : Bool
  asCreate : Bool
  table : TableAlloc
  vfsOpen : ℕ × Option Ptr
  /-- `load_elf` with all that it does. -/
  loadElf : ImageM ℤ
  /-- `as_stackpbase` is set. -/
  asStackpbase : Bool

/-- The arguments from the `i`-th one on are copied in. -/
def copyArgs (copiedArg : ℕ → Bool) : List CString → ℕ → ImageM ℤ
  | [], _ => return 0
  | arg :: args, i => do
    let n ← strlen arg
    if copiedArg i = false then
      return -ENOMEM
    else if copyinstr arg.addr n (n + 1) ≠ 0 then
      return copyinstr arg.addr n (n + 1)
    else
      copyArgs copiedArg args (i + 1)

/-- `NULL` is followed to the table's lock. -/
def destroyFt (ft : Option Ptr) : ImageM Unit := do
  match ft with
  | none => throw .fault
  | some q =>
    let _ ← onFiles (Files.fileTableDestroy q)

def asDefineStack (asStackpbase : Bool) : ImageM ℤ := do
  onKernel (kassert (asStackpbase = true) "as->as_stackpbase != 0")
  return 0

/-- `sys_execv` from its `load_elf` on. -/
def execLoad (proc : Ptr) (program : CString) (v : Option Ptr) (a : ExecAnswers) :
    ImageM (Option ℤ) := do
  let result ← a.loadElf
  onFiles (Files.vopDecref v)
  if result ≠ 0 then
    return some result
  else
    let result ← asDefineStack a.asStackpbase
    if result ≠ 0 then
      return some result
    else
      modify fun s => { s with pName := update s.pName proc (program.chars.getD []) }
      return none

/-- `sys_execv` from its `vfs_open` on. -/
def execOpen (proc as : Ptr) (program : CString) (a : ExecAnswers) : ImageM (Option ℤ) := do
  let (result, v) ← onFiles (Files.vfsOpen a.vfsOpen)
  if result ≠ 0 then
    let (_, p) ← onKernel (follow Kernel.procHeap (some proc))
    asDestroy p.pAddrspace
    return some result
  else
    setAddrspace proc (some as)
    execLoad proc program v a

/-- `sys_execv` from its `as_destroy` on. -/
def execReplace (t : Tid) (program : CString) (a : ExecAnswers) : ImageM (Option ℤ) := do
  let s ← get
  let (proc, p) ← onKernel (follow Kernel.procHeap (s.kernel.curproc t))
  asDestroy p.pAddrspace
  match ← asCreate a.asCreate with
  | none => return some (-ENOMEM)
  | some as =>
    destroyFt (s.procFt proc)
    setProcFt proc (← onFiles (Files.fileTableCreate a.table))
    execOpen proc as program a

/-- `sys_execv` from the copy of the path on. -/
def execPath (t : Tid) (program : CString) (a : ExecAnswers) : ImageM (Option ℤ) := do
  let n ← strlen program
  if a.kernelPath = false then
    return some (-ENOMEM)
  else if copyin program.addr (n + 1) ≠ 0 then
    return some (copyin program.addr (n + 1))
  else
    execReplace t program a

/-- The error, or `none` where the process is in user mode with its new program. An array of
arguments that cannot be read to its null pointer stops the kernel. -/
def sysExecv (t : Tid) (program : CString) (args : Option (List CString)) (a : ExecAnswers) :
    ImageM (Option ℤ) := do
  match args with
  | none => throw .fault
  | some args =>
    if args.length > argMax then
      return some (-E2BIG)
    else if a.copiedArgs = false then
      return some (-ENOMEM)
    else
      let result ← copyArgs a.copiedArg args 0
      if result ≠ 0 then
        return some result
      else
        execPath t program a

/-! ## Failures -/

/-- What a failed `sys_execv` must leave to the process. -/
structure Kept (s s' : Image) (proc : Ptr) (p : Proc) : Prop where
  addrspace : ∃ p', s'.kernel.procHeap proc = some p' ∧ p'.pAddrspace = p.pAddrspace
  memory : p.pAddrspace.bind s'.addrspaces = p.pAddrspace.bind s.addrspaces
  procFt : s'.procFt proc = s.procFt proc
  descriptors : s'.files.descriptor (s'.procFt proc) = s.files.descriptor (s.procFt proc)
  name : s'.pName proc = s.pName proc

/-- Whatever error is returned, everything is kept. -/
def Atomic (t : Tid) (program : CString) (args : Option (List CString)) (a : ExecAnswers) (s : Image)
    (proc : Ptr) (p : Proc) : Prop :=
  ∀ e s', sysExecv t program args a s = .ok (some e) s' → Kept s s' proc p

/-- All that is to be copied is in user memory, and the kernel has memory for it. -/
structure CopiesAll (program : CString) (args : Option (List CString)) (a : ExecAnswers) : Prop where
  args : ∃ l, args = some l ∧ l.length ≤ argMax ∧ ∀ i, (h : i < l.length) →
    a.copiedArg i = true ∧ l[i].InUser
  array : a.copiedArgs = true
  path : a.kernelPath = true ∧ program.InUser

section Runs

variable {t : Tid} {s s' : Image} {proc : Ptr} {p : Proc} {program : CString} {a : ExecAnswers}

theorem copyArgs_ok {copiedArg : ℕ → Bool} {args : List CString} {i : ℕ} {r : ℤ}
    (h : copyArgs copiedArg args i s = .ok r s') :
    s = s' ∧ (r = 0 → ∀ j, (hj : j < args.length) → copiedArg (i + j) = true ∧ args[j].InUser) := by
  induction args generalizing i with
  | nil =>
    obtain ⟨-, rfl⟩ := pure_eq_ok.mp h
    exact ⟨rfl, fun _ j hj => absurd hj (Nat.not_lt_zero j)⟩
  | cons arg args ih =>
    simp only [copyArgs, bind_eq_ok, strlen_eq_ok] at h
    obtain ⟨n, _, ⟨⟨cs, hcs, rfl⟩, rfl⟩, h⟩ := h
    split at h
    case isTrue =>
      obtain ⟨rfl, rfl⟩ := pure_eq_ok.mp h
      exact ⟨rfl, fun habs => absurd habs (by decide)⟩
    case isFalse hmem =>
      split at h
      case isTrue hcopy =>
        obtain ⟨rfl, rfl⟩ := pure_eq_ok.mp h
        exact ⟨rfl, fun habs => absurd habs hcopy⟩
      case isFalse hcopy =>
        obtain ⟨hs, hrest⟩ := ih h
        refine ⟨hs, fun hr j hj => ?_⟩
        cases j with
        | zero =>
          exact ⟨by simpa using hmem, (copyinstr_eq_zero hcs).mp (Classical.not_not.mp hcopy)⟩
        | succ j =>
          have := hrest hr j (Nat.lt_of_succ_lt_succ hj)
          rw [Nat.add_assoc, Nat.add_comm 1 j] at this
          exact this

theorem copyArgs_zero {copiedArg : ℕ → Bool} {args : List CString} {i : ℕ}
    (h : ∀ j, (hj : j < args.length) → copiedArg (i + j) = true ∧ args[j].InUser) :
    copyArgs copiedArg args i s = .ok 0 s := by
  induction args generalizing i with
  | nil => rfl
  | cons arg args ih =>
    obtain ⟨hmem, huser⟩ := h 0 (Nat.zero_lt_succ _)
    obtain ⟨cs, hcs, -⟩ := id huser
    have hcopy := (copyinstr_eq_zero hcs).mpr huser
    have hrest : copyArgs copiedArg args (i + 1) s = .ok 0 s := ih fun j hj => by
      rw [Nat.add_assoc, Nat.add_comm 1 j]
      exact h (j + 1) (Nat.succ_lt_succ hj)
    have hmem : copiedArg i = true := hmem
    simp only [copyArgs, bind_eq_ok, strlen_eq_ok]
    refine ⟨cs.length, s, ⟨⟨cs, hcs, rfl⟩, rfl⟩, ?_⟩
    rw [if_neg (by simp [hmem]), if_neg (by simpa using hcopy)]
    exact hrest

theorem destroyFt_stops {ft : Option Ptr} {u : Unit} : ¬ destroyFt ft s = .ok u s' := by
  intro h
  cases ft with
  | none => exact throw_eq_ok h
  | some q =>
    simp only [destroyFt, bind_eq_ok, onFiles_eq_ok] at h
    obtain ⟨_, _, ⟨f, h, -⟩, -⟩ := h
    exact Files.fileTableDestroy_stops h

/-- Once the old address space is destroyed, an error can only be a missing new one. -/
theorem execReplace_error {e : ℤ} (hcur : s.kernel.curproc t = some proc)
    (hproc : s.kernel.procHeap proc = some p) (h : execReplace t program a s = .ok (some e) s') :
    a.asCreate = false ∧ ∃ u, asDestroy p.pAddrspace s = .ok u s' := by
  simp only [execReplace, bind_eq_ok, get_eq_ok, onKernel_eq_ok, follow_eq_ok] at h
  obtain ⟨_, _, ⟨rfl, rfl⟩, ⟨q, P⟩, _, ⟨_, ⟨⟨hq, hP⟩, rfl⟩, rfl⟩, u, s₁, hdestroy, new, s₂, hcreate,
    h⟩ := h
  obtain rfl : proc = q := Option.some.inj (hcur.symm.trans hq)
  obtain rfl : p = P := Option.some.inj (hproc.symm.trans hP)
  cases hok : a.asCreate with
  | true =>
    simp only [asCreate, hok, if_true, bind_eq_ok, get_eq_ok, set_eq_ok, pure_eq_ok] at hcreate
    obtain ⟨_, _, ⟨rfl, rfl⟩, _, _, rfl, rfl, rfl⟩ := hcreate
    simp only [bind_eq_ok] at h
    obtain ⟨_, _, hft, -⟩ := h
    exact absurd hft destroyFt_stops
  | false =>
    simp only [asCreate, hok, Bool.false_eq_true, if_false, pure_eq_ok] at hcreate
    obtain ⟨rfl, rfl⟩ := hcreate
    obtain ⟨-, rfl⟩ := pure_eq_ok.mp h
    exact ⟨rfl, u, hdestroy⟩

theorem execReplace_noAs (hcur : s.kernel.curproc t = some proc)
    (hproc : s.kernel.procHeap proc = some p) (hcreate : a.asCreate = false) {u : Unit}
    (hdestroy : asDestroy p.pAddrspace s = .ok u s') :
    execReplace t program a s = .ok (some (-ENOMEM)) s' := by
  simp only [execReplace, asCreate, hcreate, Bool.false_eq_true, if_false, bind_eq_ok, get_eq_ok,
    onKernel_eq_ok, follow_eq_ok, pure_eq_ok]
  refine ⟨s, s, ⟨rfl, rfl⟩, (proc, p), s, ⟨s.kernel, ⟨⟨hcur, hproc⟩, rfl⟩, rfl⟩, u, s', hdestroy,
    none, s', ⟨rfl, rfl⟩, ?_⟩
  rfl

/-- An error leaves everything alone, or comes from the missing new address space. -/
theorem sysExecv_error {args : Option (List CString)} {e : ℤ} (hcur : s.kernel.curproc t = some proc)
    (hproc : s.kernel.procHeap proc = some p) (h : sysExecv t program args a s = .ok (some e) s') :
    s = s' ∨ CopiesAll program args a ∧ a.asCreate = false ∧
      ∃ u, asDestroy p.pAddrspace s = .ok u s' := by
  cases args with
  | none => exact absurd h throw_eq_ok
  | some args =>
    simp only [sysExecv] at h
    split at h
    case isTrue => exact Or.inl (pure_eq_ok.mp h).2
    case isFalse hargc =>
    split at h
    case isTrue => exact Or.inl (pure_eq_ok.mp h).2
    case isFalse harray =>
    simp only [bind_eq_ok] at h
    obtain ⟨result, _, hargs, h⟩ := h
    obtain ⟨rfl, hcopied⟩ := copyArgs_ok hargs
    split at h
    case isTrue => exact Or.inl (pure_eq_ok.mp h).2
    case isFalse hresult =>
    simp only [execPath, bind_eq_ok, strlen_eq_ok] at h
    obtain ⟨n, _, ⟨⟨cs, hcs, rfl⟩, rfl⟩, h⟩ := h
    split at h
    case isTrue => exact Or.inl (pure_eq_ok.mp h).2
    case isFalse hpath =>
    split at h
    case isTrue => exact Or.inl (pure_eq_ok.mp h).2
    case isFalse hcopyin =>
    right
    refine ⟨⟨⟨args, rfl, Nat.not_lt.mp hargc, fun j hj => ?_⟩, by simpa using harray,
      by simpa using hpath, (copyin_eq_zero hcs).mp (Classical.not_not.mp hcopyin)⟩,
      execReplace_error hcur hproc h⟩
    have := hcopied (Classical.not_not.mp hresult) j hj
    rw [Nat.zero_add] at this
    exact this

theorem sysExecv_noAs {args : Option (List CString)} (hcopies : CopiesAll program args a)
    (hcur : s.kernel.curproc t = some proc) (hproc : s.kernel.procHeap proc = some p)
    (hcreate : a.asCreate = false) {u : Unit} (hdestroy : asDestroy p.pAddrspace s = .ok u s') :
    sysExecv t program args a s = .ok (some (-ENOMEM)) s' := by
  obtain ⟨⟨l, rfl, hlength, hargs⟩, harray, hpath, huser⟩ := hcopies
  obtain ⟨cs, hcs, -⟩ := id huser
  have hcopied : copyArgs a.copiedArg l 0 s = .ok 0 s := copyArgs_zero fun j hj => by
    rw [Nat.zero_add]
    exact hargs j hj
  have hcopyin := (copyin_eq_zero hcs).mpr huser
  have hrest : execPath t program a s = .ok (some (-ENOMEM)) s' := by
    simp only [execPath, bind_eq_ok, strlen_eq_ok]
    refine ⟨cs.length, s, ⟨⟨cs, hcs, rfl⟩, rfl⟩, ?_⟩
    rw [if_neg (by simp [hpath]), if_neg (by simpa using hcopyin)]
    exact execReplace_noAs hcur hproc hcreate hdestroy
  unfold sysExecv
  show (if l.length > argMax then _ else _ : ImageM (Option ℤ)) s = _
  rw [if_neg (Nat.not_lt.mpr hlength), if_neg (by simp [harray])]
  exact bind_eq_ok.mpr ⟨0, s, hcopied, hrest⟩

end Runs

/-- **When a failed `sys_execv` is atomic**: always, unless the old address space is destroyed and
there is no memory for a new one. -/
theorem atomic_iff {t : Tid} {program : CString} {args : Option (List CString)} {a : ExecAnswers}
    {s : Image} {proc : Ptr} {p : Proc} (hcur : s.kernel.curproc t = some proc)
    (hproc : s.kernel.procHeap proc = some p) :
    Atomic t program args a s proc p ↔
      ¬ (CopiesAll program args a ∧ a.asCreate = false ∧
        ∃ as, p.pAddrspace = some as ∧ s.addrspaces as ≠ none) := by
  constructor
  · intro h ⟨hcopies, hcreate, as, has, hlive⟩
    have hdestroy : asDestroy p.pAddrspace s = .ok () (s.setAs as none) := by
      rw [has]
      exact asDestroy_some.mpr ⟨hlive, rfl⟩
    have hkept := (h _ _ (sysExecv_noAs hcopies hcur hproc hcreate hdestroy)).memory
    rw [has] at hkept
    simp only [Option.bind_some, Image.addrspaces_setAs] at hkept
    exact hlive hkept.symm
  · intro h e s' hrun
    have hsame : s = s' := by
      rcases sysExecv_error hcur hproc hrun with hsame | ⟨hcopies, hcreate, u, hdestroy⟩
      · exact hsame
      · cases has : p.pAddrspace with
        | none =>
          rw [has] at hdestroy
          exact (pure_eq_ok.mp hdestroy).2
        | some as =>
          rw [has] at hdestroy
          exact absurd ⟨hcopies, hcreate, as, has, (asDestroy_some.mp hdestroy).1⟩ h
    subst hsame
    exact ⟨⟨p, hproc, rfl⟩, rfl, rfl, rfl, rfl⟩

/-- A program's name on the stack of the process. -/
def programName : CString := ⟨0x7ffffff0, some [47, 98, 105, 110], fun _ h => by cases h; decide⟩

/-- Only the new address space is not to be had. -/
def noAddrspace : ExecAnswers :=
  ⟨true, fun _ => true, true, false, .ok, (0, some 0), pure 0, true⟩

theorem noAddrspace_copiesAll : CopiesAll programName (some []) noAddrspace :=
  ⟨⟨[], rfl, by decide, fun _ h => absurd h (Nat.not_lt_zero _)⟩, rfl, rfl, _, rfl, by decide⟩

theorem atomic_iff_userImage :
    userImage.kernel.curproc 1 = some 4 ∧ userImage.kernel.procHeap 4 = some userProc ∧
      (Atomic 1 programName (some []) noAddrspace userImage 4 userProc ↔
        ¬ (CopiesAll programName (some []) noAddrspace ∧ noAddrspace.asCreate = false ∧
          ∃ as, userProc.pAddrspace = some as ∧ userImage.addrspaces as ≠ none)) :=
  ⟨rfl, rfl, atomic_iff rfl rfl⟩

/-- The call returns `-ENOMEM` to a process that has lost its memory. -/
theorem noAddrspace_loses_memory :
    sysExecv 1 programName (some []) noAddrspace userImage =
        .ok (some (-ENOMEM)) (userImage.setAs 0 none) ∧
      ¬ Atomic 1 programName (some []) noAddrspace userImage 4 userProc := by
  have hrun : sysExecv 1 programName (some []) noAddrspace userImage =
      .ok (some (-ENOMEM)) (userImage.setAs 0 none) := by
    have hdestroy : asDestroy userProc.pAddrspace userImage = .ok () (userImage.setAs 0 none) :=
      asDestroy_some.mpr ⟨by decide, rfl⟩
    exact sysExecv_noAs noAddrspace_copiesAll rfl rfl rfl hdestroy
  refine ⟨hrun, fun h => ?_⟩
  have hmemory := (h _ _ hrun).memory
  exact absurd hmemory (by decide)

end UnionCollegeCode.OS161.UserProcess
