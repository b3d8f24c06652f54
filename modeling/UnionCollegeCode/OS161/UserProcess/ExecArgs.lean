import UnionCollegeCode.OS161.UserProcess.Exec

/-!
# `execv.c`: the arguments of the new program

The strings of the caller are copied to the kernel and stay there. What `enter_new_process` gets for
`argv` is the stack pointer, the first address above user memory: there is nothing in the new address
space that it could point to, whatever `sys_execv` does before. It does not get that far, since
`file_table_destroy` does not return; `destroy` stands for any other function in its place.
-/

set_option autoImplicit false

namespace UnionCollegeCode.OS161.UserProcess

open Lib.EState
open Syscall (Trapframe)

/-! ## Entering the program -/

/-- `CST_IRQMASK | CST_IEp | CST_KUp`. -/
def userStatus : UInt32 := 0xff0c

/-- The trapframe that `enter_new_process` goes to user mode with. -/
def enterNewProcess (argc : ℤ) (argv env stack entry : UInt32) : Trapframe :=
  { Syscall.frame 0 0 0 0 0 with
    tfStatus := userStatus
    tfEpc := entry
    tfA0 := Syscall.word argc
    tfA1 := argv
    tfA2 := env
    tfSp := stack }

/-- What `as_define_stack` sets the stack pointer to. -/
def stackptr : UInt32 := UInt32.ofNat userstack

section

variable (destroy : Option Ptr → ImageM Unit) (t : Tid) (program : CString)

/-- `execReplace` with `destroy` for `file_table_destroy`. -/
def execReplaceWith (a : ExecAnswers) : ImageM (Option ℤ) := do
  let s ← get
  let (proc, p) ← onKernel (follow Kernel.procHeap (s.kernel.curproc t))
  asDestroy p.pAddrspace
  match ← asCreate a.asCreate with
  | none => return some (-ENOMEM)
  | some as =>
    destroy (s.procFt proc)
    setProcFt proc (← onFiles (Files.fileTableCreate a.table))
    execOpen proc as program a

def execPathWith (a : ExecAnswers) : ImageM (Option ℤ) := do
  let n ← strlen program
  if a.kernelPath = false then
    return some (-ENOMEM)
  else if copyin program.addr (n + 1) ≠ 0 then
    return some (copyin program.addr (n + 1))
  else
    execReplaceWith destroy t program a

def sysExecvWith (args : Option (List CString)) (a : ExecAnswers) : ImageM (Option ℤ) := do
  match args with
  | none => throw .fault
  | some args =>
    if args.length > argMax then
      return some (-E2BIG)
    else if a.copiedArgs = false then
      return some (-ENOMEM)
    else
      let result ← copyArgs a.copiedArg args 0
      if result ≠ 0 then
        return some result
      else
        execPathWith destroy t program a

/-- The error, or the trapframe of the new program; `entrypoint` is what `load_elf` found. -/
def execvFrame (args : List CString) (entrypoint : UInt32) (a : ExecAnswers) :
    ImageM (Except ℤ Trapframe) := do
  match ← sysExecvWith destroy t program (some args) a with
  | some e => return .error e
  | none => return .ok (enterNewProcess args.length stackptr 0 stackptr entrypoint)

end

/-! ## What a program finds -/

/-- The byte that user code reads at an address. -/
def Addrspace.byteAt (as : Addrspace) (addr : ℕ) : Option UInt8 :=
  let stackbase := userstack - dumbvmStackpages * pageSize
  if userspacetop ≤ addr then none
  else if as.asVbase1 ≤ addr ∧ addr < as.asVbase1 + as.asNpages1 * pageSize then
    some (as.region1.getD (addr - as.asVbase1) 0)
  else if as.asVbase2 ≤ addr ∧ addr < as.asVbase2 + as.asNpages2 * pageSize then
    some (as.region2.getD (addr - as.asVbase2) 0)
  else if stackbase ≤ addr ∧ addr < userstack then
    some (as.stack.getD (addr - stackbase) 0)
  else
    none

/-- These bytes stand from an address on. -/
def Addrspace.Holds (as : Addrspace) (addr : ℕ) (bytes : List UInt8) : Prop :=
  ∀ i, (h : i < bytes.length) → as.byteAt (addr + i) = some bytes[i]

/-- An array of pointers to null-terminated strings, and `NULL` behind them, in the stack. -/
structure Addrspace.HoldsArgv (as : Addrspace) (argv : ℕ) (args : List (List UInt8)) : Prop where
  inStack : userstack - dumbvmStackpages * pageSize ≤ argv ∧ argv < userstack
  strings : ∀ i, (h : i < args.length) → ∃ p : ℕ, as.Holds (argv + 4 * i) (intBytes p) ∧
    as.Holds p (args[i] ++ [0])
  null : as.Holds (argv + 4 * args.length) (intBytes 0)

/-- The call enters the program, which finds its arguments. -/
def PassesArguments (destroy : Option Ptr → ImageM Unit) (t : Tid) (program : CString)
    (args : List CString) (entrypoint : UInt32) (a : ExecAnswers) (s : Image) : Prop :=
  ∃ tf s' proc p addr as, execvFrame destroy t program args entrypoint a s = .ok (.ok tf) s' ∧
    s'.kernel.curproc t = some proc ∧ s'.kernel.procHeap proc = some p ∧
    p.pAddrspace = some addr ∧ s'.addrspaces addr = some as ∧
    tf.tfA0 = Syscall.word args.length ∧
    as.HoldsArgv tf.tfA1.toNat (args.map fun arg => arg.chars.getD [])

variable {destroy : Option Ptr → ImageM Unit} {t : Tid} {program : CString} {args : List CString}
  {entrypoint : UInt32} {a : ExecAnswers} {s s' : Image}

/-- `sys_execv` itself. -/
theorem sysExecvWith_destroyFt {args : Option (List CString)} :
    sysExecvWith destroyFt t program args a = sysExecv t program args a := rfl

theorem execReplace_ne_none : ¬ execReplace t program a s = .ok none s' := by
  intro h
  simp only [execReplace, bind_eq_ok] at h
  obtain ⟨_, _, -, _, _, -, _, _, -, new, _, -, h⟩ := h
  cases new with
  | none => exact absurd (pure_eq_ok.mp h).1 (by simp)
  | some as =>
    simp only [bind_eq_ok] at h
    obtain ⟨_, _, hft, -⟩ := h
    exact destroyFt_stops hft

/-- No program is ever entered. -/
theorem sysExecv_ne_none {args : Option (List CString)} :
    ¬ sysExecv t program args a s = .ok none s' := by
  intro h
  cases args with
  | none => exact throw_eq_ok h
  | some args =>
    simp only [sysExecv] at h
    split at h
    · exact absurd (pure_eq_ok.mp h).1 (by simp)
    · split at h
      · exact absurd (pure_eq_ok.mp h).1 (by simp)
      · simp only [bind_eq_ok] at h
        obtain ⟨result, s₁, -, h⟩ := h
        split at h
        · exact absurd (pure_eq_ok.mp h).1 (by simp)
        · simp only [execPath, bind_eq_ok] at h
          obtain ⟨n, s₂, -, h⟩ := h
          split at h
          · exact absurd (pure_eq_ok.mp h).1 (by simp)
          · split at h
            · exact absurd (pure_eq_ok.mp h).1 (by simp)
            · exact execReplace_ne_none h

/-- Where a program is entered, its registers are known. -/
theorem execvFrame_ok {tf : Trapframe}
    (h : execvFrame destroy t program args entrypoint a s = .ok (.ok tf) s') :
    tf = enterNewProcess args.length stackptr 0 stackptr entrypoint := by
  simp only [execvFrame, bind_eq_ok] at h
  obtain ⟨result, s₁, -, h⟩ := h
  cases result with
  | some e =>
    obtain ⟨habs, -⟩ := pure_eq_ok.mp h
    cases habs
  | none => exact (Except.ok.inj (pure_eq_ok.mp h).1).symm

/-- The stack pointer is above all that the new address space has. -/
theorem not_holdsArgv_stackptr {as : Addrspace} {l : List (List UInt8)} :
    ¬ as.HoldsArgv stackptr.toNat l := by
  intro hargv
  have hstack : userstack < userstack := hargv.inStack.2
  exact Nat.lt_irrefl _ hstack

/-- No call passes its arguments, whatever is done about the file table. -/
theorem execv_passes_no_arguments : ¬ PassesArguments destroy t program args entrypoint a s := by
  rintro ⟨tf, s', proc, p, addr, as, hrun, -, -, -, -, -, hargv⟩
  obtain rfl := execvFrame_ok hrun
  exact not_holdsArgv_stackptr hargv

/-- Everything succeeds. -/
def execSucceeds : ExecAnswers :=
  ⟨true, fun _ => true, true, true, .ok, (0, some 0), pure 0, true⟩

/-- With a `file_table_destroy` that returned, the program would be entered with one argument, to be
found in the kernel. -/
theorem argv_in_kernel :
    (match execvFrame (fun _ => pure ()) 1 programName [programName] 0x400000 execSucceeds userImage with
      | .ok (.ok tf) _ => some (tf.tfA0, tf.tfA1)
      | _ => none) = some (1, 0x80000000) ∧
    ¬ PassesArguments destroyFt 1 programName [programName] 0x400000 execSucceeds userImage := by
  refine ⟨rfl, ?_⟩
  rintro ⟨tf, s', proc, p, addr, as, hrun, -, -, -, -, -, hargv⟩
  obtain rfl := execvFrame_ok hrun
  exact not_holdsArgv_stackptr hargv

end UnionCollegeCode.OS161.UserProcess
