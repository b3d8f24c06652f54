import UnionCollegeCode.Lib.ArgSlots
import UnionCollegeCode.OS161.Files.Syscalls

/-!
# `arch/mips/syscall/syscall.c`: the dispatcher and its calling convention

The dispatcher picks a handler by the number in `v0`, passes it what it takes for its arguments and
turns the handler's answer into `v0` and `a3`. What a handler does is the caller's argument.

The comment above `syscall` documents a convention: one-word arguments in order from `a0` on, a
two-word argument in an aligned pair of registers, what is left on the stack from `sp+16` on; results
in `v0`, or in `v0` and `v1`.
-/

set_option autoImplicit false

namespace UnionCollegeCode.OS161.Syscall

open Lib (Arg ArgWidth fetchFrom fetchFrom_words)
open Files (toInt)

/-! ## The dispatcher -/

structure Trapframe where
  tfVaddr : UInt32
  tfStatus : UInt32
  tfCause : UInt32
  tfLo : UInt32
  tfHi : UInt32
  tfRa : UInt32
  tfAt : UInt32
  tfV0 : UInt32
  tfV1 : UInt32
  tfA0 : UInt32
  tfA1 : UInt32
  tfA2 : UInt32
  tfA3 : UInt32
  tfT0 : UInt32
  tfT1 : UInt32
  tfT2 : UInt32
  tfT3 : UInt32
  tfT4 : UInt32
  tfT5 : UInt32
  tfT6 : UInt32
  tfT7 : UInt32
  tfS0 : UInt32
  tfS1 : UInt32
  tfS2 : UInt32
  tfS3 : UInt32
  tfS4 : UInt32
  tfS5 : UInt32
  tfS6 : UInt32
  tfS7 : UInt32
  tfT8 : UInt32
  tfT9 : UInt32
  tfGp : UInt32
  tfSp : UInt32
  tfS8 : UInt32
  tfEpc : UInt32
  deriving DecidableEq, Repr

/-- The word that holds an `int`. -/
def word (x : ℤ) : UInt32 := UInt32.ofInt x

def ENOSYS : ℤ := 1

/-- A handler with what the dispatcher passes it. -/
inductive Call
  | reboot (code : UInt32)
  | time (userSeconds userNanoseconds : UInt32)
  | exit (exitcode : UInt32)
  | fork (parentTf : Trapframe) (retval : UInt32)
  | lseek (fd : UInt32) (offset : UInt64) (whence : UInt32)
  | write (fd buf buflen : UInt32)
  | getcwd (buf buflen : UInt32)
  | open (filename flags : UInt32)
  | read (fd buf buflen : UInt32)
  | getpid
  | close (fd : UInt32)
  | dup2 (oldfd newfd : UInt32)

/-- What a handler returns, and what it stores through its `retval` pointer, where it has one. -/
structure Answer where
  ret : ℤ
  stored : ℤ
  deriving DecidableEq, Repr

/-- The switch, up to the call in each case. `(off_t)` fills up with zeros: a register is unsigned. -/
def marshal (tf : Trapframe) : Option Call :=
  match tf.tfV0.toNat with
  | 119 => some (.reboot tf.tfA0)
  | 113 => some (.time tf.tfA0 tf.tfA1)
  | 3 => some (.exit tf.tfA0)
  | 0 => some (.fork tf tf.tfA0)
  | 59 => some (.lseek tf.tfA0 tf.tfA1.toUInt64 tf.tfA2)
  | 55 => some (.write tf.tfA0 tf.tfA1 tf.tfA2)
  | 76 => some (.getcwd tf.tfA0 tf.tfA1)
  | 45 => some (.open tf.tfA0 tf.tfA1)
  | 50 => some (.read tf.tfA0 tf.tfA1 tf.tfA2)
  | 5 => some .getpid
  | 49 => some (.close tf.tfA0)
  | 48 => some (.dup2 tf.tfA0 tf.tfA1)
  | _ => none

/-- The switch, from the call on: `retval` and `err`. -/
def settle (a : Answer) : Call → ℤ × ℤ
  | .reboot _ | .time _ _ | .exit _ | .fork _ _ => (0, a.ret)
  | .lseek _ _ _ => (toInt a.ret, if toInt a.ret < 0 then -toInt a.ret else 0)
  | .getcwd _ _ => (a.ret, if a.ret < 0 then -a.ret else 0)
  | .getpid => (a.ret, 0)
  | .write _ _ _ | .open _ _ | .read _ _ _ | .close _ | .dup2 _ _ =>
    if a.ret < 0 then (-1, -a.ret) else (a.ret, 0)

/-- What follows the switch. -/
def leave (tf : Trapframe) (r : ℤ × ℤ) : Trapframe :=
  let tf := if r.2 ≠ 0 then { tf with tfV0 := word r.2, tfA3 := 1 }
    else { tf with tfV0 := word r.1, tfA3 := 0 }
  { tf with tfEpc := tf.tfEpc + 4 }

/-- The frame `syscall` leaves when the handler answers `a`. An unknown number is answered without
one. -/
def answered (tf : Trapframe) (a : Answer) : Trapframe :=
  match marshal tf with
  | none => leave tf (0, ENOSYS)
  | some call => leave tf (settle a call)

def syscall {σ : Type} (handle : Call → EStateM Stop σ Answer) (tf : Trapframe) :
    EStateM Stop σ Trapframe := do
  match marshal tf with
  | none => return answered tf ⟨0, 0⟩
  | some call => return answered tf (← handle call)

/-! ## The convention -/

/-- How a handler's answer is meant. `sys_fork` returns its errors with either sign. -/
inductive Outcome
  | fails (errno : ℤ)
  | word (result : ℤ)
  | double (result : ℤ)
  deriving DecidableEq, Repr

namespace Call

/-- The arguments that the user program is to supply. -/
def widths : Call → List ArgWidth
  | .fork _ _ | .getpid => List.replicate 0 .word
  | .reboot _ | .exit _ | .close _ => List.replicate 1 .word
  | .time _ _ | .getcwd _ _ | .open _ _ | .dup2 _ _ => List.replicate 2 .word
  | .write _ _ _ | .read _ _ _ => List.replicate 3 .word
  | .lseek _ _ _ => [.word, .double, .word]

/-- The arguments that the handler gets for them. -/
def args : Call → List (Arg UInt32)
  | .fork _ _ | .getpid => []
  | .reboot code => [.word code]
  | .exit exitcode => [.word exitcode]
  | .close fd => [.word fd]
  | .time secs nsecs => [.word secs, .word nsecs]
  | .getcwd buf buflen => [.word buf, .word buflen]
  | .open filename flags => [.word filename, .word flags]
  | .dup2 oldfd newfd => [.word oldfd, .word newfd]
  | .write fd buf buflen => [.word fd, .word buf, .word buflen]
  | .read fd buf buflen => [.word fd, .word buf, .word buflen]
  | .lseek fd offset whence =>
    [.word fd, .double (offset >>> 32).toUInt32 offset.toUInt32, .word whence]

def outcome (a : Answer) : Call → Outcome
  | .reboot _ | .time _ _ | .exit _ => if a.ret = 0 then .word 0 else .fails a.ret
  | .fork _ _ => if a.ret = 0 then .word a.stored else .fails a.ret.natAbs
  | .lseek _ _ _ => if a.ret < 0 then .fails (-a.ret) else .double a.ret
  | .getpid => .word a.ret
  | .getcwd _ _ | .write _ _ _ | .open _ _ | .read _ _ _ | .close _ | .dup2 _ _ =>
    if a.ret < 0 then .fails (-a.ret) else .word a.ret

end Call

/-- The argument slots: four registers, then the user's stack. -/
def slots (tf : Trapframe) (stack : UInt32 → UInt32) : ℕ → UInt32
  | 0 => tf.tfA0
  | 1 => tf.tfA1
  | 2 => tf.tfA2
  | 3 => tf.tfA3
  | i => stack (tf.tfSp + 4 * UInt32.ofNat i)

/-- What the user program is to see of an outcome. -/
def Sees (tf : Trapframe) : Outcome → Prop
  | .fails errno => tf.tfV0 = word errno ∧ tf.tfA3 = 1
  | .word result => tf.tfV0 = word result ∧ tf.tfA3 = 0
  | .double result => tf.tfV0 = word (result / 2 ^ 32) ∧ tf.tfV1 = word result ∧ tf.tfA3 = 0

/-- The call as documented: arguments, result and program counter. -/
def Conforms (tf : Trapframe) (stack : UInt32 → UInt32) (a : Answer) : Prop :=
  (answered tf a).tfEpc = tf.tfEpc + 4 ∧
    match marshal tf with
    | none => Sees (answered tf a) (.fails ENOSYS)
    | some call => call.args = fetchFrom (slots tf stack) 0 call.widths ∧
        Sees (answered tf a) (call.outcome a)

/-- The calls that the dispatcher gets right. All but two are always right.

* `fork` passes `a0` for `retval` and leaves `v0` at 0, so it is right only about errors that
  `sys_fork` returns with a positive sign;
* `lseek` takes the offset from `a1` and `whence` from `a2`, and puts one word of the result in `v0`. -/
def Right (tf : Trapframe) (stack : UInt32 → UInt32) (a : Answer) : Call → Prop
  | .fork _ _ => (a.ret = 0 → word a.stored = 0) ∧
      (a.ret ≠ 0 → word a.ret = word a.ret.natAbs)
  | .lseek _ _ _ => (tf.tfA2 = 0 ∧ tf.tfA1 = tf.tfA3 ∧ stack (tf.tfSp + 16) = 0) ∧
      (a.ret < 0 → toInt a.ret < 0) ∧
      (0 ≤ a.ret → 0 ≤ toInt a.ret ∧ word (a.ret / 2 ^ 32) = word a.ret ∧ tf.tfV1 = word a.ret)
  | _ => True

theorem leave_epc (tf : Trapframe) (r : ℤ × ℤ) : (leave tf r).tfEpc = tf.tfEpc + 4 := by
  unfold leave
  split <;> rfl

theorem leave_fails {tf : Trapframe} {r e : ℤ} (he : e ≠ 0) : Sees (leave tf (r, e)) (.fails e) := by
  simp [leave, he, Sees]

theorem leave_word {tf : Trapframe} {r : ℤ} : Sees (leave tf (r, 0)) (.word r) := by
  simp [leave, Sees]

/-- A handler that returns its error code, or a negated error code for one of its results. -/
theorem sees_errno {tf : Trapframe} {ret : ℤ} :
    Sees (leave tf (0, ret)) (if ret = 0 then .word 0 else .fails ret) := by
  by_cases h : ret = 0
  · rw [if_pos h, h]
    exact leave_word
  · rw [if_neg h]
    exact leave_fails h

theorem sees_negated {tf : Trapframe} {ret r : ℤ} :
    Sees (leave tf (if ret < 0 then (r, -ret) else (ret, 0)))
      (if ret < 0 then .fails (-ret) else .word ret) := by
  by_cases h : ret < 0
  · rw [if_pos h, if_pos h]
    exact leave_fails (by omega)
  · rw [if_neg h, if_neg h]
    exact leave_word

/-- `sys_getcwd`'s `retval` is left negative beside the error. -/
theorem sees_getcwd {tf : Trapframe} {ret : ℤ} :
    Sees (leave tf (ret, if ret < 0 then -ret else 0))
      (if ret < 0 then .fails (-ret) else .word ret) := by
  by_cases h : ret < 0
  · rw [if_pos h, if_pos h]
    exact leave_fails (by omega)
  · rw [if_neg h, if_neg h]
    exact leave_word

theorem sees_fork {tf : Trapframe} {a : Answer} :
    Sees (leave tf (0, a.ret)) (if a.ret = 0 then .word a.stored else .fails a.ret.natAbs) ↔
      (a.ret = 0 → word a.stored = 0) ∧ (a.ret ≠ 0 → word a.ret = word a.ret.natAbs) := by
  by_cases h : a.ret = 0
  · simp only [h, leave, Sees, if_true, ne_eq, not_true, if_false, false_implies, and_true,
      true_implies]
    exact eq_comm
  · simp [h, leave, Sees]

theorem word_congr {x y : ℤ} (h : x % 2 ^ 32 = y % 2 ^ 32) : word x = word y := by
  show UInt32.ofNat (x % 2 ^ 32).toNat = UInt32.ofNat (y % 2 ^ 32).toNat
  rw [h]

theorem word_toInt (x : ℤ) : word (toInt x) = word x := by
  apply word_congr
  exact Int.bmod_emod

theorem word_neg_toInt (x : ℤ) : word (-toInt x) = word (-x) := by
  apply word_congr
  simp only [toInt, Int.bmod]
  split <;> omega

/-- A result of two words goes through one. -/
theorem sees_lseek {tf : Trapframe} {a : Answer} :
    Sees (leave tf (toInt a.ret, if toInt a.ret < 0 then -toInt a.ret else 0))
        (if a.ret < 0 then .fails (-a.ret) else .double a.ret) ↔
      (a.ret < 0 → toInt a.ret < 0) ∧
      (0 ≤ a.ret → 0 ≤ toInt a.ret ∧ word (a.ret / 2 ^ 32) = word a.ret ∧ tf.tfV1 = word a.ret) := by
  have hfails : toInt a.ret < 0 → -toInt a.ret ≠ 0 := fun h => by omega
  by_cases h : a.ret < 0 <;> by_cases hr : toInt a.ret < 0
  · have h0 : ¬ 0 ≤ a.ret := Int.not_le.mpr h
    simp [leave, Sees, h, hr, h0, hfails hr, word_neg_toInt]
  · simp [leave, Sees, h, hr]
  · have h0 : 0 ≤ a.ret := Int.not_lt.mp h
    have hr0 : ¬ 0 ≤ toInt a.ret := Int.not_le.mpr hr
    simp [leave, Sees, h, hr, h0, hr0, hfails hr]
  · have h0 : 0 ≤ a.ret := Int.not_lt.mp h
    have hr0 : 0 ≤ toInt a.ret := Int.not_lt.mp hr
    simp [leave, Sees, h, hr, h0, hr0, word_toInt]
    exact fun _ => eq_comm

/-- `(off_t)` of a register fills up with zeros. -/
theorem args_lseek (tf : Trapframe) (stack : UInt32 → UInt32) :
    (Call.lseek tf.tfA0 tf.tfA1.toUInt64 tf.tfA2).args =
        fetchFrom (slots tf stack) 0 [.word, .double, .word] ↔
      tf.tfA2 = 0 ∧ tf.tfA1 = tf.tfA3 ∧ stack (tf.tfSp + 16) = 0 := by
  have hhigh : (tf.tfA1.toUInt64 >>> 32).toUInt32 = 0 := by
    apply UInt32.toNat_inj.mp
    have := tf.tfA1.toNat_lt
    simp [UInt64.toNat_shiftRight]
    omega
  simp only [Call.args, fetchFrom, slots, hhigh, UInt32.toUInt32_toUInt64, List.cons.injEq,
    Arg.word.injEq, Arg.double.injEq, and_true, true_and]
  constructor
  · rintro ⟨⟨ha2, ha1⟩, hstack⟩
    exact ⟨ha2.symm, ha1, (ha2.trans hstack).symm⟩
  · rintro ⟨ha2, ha1, hstack⟩
    exact ⟨⟨ha2.symm, ha1⟩, ha2.trans hstack.symm⟩

/-- The handlers of one-word arguments get them as documented. -/
theorem args_words {tf : Trapframe} {stack : UInt32 → UInt32} {call : Call}
    (h : marshal tf = some call) (hcall : ∀ fd offset whence, call ≠ .lseek fd offset whence) :
    call.args = fetchFrom (slots tf stack) 0 call.widths := by
  unfold marshal at h
  split at h
  case h_5 =>
    cases h
    exact absurd rfl (hcall _ _ _)
  case h_13 => cases h
  case h_4 | h_10 =>
    cases h
    exact (fetchFrom_words (slots tf stack) 0 0).symm
  case h_1 | h_3 | h_11 =>
    cases h
    exact (fetchFrom_words (slots tf stack) 1 0).symm
  case h_2 | h_7 | h_8 | h_12 =>
    cases h
    exact (fetchFrom_words (slots tf stack) 2 0).symm
  case h_6 | h_9 =>
    cases h
    exact (fetchFrom_words (slots tf stack) 3 0).symm

theorem marshal_lseek {tf : Trapframe} {fd whence : UInt32} {offset : UInt64}
    (h : marshal tf = some (.lseek fd offset whence)) :
    fd = tf.tfA0 ∧ offset = tf.tfA1.toUInt64 ∧ whence = tf.tfA2 := by
  unfold marshal at h
  split at h <;> cases h
  exact ⟨rfl, rfl, rfl⟩

theorem conforms_call {tf : Trapframe} {stack : UInt32 → UInt32} {a : Answer} {call : Call}
    (h : marshal tf = some call) :
    Conforms tf stack a ↔ call.args = fetchFrom (slots tf stack) 0 call.widths ∧
      Sees (leave tf (settle a call)) (call.outcome a) := by
  simp only [Conforms, answered, h, leave_epc, true_and]

/-- **The dispatcher against its documented convention**, for every trapframe, every user stack and
every answer of the handler. -/
theorem conforms_iff (tf : Trapframe) (stack : UInt32 → UInt32) (a : Answer) :
    Conforms tf stack a ↔ ∀ call, marshal tf = some call → Right tf stack a call := by
  cases h : marshal tf with
  | none =>
    have hsees : Conforms tf stack a := by
      simp only [Conforms, answered, h, leave_epc, true_and]
      exact leave_fails (e := ENOSYS) (by decide)
    exact iff_of_true hsees fun call hcall => by cases hcall
  | some call =>
    rw [conforms_call h]
    simp only [Option.some.injEq, forall_eq']
    cases call with
    | fork parentTf retval =>
      have hargs : (Call.fork parentTf retval).args =
          fetchFrom (slots tf stack) 0 (Call.fork parentTf retval).widths :=
        args_words h fun _ _ _ => by simp
      rw [and_iff_right hargs]
      exact sees_fork
    | lseek fd offset whence =>
      obtain ⟨rfl, rfl, rfl⟩ := marshal_lseek h
      exact and_congr (args_lseek tf stack) sees_lseek
    | reboot | time | exit =>
      exact iff_of_true ⟨args_words h fun _ _ _ => by simp, sees_errno⟩ trivial
    | getpid => exact iff_of_true ⟨args_words h fun _ _ _ => by simp, leave_word⟩ trivial
    | getcwd => exact iff_of_true ⟨args_words h fun _ _ _ => by simp, sees_getcwd⟩ trivial
    | write | «open» | read | close | dup2 =>
      exact iff_of_true ⟨args_words h fun _ _ _ => by simp, sees_negated⟩ trivial

/-- A trapframe with `callno` in `v0` and `a0` to `a3`. -/
def frame (callno a0 a1 a2 a3 : UInt32) : Trapframe :=
  ⟨0, 0, 0, 0, 0, 0, 0, callno, 0, a0, a1, a2, a3, 0, 0, 0, 0, 0, 0, 0, 0, 0, 0, 0, 0, 0, 0, 0, 0, 0, 0, 0,
    0, 0, 0⟩

/-- `lseek(3, 5, SEEK_SET)` seeks to 0, and a `fork` that made process 3 returns 0 to the parent. -/
theorem lseek_fork_off_convention :
    (marshal (frame 59 3 0 0 5) = some (.lseek 3 0 0) ∧
      ¬ Conforms (frame 59 3 0 0 5) (fun _ => 0) ⟨0, 0⟩) ∧
    ((answered (frame 0 0 0 0 0) ⟨0, 3⟩).tfV0 = 0 ∧
      ¬ Conforms (frame 0 0 0 0 0) (fun _ => 0) ⟨0, 3⟩) := by
  refine ⟨⟨rfl, fun h => ?_⟩, rfl, fun h => ?_⟩
  · have hoffset : (0 : UInt32) = 5 := ((args_lseek (frame 59 3 0 0 5) fun _ => 0).mp h.2.1).2.1
    exact absurd hoffset (by decide)
  · have hv0 : (0 : UInt32) = word 3 := h.2.2.1
    exact absurd hv0 (by decide)

end UnionCollegeCode.OS161.Syscall
