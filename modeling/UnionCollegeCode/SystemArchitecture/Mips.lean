import Mathlib.Algebra.Group.Int.Defs
import UnionCollegeCode.Lib.Assembly

/-!
# MIPS assembly

The instructions and pseudo-instructions of the lab programs, as a simulator without branch delays runs
them. Words are loaded and stored at aligned addresses only, and `add`, `addi` and `sub` trap on signed
overflow: such a step is `none`, and so is a system call that ends the program. Code is not in `mem`.
-/

set_option autoImplicit false

namespace UnionCollegeCode.SystemArchitecture.Mips

open Function (update)
open Lib.Assembly

/-- `asm` is `$at`, the assembler's own. -/
inductive Reg
  | zero | asm | v0 | v1 | a0 | a1 | a2 | a3
  | t0 | t1 | t2 | t3 | t4 | t5 | t6 | t7
  | s0 | s1 | s2 | s3 | s4 | s5 | s6 | s7
  | t8 | t9 | k0 | k1 | gp | sp | fp | ra
  deriving DecidableEq

/-- The registers a routine gives back as it found them. -/
def Reg.preserved : List Reg := [.s0, .s1, .s2, .s3, .s4, .s5, .s6, .s7, .gp, .sp, .fp, .ra]

inductive Instr (L : Type)
  | add (rd rs rt : Reg)
  | addi (rt rs : Reg) (imm : Word)
  | sub (rd rs rt : Reg)
  | slt (rd rs rt : Reg)
  | sll (rd rt : Reg) (shift : ℕ)
  | srl (rd rt : Reg) (shift : ℕ)
  | li (rd : Reg) (imm : Word)
  | la (rd : Reg) (label : Word)
  | move (rd rs : Reg)
  | lw (rt : Reg) (off : Word) (rs : Reg)
  | sw (rt : Reg) (off : Word) (rs : Reg)
  | beq (rs rt : Reg) (label : L)
  | bne (rs rt : Reg) (label : L)
  | bge (rs rt : Reg) (label : L)
  | j (label : L)
  | jal (label : L)
  | jr (rs : Reg)
  | syscall

/-- What a system call prints: an integer, or the string at an address. -/
inductive Output
  | int (value : Word)
  | string (address : Word)

structure State where
  pc : Word
  reg : Reg → Word
  mem : Memory
  out : List Output

namespace State

def get (s : State) (r : Reg) : Word := if r = .zero then 0 else s.reg r

def set (s : State) (r : Reg) (v : Word) : State :=
  if r = .zero then s else { s with reg := update s.reg r v }

def goto (s : State) (pc : Word) : State := { s with pc }

def next (s : State) : State := s.goto (s.pc + 4#32)

def load (s : State) (a : Word) : Option Word := if Aligned a then some (s.mem a) else none

def store (s : State) (a v : Word) : Option State :=
  if Aligned a then some { s with mem := update s.mem a v } else none

def print (s : State) (o : Output) : State := { s with out := s.out ++ [o] }

end State

def PR_INT : Word := 1
def PR_STR : Word := 4

/-- The services that end a program; the programs name neither. -/
def EXIT : Word := 10
def EXIT2 : Word := 17

/-- The services are the two the programs name; any other call stops. -/
def syscall (s : State) : Option State :=
  if s.get .v0 = PR_INT then some (s.print (.int (s.get .a0))).next
  else if s.get .v0 = PR_STR then some (s.print (.string (s.get .a0))).next
  else none

variable {L : Type}

def branch (cond : Bool) (target : Word) (s : State) : State := if cond then s.goto target else s.next

/-- One instruction. `bge` is `slt` into the assembler's own register and a branch on that. -/
def exec (address : L → Word) : Instr L → State → Option State
  | .add rd rs rt, s =>
    if BitVec.saddOverflow (s.get rs) (s.get rt) then none
    else some (s.set rd (s.get rs + s.get rt)).next
  | .addi rt rs imm, s =>
    if BitVec.saddOverflow (s.get rs) imm then none else some (s.set rt (s.get rs + imm)).next
  | .sub rd rs rt, s =>
    if BitVec.ssubOverflow (s.get rs) (s.get rt) then none
    else some (s.set rd (s.get rs - s.get rt)).next
  | .slt rd rs rt, s => some (s.set rd (if (s.get rs).slt (s.get rt) then 1 else 0)).next
  | .sll rd rt shift, s => some (s.set rd (s.get rt <<< shift)).next
  | .srl rd rt shift, s => some (s.set rd (s.get rt >>> shift)).next
  | .li rd imm, s => some (s.set rd imm).next
  | .la rd label, s => some (s.set rd label).next
  | .move rd rs, s => some (s.set rd (s.get rs)).next
  | .lw rt off rs, s => (s.load (s.get rs + off)).map fun v => (s.set rt v).next
  | .sw rt off rs, s => (s.store (s.get rs + off) (s.get rt)).map State.next
  | .beq rs rt label, s => some (branch (s.get rs = s.get rt) (address label) s)
  | .bne rs rt label, s => some (branch (s.get rs ≠ s.get rt) (address label) s)
  | .bge rs rt label, s =>
    let less := (s.get rs).slt (s.get rt)
    some (branch (!less) (address label) (s.set .asm (if less then 1 else 0)))
  | .j label, s => some (s.goto (address label))
  | .jal label, s => some ((s.set .ra (s.pc + 4#32)).goto (address label))
  | .jr rs, s => some (s.goto (s.get rs))
  | .syscall, s => syscall s

/-! ## Reading a run -/

section Lemmas

variable {s t : State} {r : Reg} {a v : Word}

@[simp] theorem get_of_ne (h : r ≠ .zero) : s.get r = s.reg r := if_neg h

@[simp] theorem get_zero : s.get .zero = 0 := rfl

@[simp] theorem set_of_ne (h : r ≠ .zero) : s.set r v = { s with reg := update s.reg r v } := if_neg h

@[simp] theorem set_pc : (s.set r v).pc = s.pc := by
  unfold State.set
  split <;> rfl

theorem saddOverflow_eq_false_iff {x y : Word} :
    BitVec.saddOverflow x y = false ↔ -2 ^ 31 ≤ x.toInt + y.toInt ∧ x.toInt + y.toInt < 2 ^ 31 := by
  unfold BitVec.saddOverflow
  simp only [ge_iff_le, Bool.or_eq_false_iff, decide_eq_false_iff_not]
  omega

theorem ssubOverflow_eq_false_iff {x y : Word} :
    BitVec.ssubOverflow x y = false ↔ -2 ^ 31 ≤ x.toInt - y.toInt ∧ x.toInt - y.toInt < 2 ^ 31 := by
  unfold BitVec.ssubOverflow
  simp only [ge_iff_le, Bool.or_eq_false_iff, decide_eq_false_iff_not]
  omega

/-- Below the middle of the address space no address computation of a routine overflows. -/
theorem saddOverflow_eq_false {x y : Word} (hx : x.toNat < 2 ^ 31)
    (h : 0 ≤ x.toNat + y.toInt) (h' : x.toNat + y.toInt < 2 ^ 31) : BitVec.saddOverflow x y = false := by
  have hint : x.toInt = x.toNat := BitVec.toInt_eq_toNat_of_lt (by omega)
  rw [saddOverflow_eq_false_iff, hint]
  omega

end Lemmas

/-! ## What falls through -/

def Instr.isSyscall : Instr L → Bool
  | .syscall => true
  | _ => false

/-- The instructions after which the next one runs. -/
def Instr.straight : Instr L → Bool
  | .beq .. | .bne .. | .bge .. | .j _ | .jal _ | .jr _ => false
  | _ => true

theorem falls_of_straight {i : Instr L} (hi : i.straight = true) : Falls exec State.pc i := by
  intro address s t h
  cases i with
  | beq | bne | bge | j | jal | jr => cases hi
  | add rd rs rt | addi rt rs imm | sub rd rs rt =>
    obtain ⟨-, h⟩ := Option.ite_none_left_eq_some.mp h
    cases h
    exact congrArg (· + 4#32) set_pc
  | slt | sll | srl | li | la | move =>
    cases h
    exact congrArg (· + 4#32) set_pc
  | lw rt off rs =>
    obtain ⟨v, -, rfl⟩ := Option.map_eq_some_iff.mp h
    exact congrArg (· + 4#32) set_pc
  | sw rt off rs =>
    obtain ⟨u, hu, rfl⟩ := Option.map_eq_some_iff.mp h
    obtain ⟨-, hu⟩ := Option.ite_none_right_eq_some.mp hu
    cases hu
    rfl
  | syscall =>
    simp only [exec, syscall] at h
    split at h
    · cases h
      rfl
    · obtain ⟨-, h⟩ := Option.ite_none_right_eq_some.mp h
      cases h
      rfl

end UnionCollegeCode.SystemArchitecture.Mips
