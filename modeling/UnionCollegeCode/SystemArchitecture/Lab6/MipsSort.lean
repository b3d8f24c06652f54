import UnionCollegeCode.Lib.WordArray
import UnionCollegeCode.SystemArchitecture.Mips

/-!
# `insertion-sort.asm`

The program, routine by routine, and what `isort` does: its inner loop is `sink` and its outer loop
`sortFirst`, on the words of the array.
-/

set_option autoImplicit false

namespace UnionCollegeCode.SystemArchitecture.Lab6.MipsSort

open Function (update)
open Lib.Assembly Lib.InsertionSort Lib.WordArray Mips

inductive Label
  | main
  | print | loop | exit
  | isort | for_ | while_ | done_while | done
  deriving DecidableEq

/-- Where the assembler puts the data. -/
structure Data where
  unsorted_str : Word
  sorted_str : Word
  comma : Word
  new_line : Word
  array : Word
  endarr : Word

abbrev Text := List (Line Label (Instr Label))

section Text

open Line Instr Reg

variable (D : Data)

def mainText : Text :=
  [label .main,
    instr (addi sp sp (-4)),
    instr (sw ra 0 sp),
    instr (li v0 PR_STR),
    instr (la a0 D.unsorted_str),
    instr syscall,
    instr (jal .print),
    instr (la a0 D.array),
    instr (la a1 D.endarr),
    instr (sub a1 a1 a0),
    instr (srl a1 a1 2),
    instr (jal .isort),
    instr (li v0 PR_STR),
    instr (la a0 D.sorted_str),
    instr syscall,
    instr (jal .print),
    instr (lw ra 0 sp),
    instr (addi sp sp 4),
    instr (jr ra)]

def printText : Text :=
  [label .print,
    instr (la t0 D.array),
    instr (la t1 D.endarr),
    instr (addi t1 t1 (-4)),
  label .loop,
    instr (bge t0 t1 .exit),
    instr (li v0 PR_INT),
    instr (lw a0 0 t0),
    instr syscall,
    instr (li v0 PR_STR),
    instr (la a0 D.comma),
    instr syscall,
    instr (addi t0 t0 4),
    instr (j .loop),
  label .exit,
    instr (li v0 PR_INT),
    instr (lw a0 0 t0),
    instr syscall,
    instr (li v0 PR_STR),
    instr (la a0 D.new_line),
    instr syscall,
    instr (jr ra)]

def isortText : Text :=
  [label .isort,
    instr (addi t0 a0 4),
    instr (sll t4 a1 2),
    instr (add t4 a0 t4),
  label .for_,
    instr (bge t0 t4 .done),
    instr (add t1 t0 zero),
    instr (lw t3 0 t0),
  label .while_,
    instr (bge a0 t1 .done_while),
    instr (lw t2 (-4) t1),
    instr (bge t3 t2 .done_while),
    instr (sw t2 0 t1),
    instr (addi t1 t1 (-4)),
    instr (j .while_),
  label .done_while,
    instr (sw t3 0 t1),
    instr (addi t0 t0 4),
    instr (j .for_),
  label .done,
    instr (jr ra)]

def text : Text := mainText D ++ printText D ++ isortText

end Text

/-- The program, at a base address. -/
def program (base : Word) (D : Data) : Program Label (Instr Label) := ⟨base, text D⟩

variable {base : Word} {D : Data}

def step (base : Word) (D : Data) : State → Option State := (program base D).step exec State.pc

/-- Control is in `isort`. -/
def Inside (base : Word) (D : Data) (s : State) : Prop := (program base D).Within 37 53 s.pc

example : offset .isort (text D) = 37 ∧ (instrs (text D)).length = 53 := ⟨rfl, rfl⟩

section Blocks

variable {s t : State}

theorem address_eq {l : Label} {i : ℕ} (h : offset l (text D) = i) :
    (program base D).address l = (program base D).addr i := congrArg (program base D).addr h

/-- The instructions at `i` run in one go. -/
theorem block (i : ℕ) (code : List (Instr Label)) (hlo : 37 ≤ i) (hhi : i + code.length ≤ 53)
    (hcode : ((instrs (text D)).drop i).take code.length = code)
    (hstraight : code.dropLast.all Instr.straight = true) (hpc : s.pc = (program base D).addr i)
    (h : execs exec (program base D) code s = some t) : Runs (step base D) (Inside base D) s t :=
  runs_code falls_of_straight hlo hhi (by decide) hcode hstraight hpc h

variable {a x : Word} {n p q : ℕ}

end Blocks

/-! ## The routine -/

end UnionCollegeCode.SystemArchitecture.Lab6.MipsSort
