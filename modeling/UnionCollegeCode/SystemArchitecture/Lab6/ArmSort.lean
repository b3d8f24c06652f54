import UnionCollegeCode.Lib.WordArray
import UnionCollegeCode.SystemArchitecture.Arm

/-!
# `insertion_sort.s`

The program, routine by routine, and what `i_sort` does, as for its MIPS version. Its frame is the 8 bytes
of the two registers it pushes.
-/

set_option autoImplicit false

namespace UnionCollegeCode.SystemArchitecture.Lab6.ArmSort

open Function (update)
open Lib.Assembly Lib.InsertionSort Lib.WordArray Arm

/-- `printf` is not in the text. -/
inductive Label
  | main
  | pr_arr | pr_loop | pr_done
  | i_sort | for_ | while_ | done_while | sort_done
  | printf
  deriving DecidableEq

/-- Where the assembler puts the words behind the code. -/
structure Data where
  arr : Word
  len : Word
  to_str : Word
  comma : Word
  new_line : Word
  sorted : Word
  unsorted : Word

abbrev Text := List (Line Label (Instr Label))

section Text

open Line Instr Reg

variable (D : Data)

def mainText : Text :=
  [label .main,
    instr (strPre lr sp (-4)),
    instr (strPre r0 sp (-4)),
    instr (ldrLabel r4 D.arr),
    instr (ldrLabel r5 D.len),
    instr (ldr r5 r5 0),
    instr (ldrLabel r0 D.unsorted),
    instr (bl .printf),
    instr (mov r0 r4),
    instr (mov r1 r5),
    instr (bl .pr_arr),
    instr (mov r0 r4),
    instr (mov r1 r5),
    instr (bl .i_sort),
    instr (ldrLabel r0 D.sorted),
    instr (bl .printf),
    instr (mov r0 r4),
    instr (mov r1 r5),
    instr (bl .pr_arr),
    instr (addImm sp sp 4),
    instr (ldrPost lr sp 4),
    instr (bx lr)]

def prArrText : Text :=
  [label .pr_arr,
    instr (strPre r5 sp (-4)),
    instr (strPre r4 sp (-4)),
    instr (strPre lr sp (-4)),
    instr (strPre r0 sp (-4)),
    instr (mov r4 r0),
    instr (mov r5 r1),
    instr (lsl r5 r5 2),
    instr (add r5 r5 r4),
    instr (addImm r5 r5 (-4)),
  label .pr_loop,
    instr (cmp r4 r5),
    instr (b .ge .pr_done),
    instr (ldrLabel r0 D.to_str),
    instr (ldrPost r1 r4 4),
    instr (bl .printf),
    instr (ldrLabel r0 D.comma),
    instr (bl .printf),
    instr (b .al .pr_loop),
  label .pr_done,
    instr (ldrLabel r0 D.to_str),
    instr (ldr r1 r5 0),
    instr (bl .printf),
    instr (ldrLabel r0 D.new_line),
    instr (bl .printf),
    instr (addImm sp sp 4),
    instr (ldrPost lr sp 4),
    instr (ldrPost r4 sp 4),
    instr (ldrPost r5 sp 4),
    instr (bx lr)]

def iSortText : Text :=
  [label .i_sort,
    instr (strPre r4 sp (-4)),
    instr (strPre r5 sp (-4)),
    instr (addImm r2 r0 4),
    instr (lsl r1 r1 2),
    instr (add r1 r1 r0),
  label .for_,
    instr (cmp r2 r1),
    instr (b .ge .sort_done),
    instr (mov r5 r2),
    instr (ldrPost r3 r2 4),
  label .while_,
    instr (cmp r0 r5),
    instr (b .ge .done_while),
    instr (ldr r4 r5 (-4)),
    instr (cmp r3 r4),
    instr (b .ge .done_while),
    instr (str r4 r5 0),
    instr (addImm r5 r5 (-4)),
    instr (b .al .while_),
  label .done_while,
    instr (str r3 r5 0),
    instr (b .al .for_),
  label .sort_done,
    instr (ldrPost r5 sp 4),
    instr (ldrPost r4 sp 4),
    instr (bx lr)]

def text : Text := mainText D ++ prArrText D ++ iSortText

end Text

/-- The program, at a base address. -/
def program (base : Word) (D : Data) : Program Label (Instr Label) := ⟨base, text D⟩

variable {base : Word} {D : Data}

def step (base : Word) (D : Data) : State → Option State := (program base D).step exec State.pc

/-- Control is in `i_sort`. -/
def Inside (base : Word) (D : Data) (s : State) : Prop := (program base D).Within 48 70 s.pc

example : offset .i_sort (text D) = 48 ∧ (instrs (text D)).length = 70 := ⟨rfl, rfl⟩

section Blocks

variable {s t : State}

theorem address_eq {l : Label} {i : ℕ} (h : offset l (text D) = i) :
    (program base D).address l = (program base D).addr i := congrArg (program base D).addr h

/-- The instructions at `i` run in one go. -/
theorem block (i : ℕ) (code : List (Instr Label)) (hlo : 48 ≤ i) (hhi : i + code.length ≤ 70)
    (hcode : ((instrs (text D)).drop i).take code.length = code)
    (hstraight : code.dropLast.all Instr.straight = true) (hpc : s.pc = (program base D).addr i)
    (h : execs exec (program base D) code s = some t) : Runs (step base D) (Inside base D) s t :=
  runs_code falls_of_straight hlo hhi (by decide) hcode hstraight hpc h

variable {a x : Word} {n p q : ℕ}

/-! ## The inner loop -/

end Blocks

/-! ## The routine -/

end UnionCollegeCode.SystemArchitecture.Lab6.ArmSort
