import UnionCollegeCode.Lib.Assembly

/-!
# ARM assembly

The instructions of the lab programs, in ARM state. Words are loaded and stored at aligned addresses only;
what an unaligned access does depends on the core, and a software interrupt on the system: neither is a
step here. A label that is not in the text, as `printf`, is past its end.
-/

set_option autoImplicit false

namespace UnionCollegeCode.SystemArchitecture.Arm

open Function (update)
open Lib.Assembly

inductive Reg
  | r0 | r1 | r2 | r3 | r4 | r5 | r6 | r7 | r8 | r9 | r10 | r11 | r12 | sp | lr
  deriving DecidableEq

/-- The registers a routine gives back as it found them. -/
def Reg.preserved : List Reg := [.r4, .r5, .r6, .r7, .r8, .r9, .r10, .r11, .sp, .lr]

inductive Cond
  | al | eq | ne | ge | gt
  deriving DecidableEq

/-- `strPre` and `ldrPost` are `str rt, [rn, #off]!` and `ldr rt, [rn], #off`, `ldrIndex` is
`ldr rt, [rn, rm, lsl#shift]` and `ldrLabel` loads the word at a label. -/
inductive Instr (L : Type)
  | add (rd rn rm : Reg)
  | addImm (rd rn : Reg) (imm : Word)
  | sub (rd rn rm : Reg)
  | lsl (rd rn : Reg) (shift : ℕ)
  | mov (rd rm : Reg)
  | movImm (rd : Reg) (imm : Word)
  | cmp (rn rm : Reg)
  | str (rt rn : Reg) (off : Word)
  | strPre (rt rn : Reg) (off : Word)
  | ldr (rt rn : Reg) (off : Word)
  | ldrPost (rt rn : Reg) (off : Word)
  | ldrIndex (rt rn rm : Reg) (shift : ℕ)
  | ldrLabel (rt : Reg) (label : Word)
  | b (cond : Cond) (label : L)
  | bl (label : L)
  | bx (rm : Reg)
  | swi

namespace Instr

variable {L : Type}

def push (r : Reg) : Instr L := .strPre r .sp (-4)

def pop (r : Reg) : Instr L := .ldrPost r .sp 4

end Instr

/-- The condition flags. -/
structure Flags where
  n : Bool
  z : Bool
  c : Bool
  v : Bool

/-- `cmp` sets the flags of a subtraction. -/
def Flags.compare (a b : Word) : Flags where
  n := (a - b).msb
  z := a - b = 0
  c := b.ule a
  v := BitVec.ssubOverflow a b

def Cond.holds (f : Flags) : Cond → Bool
  | .al => true
  | .eq => f.z
  | .ne => !f.z
  | .ge => f.n == f.v
  | .gt => !f.z && f.n == f.v

structure State where
  pc : Word
  reg : Reg → Word
  flags : Flags
  mem : Memory

namespace State

def set (s : State) (r : Reg) (v : Word) : State := { s with reg := update s.reg r v }

def goto (s : State) (pc : Word) : State := { s with pc }

def next (s : State) : State := s.goto (s.pc + 4#32)

def load (s : State) (a : Word) : Option Word := if Aligned a then some (s.mem a) else none

def store (s : State) (a v : Word) : Option State :=
  if Aligned a then some { s with mem := update s.mem a v } else none

end State

variable {L : Type}

def exec (address : L → Word) : Instr L → State → Option State
  | .add rd rn rm, s => some (s.set rd (s.reg rn + s.reg rm)).next
  | .addImm rd rn imm, s => some (s.set rd (s.reg rn + imm)).next
  | .sub rd rn rm, s => some (s.set rd (s.reg rn - s.reg rm)).next
  | .lsl rd rn shift, s => some (s.set rd (s.reg rn <<< shift)).next
  | .mov rd rm, s => some (s.set rd (s.reg rm)).next
  | .movImm rd imm, s => some (s.set rd imm).next
  | .cmp rn rm, s => some { s with flags := .compare (s.reg rn) (s.reg rm) }.next
  | .str rt rn off, s => (s.store (s.reg rn + off) (s.reg rt)).map State.next
  | .strPre rt rn off, s =>
    (s.store (s.reg rn + off) (s.reg rt)).map fun t => (t.set rn (s.reg rn + off)).next
  | .ldr rt rn off, s => (s.load (s.reg rn + off)).map fun v => (s.set rt v).next
  | .ldrPost rt rn off, s =>
    (s.load (s.reg rn)).map fun v => ((s.set rn (s.reg rn + off)).set rt v).next
  | .ldrIndex rt rn rm shift, s =>
    (s.load (s.reg rn + s.reg rm <<< shift)).map fun v => (s.set rt v).next
  | .ldrLabel rt label, s => (s.load label).map fun v => (s.set rt v).next
  | .b cond label, s => some (if cond.holds s.flags then s.goto (address label) else s.next)
  | .bl label, s => some ((s.set .lr (s.pc + 4#32)).goto (address label))
  | .bx rm, s => some (s.goto (s.reg rm))
  | .swi, _ => none

/-! ## Reading a run -/

section Lemmas

variable {a b : Word}

@[simp] theorem holds_al {f : Flags} : Cond.al.holds f = true := rfl

theorem sub_eq_zero_iff : a - b = 0 ↔ a = b := by
  constructor
  · intro h
    bv_omega
  · rintro rfl
    exact BitVec.sub_self a

@[simp] theorem compare_eq : Cond.eq.holds (.compare a b) = decide (a = b) := by
  simp only [Cond.holds, Flags.compare, sub_eq_zero_iff]

@[simp] theorem compare_ne : Cond.ne.holds (.compare a b) = !decide (a = b) := by
  simp only [Cond.holds, Flags.compare, sub_eq_zero_iff]

/-- The sign of the difference is right unless it overflows. -/
theorem sign_eq : ((a - b).msb == BitVec.ssubOverflow a b) = !a.slt b := by
  have ha := BitVec.toInt_lt (x := a)
  have ha' := BitVec.le_toInt (x := a)
  have hb := BitVec.toInt_lt (x := b)
  have hb' := BitVec.le_toInt (x := b)
  have hsub : (a - b).toInt = (a.toInt - b.toInt).bmod (2 ^ 32) := BitVec.toInt_sub
  have hmsb : (a - b).msb = decide ((a.toInt - b.toInt).bmod (2 ^ 32) < 0) := by
    rw [BitVec.msb_eq_toInt, hsub]
  have hflag (p q r : Prop) [Decidable p] [Decidable q] [Decidable r] :
      decide p = (decide q || decide r) ↔ (p ↔ q ∨ r) := by
    rw [Bool.eq_iff_iff, Bool.or_eq_true, decide_eq_true_iff, decide_eq_true_iff, decide_eq_true_iff]
  rw [hmsb, BitVec.ssubOverflow, BitVec.slt, Bool.beq_eq_decide_eq, ← decide_not, decide_eq_decide,
    hflag, Int.bmod_def]
  omega

@[simp] theorem compare_ge : Cond.ge.holds (.compare a b) = !a.slt b := sign_eq

@[simp] theorem compare_gt : Cond.gt.holds (.compare a b) = b.slt a := by
  simp only [Cond.holds, Flags.compare, sub_eq_zero_iff, sign_eq, BitVec.slt]
  by_cases h : a = b
  · subst h
    simp
  · have hne : a.toInt ≠ b.toInt := fun hint => h (BitVec.eq_of_toInt_eq hint)
    simp only [h, decide_false, Bool.not_false, Bool.true_and, ← decide_not]
    exact decide_eq_decide.mpr (by omega)

end Lemmas

/-! ## What falls through -/

/-- The instructions after which the next one runs. -/
def Instr.straight : Instr L → Bool
  | .b .. | .bl _ | .bx _ => false
  | _ => true

theorem falls_of_straight {i : Instr L} (hi : i.straight = true) : Falls exec State.pc i := by
  intro address s t h
  cases i with
  | b | bl | bx => cases hi
  | swi => cases h
  | add | addImm | sub | lsl | mov | movImm | cmp =>
    cases h
    rfl
  | str rt rn off | strPre rt rn off =>
    obtain ⟨u, hu, rfl⟩ := Option.map_eq_some_iff.mp h
    obtain ⟨-, hu⟩ := Option.ite_none_right_eq_some.mp hu
    cases hu
    rfl
  | ldr | ldrPost | ldrIndex | ldrLabel =>
    obtain ⟨v, -, rfl⟩ := Option.map_eq_some_iff.mp h
    rfl

end UnionCollegeCode.SystemArchitecture.Arm
