import UnionCollegeCode.Lib.ListRoutines
import UnionCollegeCode.SystemArchitecture.Arm

/-!
# `LL.s`

The program, routine by routine, and what `mknodes`, `new` and `insert` do, as for its MIPS version. The
frame of an insertion is the 8 bytes of each cell passed and the 16 of the last call.
-/

set_option autoImplicit false

namespace UnionCollegeCode.SystemArchitecture.Lab7.ArmList

open Function (update)
open Lib.Assembly Lib.CellList Arm

def NEXT : Word := 0
def DATA : Word := 4
def NODESIZE : Word := 8
def HEAPSIZE : Word := 120
def NIL : Word := 0

/-- `printf` is not in the text. -/
inductive Label
  | main | add_loop | print_elems
  | mknodes | mkloop
  | new | index_out_of_bounds_exception
  | insert | ins_if | ins_else | out_of_nodes_error
  | print | prloop | prdone
  | printf
  deriving DecidableEq

/-- Where the assembler puts the words behind the code. -/
structure Data where
  heap : Word
  arr : Word
  arr_len : Word
  to_str : Word
  nl : Word
  comma : Word
  nofree : Word

abbrev Text := List (Line Label (Instr Label))

section Text

open Line Instr Reg

variable (D : Data)

def mainText : Text :=
  [label .main,
    instr (strPre lr sp (-4)),
    instr (strPre r0 sp (-4)),
    instr (movImm r7 NIL),
    instr (ldrLabel r0 D.heap),
    instr (movImm r1 HEAPSIZE),
    instr (movImm r2 NODESIZE),
    instr (bl .mknodes),
    instr (mov r2 r0),
    instr (mov r1 r7),
    instr (movImm r4 0),
    instr (ldrLabel r5 D.arr_len),
    instr (ldr r5 r5 0),
    instr (ldrLabel r6 D.arr),
  label .add_loop,
    instr (cmp r4 r5),
    instr (b .ge .print_elems),
    instr (ldrIndex r0 r6 r4 2),
    instr (bl .insert),
    instr (mov r2 r1),
    instr (mov r1 r0),
    instr (addImm r4 r4 1),
    instr (b .al .add_loop),
  label .print_elems,
    instr (mov r0 r1),
    instr (bl .print),
    instr (addImm sp sp 4),
    instr (ldrPost lr sp 4),
    instr (bx lr)]

def mknodesText : Text :=
  [label .mknodes,
    instr (strPre r4 sp (-4)),
    instr (strPre r3 sp (-4)),
    instr (add r3 r0 r1),
    instr (sub r3 r3 r2),
    instr (str r3 sp 0),
  label .mkloop,
    instr (sub r4 r3 r2),
    instr (str r4 r3 NEXT),
    instr (mov r3 r4),
    instr (cmp r3 r0),
    instr (b .ne .mkloop),
    instr (str r7 r4 NEXT),
    instr (ldrPost r0 sp 4),
    instr (ldrPost r4 sp 4),
    instr (bx lr)]

def newText : Text :=
  [label .new,
    instr (cmp r0 r7),
    instr (b .eq .index_out_of_bounds_exception),
    instr (ldr r1 r0 NEXT),
    instr (str r7 r0 NEXT),
    instr (bx lr),
  label .index_out_of_bounds_exception,
    instr (push lr),
    instr (ldrLabel r0 D.nofree),
    instr (bl .printf),
    instr (pop lr),
    instr (mov r0 r7),
    instr (mov r1 r7),
    instr (bx lr)]

def insertText : Text :=
  [label .insert,
    instr (cmp r1 r7),
    instr (b .eq .ins_if),
    instr (ldr r3 r1 DATA),
    instr (cmp r0 r3),
    instr (b .gt .ins_else),
  label .ins_if,
    instr (strPre r0 sp (-4)),
    instr (strPre r1 sp (-4)),
    instr (strPre lr sp (-4)),
    instr (strPre r2 sp (-4)),
    instr (mov r0 r2),
    instr (bl .new),
    instr (mov r3 r0),
    instr (mov r2 r1),
    instr (addImm sp sp 4),
    instr (ldrPost lr sp 4),
    instr (ldrPost r1 sp 4),
    instr (ldrPost r0 sp 4),
    instr (cmp r3 r7),
    instr (b .eq .out_of_nodes_error),
    instr (str r0 r3 DATA),
    instr (str r1 r3 NEXT),
    instr (mov r0 r3),
    instr (mov r1 r2),
    instr (bx lr),
  label .ins_else,
    instr (strPre r1 sp (-4)),
    instr (strPre lr sp (-4)),
    instr (ldr r1 r1 NEXT),
    instr (bl .insert),
    instr (mov r2 r1),
    instr (ldrPost lr sp 4),
    instr (ldrPost r1 sp 4),
    instr (cmp r0 r7),
    instr (b .eq .out_of_nodes_error),
    instr (str r0 r1 NEXT),
    instr (mov r0 r1),
    instr (mov r1 r2),
    instr (bx lr),
  label .out_of_nodes_error,
    instr (push lr),
    instr (ldrLabel r0 D.nofree),
    instr (bl .printf),
    instr (pop lr),
    instr (movImm r7 0xe0),
    instr swi,
    instr (movImm r1 9),
    instr (movImm r7 0xee),
    instr swi]

def printText : Text :=
  [label .print,
    instr (strPre lr sp (-4)),
    instr (strPre r0 sp (-4)),
    instr (strPre r4 sp (-4)),
    instr (strPre r5 sp (-4)),
    instr (mov r5 r0),
  label .prloop,
    instr (cmp r5 r7),
    instr (b .eq .prdone),
    instr (ldrLabel r0 D.to_str),
    instr (ldr r1 r5 DATA),
    instr (bl .printf),
    instr (ldrLabel r0 D.comma),
    instr (bl .printf),
    instr (ldr r5 r5 NEXT),
    instr (b .al .prloop),
  label .prdone,
    instr (ldrLabel r0 D.nl),
    instr (bl .printf),
    instr (ldrPost r5 sp 4),
    instr (ldrPost r4 sp 4),
    instr (ldrPost r0 sp 4),
    instr (ldrPost lr sp 4),
    instr (bx lr)]

def text : Text := mainText D ++ mknodesText ++ newText D ++ insertText D ++ printText D

end Text

/-- The program, at a base address. -/
def program (base : Word) (D : Data) : Program Label (Instr Label) := ⟨base, text D⟩

variable {base : Word} {D : Data}

def step (base : Word) (D : Data) : State → Option State := (program base D).step exec State.pc

/-- Control is in one of `mknodes`, `new` and `insert`. -/
def Inside (base : Word) (D : Data) (s : State) : Prop := (program base D).Within 26 98 s.pc

example : offset .mknodes (text D) = 26 ∧ offset .print (text D) = 98 := ⟨rfl, rfl⟩

section Blocks

variable {s t : State} {Q : State → Prop}

theorem address_eq {l : Label} {i : ℕ} (h : offset l (text D) = i) :
    (program base D).address l = (program base D).addr i := congrArg (program base D).addr h

/-- The instructions at `i` run in one go. -/
theorem block (i : ℕ) (code : List (Instr Label)) (hlo : 26 ≤ i) (hhi : i + code.length ≤ 98)
    (hcode : ((instrs (text D)).drop i).take code.length = code)
    (hstraight : code.dropLast.all Instr.straight = true) (hpc : s.pc = (program base D).addr i)
    (h : execs exec (program base D) code s = some t) : Runs (step base D) (Inside base D) s t :=
  runs_code falls_of_straight hlo hhi (by decide) hcode hstraight hpc h

/-! ## `mknodes` -/

section Mknodes

variable {heap : Word} {k j : ℕ}

/-- One round links a block to the one before it. -/
theorem round_runs {p : Word} (hpc : s.pc = (program base D).address .mkloop) (hr0 : s.reg .r0 = heap)
    (hr2 : s.reg .r2 = NODESIZE) (hr3 : s.reg .r3 = p) (hp : Aligned p) :
    Runs (step base D) (Inside base D) s
      { s with
        pc := if p - NODESIZE = heap then (program base D).addr 36 else (program base D).address .mkloop
        reg := update (update s.reg .r4 (p - NODESIZE)) .r3 (p - NODESIZE)
        flags := .compare (p - NODESIZE) heap
        mem := update s.mem p (p - NODESIZE) } := by
  apply block 31 [.sub .r4 .r3 .r2, .str .r4 .r3 NEXT, .mov .r3 .r4, .cmp .r3 .r0, .b .ne .mkloop]
    (by decide) (by decide) rfl rfl (hpc.trans (address_eq rfl))
  by_cases hlast : p - NODESIZE = heap
  · simp [execs, exec, State.next, State.goto, State.set, State.store, hr0, hr2, hr3, hp, NEXT, hlast,
      hpc, address_eq, Program.addr_succ]
    rfl
  · simp [execs, exec, State.next, State.goto, State.set, State.store, hr0, hr2, hr3, hp, NEXT, hlast]

/-- The loop goes down to the first block, from wherever in the address space it starts. -/
theorem mkloop_runs (hal : Aligned heap) (hj : j + 1 < 2 ^ 29)
    (hpc : s.pc = (program base D).address .mkloop) (hr0 : s.reg .r0 = heap)
    (hr2 : s.reg .r2 = NODESIZE) (hr3 : s.reg .r3 = cell heap (j + 1)) :
    Runs (step base D) (Inside base D) s
      { s with
        pc := (program base D).addr 36
        reg := update (update s.reg .r4 heap) .r3 heap
        flags := .compare heap heap
        mem := link heap s.mem (j + 1) } := by
  have hback (i : ℕ) : cell heap (i + 1) - NODESIZE = cell heap i := cell_succ
  induction j generalizing s with
  | zero =>
    have hround := round_runs hpc hr0 hr2 hr3 (cell_aligned hal)
    rw [hback, cell_zero, if_pos rfl] at hround
    rw [link, link, cell_zero]
    exact hround
  | succ j ih =>
    have hlt : j + 1 < 2 ^ 29 := Nat.lt_of_succ_lt hj
    have hround := round_runs hpc hr0 hr2 hr3 (cell_aligned hal)
    rw [hback, if_neg (cell_ne_base (Nat.succ_pos j) hlt)] at hround
    apply hround.trans
    have hrest := ih (s := { s with
        pc := (program base D).address .mkloop
        reg := update (update s.reg .r4 (cell heap (j + 1))) .r3 (cell heap (j + 1))
        flags := .compare (cell heap (j + 1)) heap
        mem := update s.mem (cell heap (j + 1 + 1)) (cell heap (j + 1)) })
      hlt rfl (by simpa using hr0) (by simpa using hr2) (by simp)
    have hreg : update (update (update (update s.reg .r4 (cell heap (j + 1))) .r3
        (cell heap (j + 1))) .r4 heap) .r3 heap = update (update s.reg .r4 heap) .r3 heap := by
      funext r
      by_cases h3 : r = .r3 <;> by_cases h4 : r = .r4 <;> simp [h3, h4]
    rw [hreg] at hrest
    exact hrest

/-- `mknodes` is called, and has 8 bytes of stack that are not in the heap. -/
structure ReadyMknodes (heap : Word) (k : ℕ) (s : State) : Prop where
  start : s.reg .r0 = heap
  heapsize : s.reg .r1 = BitVec.ofNat 32 (8 * k)
  nodesize : s.reg .r2 = NODESIZE
  nil : s.reg .r7 = NIL
  stack : Aligned (s.reg .sp)
  room : 8 ≤ (s.reg .sp).toNat
  off : ∀ a, Below (s.reg .sp) 8 a → ¬ InCells heap k a

/-- The registers are pushed, and the loop starts at the last block. -/
theorem mknodes_starts {fp : Word} (hpc : s.pc = (program base D).address .mknodes)
    (h : ReadyMknodes heap k s) (hfp : Frame (s.reg .sp) fp 8) :
    Runs (step base D) (Inside base D) s
      { s with
        pc := (program base D).address .mkloop
        reg := update (update s.reg .sp fp) .r3 (cell heap k - NODESIZE)
        mem := pushed s.mem fp 0 [cell heap k - NODESIZE, s.reg .r4] } := by
  have h4 : Aligned (fp + 4#32) := hfp.aligned_slot h.stack rfl (by decide) rfl
  have h0 : Aligned fp := hfp.aligned h.stack rfl
  have hpush4 : s.reg .sp + -4#32 = fp + 4#32 := hfp.push_first
  have hpush0 : fp + 4#32 + -4#32 = fp := push_last fp
  have htop : heap + BitVec.ofNat 32 (8 * k) = cell heap k := rfl
  have hloop : (program base D).address .mkloop = (program base D).addr 31 := address_eq rfl
  have hentry : s.pc = (program base D).addr 26 := hpc.trans (address_eq rfl)
  apply block 26 [.strPre .r4 .sp (-4), .strPre .r3 .sp (-4), .add .r3 .r0 .r1, .sub .r3 .r3 .r2,
    .str .r3 .sp 0] (by decide) (by decide) rfl rfl hentry
  simp -implicitDefEqProofs [execs, exec, State.next, State.goto, State.set, State.store, h.start,
    h.heapsize, h.nodesize, hpush4, hpush0, h4, h0, htop, hloop, hentry, pushed, Program.addr_succ,
    -BitVec.reduceNeg]

/-- The first block is grounded, and what was pushed is popped. -/
theorem mknodes_exits {sp fp : Word} (hpc : s.pc = (program base D).addr 36) (hfp : Frame sp fp 8)
    (hsp : s.reg .sp = fp) (hstack : Aligned sp) (hr4 : s.reg .r4 = heap) (hal : Aligned heap)
    (hnil : s.reg .r7 = NIL) :
    Runs (step base D) (Inside base D) s
      { s with
        pc := s.reg .lr
        reg := update (update (update s.reg .sp sp) .r0 (update s.mem heap NIL fp)) .r4
          (update s.mem heap NIL (fp + 4#32))
        mem := update s.mem heap NIL } := by
  have h4 : Aligned (fp + 4#32) := hfp.aligned_slot hstack rfl (by decide) rfl
  have h0 : Aligned fp := hfp.aligned hstack rfl
  have hpop8 : fp + 4#32 + 4#32 = sp := hfp.pop_last
  apply block 36 [.str .r7 .r4 NEXT, .ldrPost .r0 .sp 4, .ldrPost .r4 .sp 4, .bx .lr]
    (by decide) (by decide) rfl rfl hpc
  simp -implicitDefEqProofs [execs, exec, State.next, State.goto, State.set, State.store, State.load,
    NEXT, hal, hnil, hr4, hsp, h0, h4, hpop8]
  funext r
  cases r <;> simp

/-- **`mknodes`.** -/
theorem mknodes_runs (hk : heap.toNat + 8 * k ≤ 2 ^ 32) (hal : Aligned heap) (hk2 : 2 ≤ k) (hpc : s.pc = (program base D).address .mknodes)
    (h : ReadyMknodes heap k s) :
    ∃ m, (∀ a, ¬ Below (s.reg .sp) 8 a → m a = s.mem a) ∧
      Runs (step base D) (Inside base D) s
        { s with
          pc := s.reg .lr
          reg := update (update s.reg .r0 (cell heap (k - 1))) .r3 heap
          flags := .compare heap heap
          mem := update (link heap m (k - 1)) heap NIL } := by
  obtain ⟨j, rfl⟩ : ∃ j, k = j + 2 := Nat.exists_eq_add_of_le' hk2
  obtain ⟨fp, hpush⟩ : ∃ fp, s.reg .sp + -8#32 = fp := ⟨_, rfl⟩
  have hfp : Frame (s.reg .sp) fp 8 := ⟨h.room, hpush⟩
  have hstart := mknodes_starts hpc h hfp
  have htop : cell heap (j + 2) - NODESIZE = cell heap (j + 1) := cell_succ
  rw [htop] at hstart
  obtain ⟨m, hm⟩ : ∃ m, m = pushed s.mem fp 0 [cell heap (j + 1), s.reg .r4] := ⟨_, rfl⟩
  obtain ⟨regs, hregs⟩ : ∃ regs, regs = update (update s.reg .sp fp) .r3 (cell heap (j + 1)) := ⟨_, rfl⟩
  rw [← hm, ← hregs] at hstart
  have hloop := mkloop_runs (D := D)
    (s := { s with pc := (program base D).address .mkloop, reg := regs, mem := m }) hal (j := j)
    (by omega) rfl (by simp [hregs, h.start]) (by simp [hregs, h.nodesize]) (by simp [hregs])
  refine ⟨m, ?_, (hstart.trans hloop).trans ?_⟩
  · intro a ha
    rw [hm]
    exact hfp.pushed_off le_rfl le_rfl ha
  · -- The loop leaves the frame alone, so what was pushed is popped.
    have hkept {a : Word} (ha : Below (s.reg .sp) 8 a) :
        update (link heap m (j + 1)) heap NIL a = m a :=
      link_outside hk (Nat.lt_succ_self _) (h.off a ha)
    have hm4 : update (link heap m (j + 1)) heap NIL (fp + 4#32) = s.reg .r4 := by
      rw [hkept (hfp.below_slot (j := 4) (by decide)), hm]
      exact hfp.pushed_slot (k := 1) le_rfl (by simp)
    have hm0 : update (link heap m (j + 1)) heap NIL fp = cell heap (j + 1) := by
      rw [hkept (hfp.below_bottom (by decide)), hm]
      exact (congrArg _ (BitVec.add_zero fp).symm).trans (hfp.pushed_slot (k := 0) le_rfl (by simp))
    have hexit := mknodes_exits (D := D) (s := { s with
        pc := (program base D).addr 36
        reg := update (update regs .r4 heap) .r3 heap
        flags := .compare heap heap
        mem := link heap m (j + 1) })
      rfl hfp (by simp [hregs]) h.stack (by simp) hal (by simp [hregs, h.nil])
    have hreg : update (update (update (update (update regs .r4 heap) .r3 heap) .sp (s.reg .sp)) .r0
        (cell heap (j + 1))) .r4 (s.reg .r4) = update (update s.reg .r0 (cell heap (j + 1))) .r3 heap := by
      funext r
      cases r <;> simp [hregs]
    simp only [hm4, hm0, hreg] at hexit
    simpa [hregs] using hexit

end Mknodes

/-! ## `new` -/

theorem new_runs (hpc : s.pc = (program base D).address .new) (hnil : s.reg .r7 = NIL)
    (hfree : s.reg .r0 ≠ NIL) (hal : Aligned (s.reg .r0)) :
    Runs (step base D) (Inside base D) s
      { s with
        pc := s.reg .lr
        reg := update s.reg .r1 (s.mem (s.reg .r0))
        flags := .compare (s.reg .r0) NIL
        mem := update s.mem (s.reg .r0) NIL } := by
  have htest : Runs (step base D) (Inside base D) s
      { s with pc := (program base D).addr 42, flags := .compare (s.reg .r0) NIL } := by
    apply block 40 [.cmp .r0 .r7, .b .eq .index_out_of_bounds_exception] (by decide) (by decide) rfl rfl
      (hpc.trans (address_eq rfl))
    have hentry : s.pc = (program base D).addr 40 := hpc.trans (address_eq rfl)
    simp [execs, exec, hnil, hfree, State.next, State.goto, hentry, Program.addr_succ]
  apply htest.trans
  apply block 42 [.ldr .r1 .r0 NEXT, .str .r7 .r0 NEXT, .bx .lr] (by decide) (by decide) rfl rfl rfl
  simp [execs, exec, State.next, State.goto, State.set, State.load, State.store, NEXT, hal, hnil]

/-- The bytes of stack that an insertion in a list of `n` cells needs. -/
def frame (n : ℕ) : ℕ := 8 * n + 16

/-- `insert` is called with the value `N`, the list `ds` and the free cell `f`. -/
structure Ready (N f : Word) (ds : List Word) (s : State) : Prop where
  nil : s.reg .r7 = NIL
  number : s.reg .r0 = N
  free : s.reg .r2 = f
  spare : Spare (s.reg .sp) (frame ds.length) s.mem (s.reg .r1) f ds
  stack : Aligned (s.reg .sp)
  room : frame ds.length ≤ (s.reg .sp).toNat

structure Returned (N f : Word) (ds : List Word) (s t : State) : Prop where
  pc : t.pc = s.reg .lr
  inserted : Inserted (Below (s.reg .sp) (frame ds.length)) (fun v => ¬ v.slt N) ds f N s.mem t.mem
    (t.reg .r0)
  free : t.reg .r1 = s.mem f
  preserved : ∀ r ∈ Reg.preserved, t.reg r = s.reg r

/-- The arguments and the return address are pushed, and `new` is called. -/
theorem insIf_calls {N f fp : Word} {ds : List Word} (h : Ready N f ds s)
    (hpc : s.pc = (program base D).address .ins_if) (hfp : Frame (s.reg .sp) fp 16) :
    Runs (step base D) (Inside base D) s
      { s with
        pc := (program base D).address .new
        reg := update (update (update s.reg .sp fp) .r0 f) .lr ((program base D).addr 63)
        mem := pushed s.mem fp 0 [f, s.reg .lr, s.reg .r1, N] } := by
  have hpush12 : s.reg .sp + -4#32 = fp + 12#32 := hfp.push_first
  have hpush8 : fp + 12#32 + -4#32 = fp + 8#32 := slot_push fp 8
  have hpush4 : fp + 8#32 + -4#32 = fp + 4#32 := slot_push fp 4
  have hpush0 : fp + 4#32 + -4#32 = fp := push_last fp
  have h12 : Aligned (fp + 12#32) := hfp.aligned_slot h.stack rfl (by decide) rfl
  have h8 : Aligned (fp + 8#32) := hfp.aligned_slot h.stack rfl (by decide) rfl
  have h4 : Aligned (fp + 4#32) := hfp.aligned_slot h.stack rfl (by decide) rfl
  have h0 : Aligned fp := hfp.aligned h.stack rfl
  have hentry : s.pc = (program base D).addr 57 := hpc.trans (address_eq rfl)
  apply block 57 [.strPre .r0 .sp (-4), .strPre .r1 .sp (-4), .strPre .lr .sp (-4),
    .strPre .r2 .sp (-4), .mov .r0 .r2, .bl .new] (by decide) (by decide) rfl rfl hentry
  simp -implicitDefEqProofs [execs, exec, State.next, State.goto, State.set, State.store, hpush12, hpush8,
    hpush4, hpush0, h12, h8, h4, h0, hentry, Program.addr_succ, h.free, h.number, pushed,
    -BitVec.reduceNeg]

/-- What was pushed is popped, and the cell is linked before the list. -/
theorem insIf_pops {N f lr list sp fp : Word} (hpc : s.pc = (program base D).addr 63)
    (hfp : Frame sp fp 16) (hsp : s.reg .sp = fp) (hal : Aligned sp) (hnil : s.reg .r7 = NIL)
    (hr0 : s.reg .r0 = f) (hne : f ≠ NIL) (hf : Aligned f) (hf' : Aligned (f + 4#32))
    (hN : s.mem (fp + 12#32) = N) (hlist : s.mem (fp + 8#32) = list) (hlr : s.mem (fp + 4#32) = lr) :
    Runs (step base D) (Inside base D) s
      { s with
        pc := lr
        reg := update (update (update (update (update s.reg .r2 (s.reg .r1)) .r3 f) .sp sp) .lr lr) .r0 f
        flags := .compare f NIL
        mem := update (update s.mem (f + 4#32) N) f list } := by
  have hpop8 : fp + 4#32 + 4#32 = fp + 8#32 := slot_pop fp 4
  have hpop12 : fp + 8#32 + 4#32 = fp + 12#32 := slot_pop fp 8
  have hpop16 : fp + 12#32 + 4#32 = sp := hfp.pop_last
  have h12 : Aligned (fp + 12#32) := hfp.aligned_slot hal rfl (by decide) rfl
  have h8 : Aligned (fp + 8#32) := hfp.aligned_slot hal rfl (by decide) rfl
  have h4 : Aligned (fp + 4#32) := hfp.aligned_slot hal rfl (by decide) rfl
  obtain ⟨regs, hregs⟩ : ∃ regs, regs = update (update (update (update (update (update s.reg .r2
      (s.reg .r1)) .r3 f) .sp sp) .lr lr) .r0 N) .r1 list := ⟨_, rfl⟩
  have hpop : Runs (step base D) (Inside base D) s
      { s with pc := (program base D).addr 71, reg := regs, flags := .compare f NIL } := by
    apply block 63 [.mov .r3 .r0, .mov .r2 .r1, .addImm .sp .sp 4, .ldrPost .lr .sp 4, .ldrPost .r1 .sp 4,
      .ldrPost .r0 .sp 4, .cmp .r3 .r7, .b .eq .out_of_nodes_error] (by decide) (by decide) rfl rfl hpc
    simp -implicitDefEqProofs [execs, exec, State.next, State.goto, State.set, State.load, hpop8, hpop12,
      hpop16, h12, h8, h4, hN, hlist, hlr, hsp, hpc, Program.addr_succ, hnil, hr0, hne, hregs]
    funext r
    cases r <;> simp
  refine hpop.trans ?_
  apply block 71 [.str .r0 .r3 DATA, .str .r1 .r3 NEXT, .mov .r0 .r3, .mov .r1 .r2, .bx .lr]
    (by decide) (by decide) rfl rfl rfl
  simp -implicitDefEqProofs [execs, exec, State.next, State.goto, State.set, State.store, hf, hf', hregs,
    DATA, NEXT]
  funext r
  cases r <;> simp

theorem insIf_returns {N f : Word} {ds : List Word} (h : Ready N f ds s)
    (hpc : s.pc = (program base D).address .ins_if)
    (hstop : ∀ d ∈ ds.head?, ¬ (data s.mem d).slt N) :
    Reaches (step base D) (Inside base D) s (Returned N f ds s) := by
  obtain ⟨fp, hpush⟩ : ∃ fp, s.reg .sp + -16#32 = fp := ⟨_, rfl⟩
  have hin : 16 ≤ frame ds.length := Nat.le_add_left ..
  have hfp : Frame (s.reg .sp) fp 16 := ⟨hin.trans h.room, hpush⟩
  obtain ⟨hf, hf'⟩ := h.spare.aligned f List.mem_cons_self
  have hfne : f ≠ NIL := h.spare.free_ne
  have hcall := insIf_calls h hpc hfp
  obtain ⟨mem, hmem⟩ : ∃ mem, mem = pushed s.mem fp 0 [f, s.reg .lr, s.reg .r1, N] := ⟨_, rfl⟩
  rw [← hmem] at hcall
  have hoff : ∀ a, ¬ Below (s.reg .sp) (frame ds.length) a → mem a = s.mem a := by
    intro a ha
    rw [hmem]
    exact hfp.pushed_off le_rfl hin ha
  -- `new` returns the free cell.
  obtain ⟨regs, hregs⟩ : ∃ regs, regs = update (update (update (update s.reg .sp fp) .r0 f) .lr
      ((program base D).addr 63)) .r1 (s.mem f) := ⟨_, rfl⟩
  obtain ⟨u, hu⟩ : ∃ u : State, u = { s with
      pc := (program base D).addr 63
      reg := regs
      flags := .compare f NIL
      mem := update mem f NIL } := ⟨_, rfl⟩
  have hnew : Runs (step base D) (Inside base D) s u := by
    have hruns := new_runs (D := D) (s := { s with
        pc := (program base D).address .new
        reg := update (update (update s.reg .sp fp) .r0 f) .lr ((program base D).addr 63)
        mem := mem }) rfl h.nil hfne hf
    have hfree : mem f = s.mem f := hoff f (h.spare.off f List.mem_cons_self).1
    refine hcall.trans ?_
    simpa [hfree, hu, hregs] using hruns
  -- It is not in the frame, so what was pushed is there.
  have humem : u.mem = update mem f NIL := by rw [hu]
  have hm12 : u.mem (fp + 12#32) = N := by
    rw [humem, hmem]
    exact h.spare.pushed_update hfp hin (k := 3) le_rfl (by simp)
  have hm8 : u.mem (fp + 8#32) = s.reg .r1 := by
    rw [humem, hmem]
    exact h.spare.pushed_update hfp hin (k := 2) le_rfl (by simp)
  have hm4 : u.mem (fp + 4#32) = s.reg .lr := by
    rw [humem, hmem]
    exact h.spare.pushed_update hfp hin (k := 1) le_rfl (by simp)
  have hpop := insIf_pops (s := u) (by rw [hu]) hfp (by simp [hu, hregs]) h.stack
    (by simp [hu, hregs, h.nil]) (by simp [hu, hregs]) hfne hf hf' hm12 hm8 hm4
  refine ⟨_, hnew.trans hpop, rfl, ?_, ?_, ?_⟩
  · rw [humem]
    exact h.spare.inserted_new hoff hstop
  · simp [hu, hregs]
  · intro r hr
    by_cases hsp : r = .sp
    · simp [hsp]
    by_cases hlr : r = .lr
    · simp [hlr]
    have hne : r ≠ .r0 ∧ r ≠ .r1 ∧ r ≠ .r2 ∧ r ≠ .r3 := by
      revert hr
      cases r <;> decide
    simp [hu, hregs, hne, hsp, hlr]

/-! ## The recursion -/

/-- The list pointer and the return address are pushed, and the rest of the list is next. -/
theorem insElse_calls {N f d fp : Word} {ds : List Word} (h : Ready N f (d :: ds) s)
    (hpc : s.pc = (program base D).address .ins_else) (hfp : Frame (s.reg .sp) fp 8) :
    Runs (step base D) (Inside base D) s
      { s with
        pc := (program base D).address .insert
        reg := update (update (update s.reg .sp fp) .r1 (s.mem d)) .lr ((program base D).addr 80)
        mem := pushed s.mem fp 0 [s.reg .lr, d] } := by
  have hin : 8 ≤ frame (d :: ds).length := by
    rw [frame, List.length_cons]
    omega
  have h4 : Aligned (fp + 4#32) := hfp.aligned_slot h.stack rfl (by decide) rfl
  have h0 : Aligned fp := hfp.aligned h.stack rfl
  have hpush4 : s.reg .sp + -4#32 = fp + 4#32 := hfp.push_first
  have hpush0 : fp + 4#32 + -4#32 = fp := push_last fp
  obtain ⟨hlist, -, -⟩ := h.spare.list
  have hdmem : d ∈ f :: d :: ds := List.mem_cons_of_mem _ List.mem_cons_self
  obtain ⟨hal, -⟩ := h.spare.aligned d hdmem
  have hentry : s.pc = (program base D).addr 76 := hpc.trans (address_eq rfl)
  apply block 76 [.strPre .r1 .sp (-4), .strPre .lr .sp (-4), .ldr .r1 .r1 NEXT, .bl .insert]
    (by decide) (by decide) rfl rfl hentry
  have hnext : pushed s.mem fp 0 [s.reg .lr, d] d = s.mem d :=
    hfp.pushed_off le_rfl hin (h.spare.off d hdmem).1
  simp only [pushed, Nat.zero_add, BitVec.add_zero] at hnext
  simp -implicitDefEqProofs [execs, exec, State.next, State.goto, State.set, State.store, State.load, hpush4,
    hpush0, h4, h0, hentry, Program.addr_succ, hlist, NEXT, hal, hnext, pushed, -BitVec.reduceNeg]

theorem frame_cons {d : Word} {ds : List Word} : frame ds.length + 8 = frame (d :: ds).length := by
  rw [frame, frame, List.length_cons]
  omega

/-- The call with the rest of the list has been made. It changes the frame below the caller's and three
registers. -/
structure Descends (base : Word) (D : Data) (d fp : Word) (s u : State) : Prop where
  pc : u.pc = (program base D).address .insert
  sp : u.reg .sp = fp
  list : u.reg .r1 = s.mem d
  lr : u.reg .lr = (program base D).addr 80
  reg : ∀ r, r ≠ .sp → r ≠ .r1 → r ≠ .lr → u.reg r = s.reg r
  mem : u.mem = pushed s.mem fp 0 [s.reg .lr, d]

theorem insElse_descends {N f d fp : Word} {ds : List Word} (h : Ready N f (d :: ds) s)
    (hpc : s.pc = (program base D).address .ins_else) (hfp : Frame (s.reg .sp) fp 8) :
    ∃ u, Descends base D d fp s u ∧ Runs (step base D) (Inside base D) s u := by
  refine ⟨_, ?_, insElse_calls h hpc hfp⟩
  refine ⟨rfl, ?_, ?_, ?_, ?_, rfl⟩
  · simp
  · simp
  · simp
  · intro r hsp hr1 hlr
    simp [hsp, hr1, hlr]

/-- What was pushed is popped, and the cell is linked to what the call returned. -/
theorem insElse_pops {d lr sp fp : Word} (hpc : s.pc = (program base D).addr 80) (hfp : Frame sp fp 8)
    (hsp : s.reg .sp = fp) (hal : Aligned sp) (hnil : s.reg .r7 = NIL) (hne : s.reg .r0 ≠ NIL)
    (hd : Aligned d) (hlist : s.mem (fp + 4#32) = d) (hlr : s.mem fp = lr) :
    Runs (step base D) (Inside base D) s
      { s with
        pc := lr
        reg := update (update (update (update s.reg .r2 (s.reg .r1)) .lr lr) .sp sp) .r0 d
        flags := .compare (s.reg .r0) NIL
        mem := update s.mem d (s.reg .r0) } := by
  have hpop4 : fp + 4#32 + 4#32 = sp := hfp.pop_last
  have h4 : Aligned (fp + 4#32) := hfp.aligned_slot hal rfl (by decide) rfl
  have h0 : Aligned fp := hfp.aligned hal rfl
  obtain ⟨regs, hregs⟩ : ∃ regs, regs = update (update (update (update s.reg .r2 (s.reg .r1)) .lr
      lr) .r1 d) .sp sp := ⟨_, rfl⟩
  have hpop : Runs (step base D) (Inside base D) s
      { s with
        pc := (program base D).addr 85
        reg := regs
        flags := .compare (s.reg .r0) NIL } := by
    apply block 80 [.mov .r2 .r1, .ldrPost .lr .sp 4, .ldrPost .r1 .sp 4, .cmp .r0 .r7,
      .b .eq .out_of_nodes_error] (by decide) (by decide) rfl rfl hpc
    simp -implicitDefEqProofs [execs, exec, State.next, State.goto, State.set, State.load, hsp, hpop4, h4, h0,
      hlist, hlr, hpc, hnil, hne, Program.addr_succ, hregs]
    funext r
    cases r <;> simp
  refine hpop.trans ?_
  apply block 85 [.str .r0 .r1 NEXT, .mov .r0 .r1, .mov .r1 .r2, .bx .lr]
    (by decide) (by decide) rfl rfl rfl
  simp -implicitDefEqProofs [execs, exec, State.next, State.goto, State.set, State.store, hd, hregs, NEXT]
  funext r
  cases r <;> simp

theorem insElse_returns {N f d : Word} {ds : List Word} (h : Ready N f (d :: ds) s)
    (hpc : s.pc = (program base D).address .ins_else) (hgo : ¬ ¬ (data s.mem d).slt N)
    (ih : ∀ u, u.pc = (program base D).address .insert → Ready N f ds u →
      Reaches (step base D) (Inside base D) u (Returned N f ds u)) :
    Reaches (step base D) (Inside base D) s (Returned N f (d :: ds) s) := by
  obtain ⟨fp, hpush⟩ : ∃ fp, s.reg .sp + -8#32 = fp := ⟨_, rfl⟩
  have hdepth : frame ds.length + 8 = frame (d :: ds).length := frame_cons
  have hin : 8 ≤ frame (d :: ds).length := hdepth ▸ Nat.le_add_left ..
  have hfp : Frame (s.reg .sp) fp 8 := ⟨hin.trans h.room, hpush⟩
  obtain ⟨hal, -⟩ := h.spare.aligned d (List.mem_cons_of_mem _ List.mem_cons_self)
  -- The call is one with the rest of the list, below the frame.
  obtain ⟨u, hu, hcall⟩ := insElse_descends h hpc hfp
  have hoff : ∀ a, ¬ Below (s.reg .sp) (frame (d :: ds).length) a → u.mem a = s.mem a := by
    intro a ha
    rw [hu.mem]
    exact hfp.pushed_off le_rfl hin ha
  have hready : Ready N f ds u := by
    have hroom := h.room
    have hnat := hfp.toNat
    refine ⟨?_, ?_, ?_, ?_, ?_, ?_⟩
    · exact (hu.reg .r7 (by decide) (by decide) (by decide)).trans h.nil
    · exact (hu.reg .r0 (by decide) (by decide) (by decide)).trans h.number
    · exact (hu.reg .r2 (by decide) (by decide) (by decide)).trans h.free
    · rw [hu.sp, hu.list]
      exact h.spare.tail hfp hdepth.le hoff
    · exact hu.sp ▸ hfp.aligned h.stack rfl
    · rw [hu.sp]
      omega
  obtain ⟨t, hrun, ht⟩ := ih u hu.pc hready
  -- It keeps the frame, so what was pushed is there.
  have hins := ht.inserted
  rw [hu.sp] at hins
  have hpushed := hins
  rw [hu.mem] at hpushed
  have ht4 : t.mem (fp + 4#32) = d := h.spare.pushed_kept hfp hin hpushed (k := 1) le_rfl (by simp)
  have ht0 : t.mem fp = s.reg .lr := by
    rw [← BitVec.add_zero fp]
    exact h.spare.pushed_kept hfp hin hpushed (k := 0) le_rfl (by simp)
  have hpres {r : Reg} (hr : r ∈ Reg.preserved) (hsp : r ≠ .sp) (hlr : r ≠ .lr) :
      t.reg r = s.reg r := by
    have hr1 : r ≠ .r1 := by
      rintro rfl
      exact absurd hr (by decide)
    exact (ht.preserved r hr).trans (hu.reg r hsp hr1 hlr)
  have htsp : t.reg .sp = fp := (ht.preserved .sp (by decide)).trans hu.sp
  have htnil : t.reg .r7 = NIL := (hpres (by decide) (by decide) (by decide)).trans h.nil
  have htpc : t.pc = (program base D).addr 80 := ht.pc.trans hu.lr
  have hpop := insElse_pops htpc hfp htsp h.stack htnil hins.ne_zero hal ht4 ht0
  refine ⟨_, (hcall.trans hrun).trans hpop, rfl, ?_, ?_, ?_⟩
  · exact h.spare.inserted_later hfp hdepth.le hoff hgo hins
  · have hfree : t.reg .r1 = s.mem f := by
      rw [ht.free]
      exact hoff f (h.spare.off f List.mem_cons_self).1
    simpa using hfree
  · intro r hr
    by_cases hsp : r = .sp
    · simp [hsp]
    by_cases hlr : r = .lr
    · simp [hlr]
    have hother : r ≠ .r0 ∧ r ≠ .r1 ∧ r ≠ .r2 := by
      revert hr
      cases r <;> decide
    simp [hsp, hlr, hother, hpres hr hsp hlr]

/-- The comparison at the entry of `insert` changes only the flags and a scratch register. -/
structure Compared (s t : State) : Prop where
  mem : t.mem = s.mem
  reg : ∀ r, r ≠ .r3 → t.reg r = s.reg r

theorem Compared.ready {N f : Word} {ds : List Word} (hst : Compared s t) (h : Ready N f ds s) :
    Ready N f ds t := by
  obtain ⟨hmem, hreg⟩ := hst
  have hsp : t.reg .sp = s.reg .sp := hreg .sp (by decide)
  have hr1 : t.reg .r1 = s.reg .r1 := hreg .r1 (by decide)
  refine ⟨?_, ?_, ?_, ?_, hsp ▸ h.stack, hsp ▸ h.room⟩
  · exact (hreg .r7 (by decide)).trans h.nil
  · exact (hreg .r0 (by decide)).trans h.number
  · exact (hreg .r2 (by decide)).trans h.free
  · rw [hmem, hsp, hr1]
    exact h.spare

theorem Compared.returned {N f : Word} {ds : List Word} {u : State} (hst : Compared s t)
    (h : Returned N f ds t u) : Returned N f ds s u := by
  obtain ⟨hmem, hreg⟩ := hst
  have hsp : t.reg .sp = s.reg .sp := hreg .sp (by decide)
  refine ⟨?_, ?_, ?_, ?_⟩
  · exact h.pc.trans (hreg .lr (by decide))
  · rw [← hmem, ← hsp]
    exact h.inserted
  · exact hmem ▸ h.free
  · intro r hr
    apply (h.preserved r hr).trans
    apply hreg
    rintro rfl
    exact absurd hr (by decide)

theorem insert_empty (hpc : s.pc = (program base D).address .insert) (hlist : s.reg .r1 = NIL)
    (hnil : s.reg .r7 = NIL) :
    Runs (step base D) (Inside base D) s
      { s with pc := (program base D).address .ins_if, flags := .compare NIL NIL } := by
  apply block 52 [.cmp .r1 .r7, .b .eq .ins_if] (by decide) (by decide) rfl rfl (hpc.trans (address_eq rfl))
  simp [execs, exec, hlist, hnil, State.next, State.goto]

/-- The value is compared with the first of the list. -/
theorem insert_compares {d v : Word} (hpc : s.pc = (program base D).address .insert) (hlist : s.reg .r1 = d)
    (hnil : s.reg .r7 = NIL) (hne : d ≠ NIL) (hal : Aligned (d + 4#32)) (hv : data s.mem d = v) :
    Runs (step base D) (Inside base D) s
      { s with
        pc := (program base D).address (if v.slt (s.reg .r0) then .ins_else else .ins_if)
        reg := update s.reg .r3 v
        flags := .compare (s.reg .r0) v } := by
  have hentry : s.pc = (program base D).addr 52 := hpc.trans (address_eq rfl)
  have htest : Runs (step base D) (Inside base D) s
      { s with pc := (program base D).addr 54, flags := .compare d NIL } := by
    apply block 52 [.cmp .r1 .r7, .b .eq .ins_if] (by decide) (by decide) rfl rfl hentry
    simp [execs, exec, hlist, hnil, hne, State.next, State.goto, hentry, Program.addr_succ]
  apply htest.trans
  apply block 54 [.ldr .r3 .r1 DATA, .cmp .r0 .r3, .b .gt .ins_else] (by decide) (by decide) rfl rfl rfl
  rw [data] at hv
  obtain ⟨N, hN⟩ : ∃ N, s.reg .r0 = N := ⟨_, rfl⟩
  have hfall : (program base D).address .ins_if = (program base D).addr 57 := address_eq rfl
  rw [hN]
  cases hgo : v.slt N <;>
    simp [execs, exec, State.next, State.goto, State.set, State.load, hlist, hal, DATA, hN,
      Program.addr_succ, hv, hfall, hgo]

/-- **`insert`.** The recursion follows the list; the frame of each call is below its caller's. -/
theorem insert_returns {N f : Word} {ds : List Word} (h : Ready N f ds s)
    (hpc : s.pc = (program base D).address .insert) :
    Reaches (step base D) (Inside base D) s (Returned N f ds s) := by
  induction ds generalizing s with
  | nil =>
    have hst : Compared s { s with pc := (program base D).address .ins_if, flags := .compare NIL NIL } :=
      ⟨rfl, fun r _ => rfl⟩
    apply (insert_empty hpc h.spare.list h.nil).reaches
    apply (insIf_returns (hst.ready h) rfl (by intro d hd; cases hd)).mono
    intro u hu
    exact hst.returned hu
  | cons d ds ih =>
    obtain ⟨hlist, hd, -⟩ := h.spare.list
    obtain ⟨-, hal⟩ := h.spare.aligned d (List.mem_cons_of_mem _ List.mem_cons_self)
    obtain ⟨v, hv⟩ : ∃ v, data s.mem d = v := ⟨_, rfl⟩
    have hst (pc : Word) : Compared s { s with pc, reg := update s.reg .r3 v, flags := .compare N v } := by
      refine ⟨rfl, fun r hr => ?_⟩
      exact Function.update_of_ne hr ..
    have hcompare := insert_compares hpc hlist h.nil hd hal hv
    rw [h.number] at hcompare
    cases hgo : v.slt N with
    | true =>
      rw [hgo, if_pos rfl] at hcompare
      apply hcompare.reaches
      apply (insElse_returns ((hst _).ready h) rfl _ fun u hu hready => ih hready hu).mono
      · intro u hu
        exact (hst _).returned hu
      · rw [hv, hgo]
        exact not_not_intro rfl
    | false =>
      rw [hgo, if_neg Bool.false_ne_true] at hcompare
      apply hcompare.reaches
      apply (insIf_returns ((hst _).ready h) rfl _).mono
      · intro u hu
        exact (hst _).returned hu
      · intro e he
        cases he
        rw [hv, hgo]
        exact Bool.false_ne_true

end Blocks

/-! ## The program -/

/-- Where the heap is: word-aligned and not at 0. -/
structure Heap (heap : Word) (k : ℕ) : Prop where
  two : 2 ≤ k
  aligned : Aligned heap
  ne_nil : heap ≠ NIL
  fits : heap.toNat + 8 * k ≤ 2 ^ 32

theorem Heap.area {heap : Word} {k : ℕ} (h : Heap heap k) : Routines.Area heap k :=
  ⟨Nat.le_of_succ_le h.two, h.aligned, h.ne_nil, h.fits⟩

/-- A call of `mknodes`, with room for its frame on the stack, which is not in the heap. -/
structure CallsMknodes (base : Word) (D : Data) (heap : Word) (k : ℕ) (s : State) : Prop where
  pc : s.pc = (program base D).address .mknodes
  ready : ReadyMknodes heap k s
  back : ¬ (program base D).Within 26 98 (s.reg .lr)

/-- A call of `insert` with a list of `n` cells. -/
structure CallsInsert (base : Word) (D : Data) (heap : Word) (k : ℕ) (N list free : Word) (n : ℕ)
    (s : State) : Prop where
  pc : s.pc = (program base D).address .insert
  number : s.reg .r0 = N
  list : s.reg .r1 = list
  free : s.reg .r2 = free
  nil : s.reg .r7 = NIL
  stack : Aligned (s.reg .sp)
  room : frame n ≤ (s.reg .sp).toNat
  off : ∀ a, Below (s.reg .sp) (frame n) a → ¬ InCells heap k a
  back : ¬ (program base D).Within 26 98 (s.reg .lr)

def routines (base : Word) (D : Data) : Routines State where
  step := step base D
  inside := Inside base D
  mem := State.mem
  making := CallsMknodes base D
  made s := s.reg .r0
  inserting := CallsInsert base D
  list s := s.reg .r0
  free s := s.reg .r1
  returned s t := t.pc = s.reg .lr ∧ ∀ r ∈ Reg.preserved, t.reg r = s.reg r
  makeFrame s := Below (s.reg .sp) 8
  insertFrame n s := Below (s.reg .sp) (frame n)

theorem routines_makes (base : Word) (D : Data) {heap : Word} {k : ℕ} (h : Routines.Area heap k)
    (hk2 : 2 ≤ k) : (routines base D).Makes heap k := by
  intro s hs
  have hlast : k - 1 + 1 = k := Nat.sub_add_cancel h.one
  obtain ⟨m, hm, hrun⟩ := mknodes_runs h.fits h.aligned hk2 hs.pc hs.ready
  refine ⟨_, ⟨hrun, hs.back⟩, ⟨rfl, ?_⟩, ?_, ?_, ?_⟩
  · intro r hr
    have hne : r ≠ .r0 ∧ r ≠ .r3 := by
      revert hr
      cases r <;> decide
    simp [hne]
  · simp [routines]
  · have hchain := chain_link (m := m) h.fits h.ne_zero (Nat.lt_of_succ_le hlast.le)
    rw [hlast] at hchain
    simpa [routines, NIL] using hchain
  · intro a ha hframe
    exact (link_outside h.fits (Nat.lt_of_succ_le hlast.le) ha).trans (hm a hframe)

theorem routines_meet (base : Word) (D : Data) {heap : Word} {k : ℕ} (h : Heap heap k) :
    (routines base D).Meets heap k where
  fits := h.fits
  makes s hs := by
    obtain ⟨t, ht, hret, -, hrest⟩ := routines_makes base D h.area h.two s hs
    exact ⟨t, ht, hret, hrest⟩
  apart N list free n s hs a ha hframe := hs.off a hframe ha
  inserts N list f ds s hs hlist hfresh hnodup hcells hf := by
    have hready : Ready N f ds s := by
      refine ⟨hs.nil, hs.number, hs.free, ?_, hs.stack, hs.room⟩
      rw [hs.list]
      exact spare_of_cells h.fits h.aligned hs.off hlist hf hfresh hnodup hcells
    obtain ⟨t, hrun, ht⟩ := insert_returns hready hs.pc
    have hout : ¬ Inside base D t := by
      unfold Inside
      rw [ht.pc]
      exact hs.back
    refine ⟨t, ⟨hrun, hout⟩, ⟨ht.pc, ht.preserved⟩, ht.free, (fun v => ¬ v.slt N), inferInstance, ?_, ?_,
      ht.inserted⟩
    · intro v hv
      exact not_lt.mp fun hlt => hv (BitVec.slt_iff_toInt_lt.mpr hlt)
    · intro v hv
      exact (BitVec.slt_iff_toInt_lt.mp (not_not.mp hv)).le

end UnionCollegeCode.SystemArchitecture.Lab7.ArmList
