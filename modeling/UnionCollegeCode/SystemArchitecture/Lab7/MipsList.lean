import UnionCollegeCode.Lib.ListRoutines
import UnionCollegeCode.SystemArchitecture.Mips

/-!
# `linked_list.asm`

The program, routine by routine, and what `mknodes`, `new` and `insert` do. `Ready` is what `insert` finds
at its entry and `Returned` what it leaves behind; the proof is by induction on the list, as the recursion
goes, and the frame of a call is the 12 bytes of each cell passed and the 8 of the last call.
-/

set_option autoImplicit false

namespace UnionCollegeCode.SystemArchitecture.Lab7.MipsList

open Function (update)
open Lib.Assembly Lib.CellList Mips

def NEXT : Word := 0
def DATA : Word := 4
def NODESIZE : Word := 8
def HEAPSIZE : Word := 120
def NIL : Word := 0

inductive Label
  | main | add_elems | print_elems
  | mknodes | mkloop
  | new | index_out_of_bounds_exception
  | insert | ins_if | ins_else | out_of_nodes_error
  | print | prloop | prdone
  deriving DecidableEq

/-- Where the assembler puts the data. -/
structure Data where
  comma : Word
  input : Word
  inp_end : Word
  heap : Word
  nofree : Word

abbrev Text := List (Line Label (Instr Label))

section Text

open Line Instr Reg

variable (D : Data)

def mainText : Text :=
  [label .main,
    instr (addi sp sp (-4)),
    instr (sw ra 0 sp),
    instr (li s7 NIL),
    instr (la a0 D.heap),
    instr (li a1 HEAPSIZE),
    instr (li a2 NODESIZE),
    instr (jal .mknodes),
    instr (move a2 v0),
    instr (move a1 s7),
    instr (la s0 D.input),
    instr (la s1 D.inp_end),
  label .add_elems,
    instr (bge s0 s1 .print_elems),
    instr (lw a0 0 s0),
    instr (jal .insert),
    instr (move a2 v1),
    instr (move a1 v0),
    instr (addi s0 s0 4),
    instr (j .add_elems),
  label .print_elems,
    instr (move a0 v0),
    instr (jal .print),
    instr (lw ra 0 sp),
    instr (addi sp sp 4),
    instr (jr ra)]

def mknodesText : Text :=
  [label .mknodes,
    instr (add t0 a0 a1),
    instr (sub t0 t0 a2),
    instr (move v0 t0),
  label .mkloop,
    instr (sub t1 t0 a2),
    instr (sw t1 NEXT t0),
    instr (move t0 t1),
    instr (bne t0 a0 .mkloop),
    instr (sw s7 NEXT t1),
    instr (jr ra)]

def newText : Text :=
  [label .new,
    instr (beq a0 s7 .index_out_of_bounds_exception),
    instr (move v0 a0),
    instr (lw v1 NEXT a0),
    instr (sw zero NEXT v0),
    instr (jr ra),
  label .index_out_of_bounds_exception,
    instr (move v0 s7),
    instr (move v1 s7),
    instr (jr ra)]

def insertText : Text :=
  [label .insert,
    instr (beq a1 s7 .ins_if),
    instr (lw t0 DATA a1),
    instr (slt t1 t0 a0),
    instr (bge a0 t0 .ins_else),
  label .ins_if,
    instr (addi sp sp (-8)),
    instr (sw a0 4 sp),
    instr (sw ra 0 sp),
    instr (move a0 a2),
    instr (jal .new),
    instr (lw a0 4 sp),
    instr (lw ra 0 sp),
    instr (addi sp sp 8),
    instr (beq v0 s7 .out_of_nodes_error),
    instr (sw a0 DATA v0),
    instr (sw a1 NEXT v0),
    instr (jr ra),
  label .ins_else,
    instr (addi sp sp (-12)),
    instr (sw a1 8 sp),
    instr (sw a0 4 sp),
    instr (sw ra 0 sp),
    instr (lw a1 NEXT a1),
    instr (jal .insert),
    instr (lw a1 8 sp),
    instr (lw a0 4 sp),
    instr (lw ra 0 sp),
    instr (addi sp sp 12),
    instr (beq v0 s7 .out_of_nodes_error),
    instr (sw v0 NEXT a1),
    instr (move v0 a1),
    instr (jr ra),
  label .out_of_nodes_error,
    instr (la a0 D.nofree),
    instr (li v0 PR_STR),
    instr syscall,
    instr (addi a0 zero 17),
    instr syscall]

def printText : Text :=
  [label .print,
    instr (move t0 a0),
  label .prloop,
    instr (beq t0 s7 .prdone),
    instr (li v0 PR_INT),
    instr (lw a0 DATA t0),
    instr syscall,
    instr (li v0 PR_STR),
    instr (la a0 D.comma),
    instr syscall,
    instr (lw t0 NEXT t0),
    instr (j .prloop),
  label .prdone,
    instr (move v0 zero),
    instr (jr ra)]

def text : Text := mainText D ++ mknodesText ++ newText ++ insertText D ++ printText D

end Text

/-- The program, at a base address. -/
def program (base : Word) (D : Data) : Program Label (Instr Label) := ⟨base, text D⟩

variable {base : Word} {D : Data}

def step (base : Word) (D : Data) : State → Option State := (program base D).step exec State.pc

/-- Control is in one of `mknodes`, `new` and `insert`. -/
def Inside (base : Word) (D : Data) (s : State) : Prop := (program base D).Within 23 75 s.pc

example : offset .mknodes (text D) = 23 ∧ offset .print (text D) = 75 := ⟨rfl, rfl⟩

section Blocks

variable {s t : State} {Q : State → Prop}

theorem address_eq {l : Label} {i : ℕ} (h : offset l (text D) = i) :
    (program base D).address l = (program base D).addr i := congrArg (program base D).addr h

/-- The instructions at `i` run in one go. -/
theorem block_within {lo hi : ℕ} (i : ℕ) (code : List (Instr Label)) (hlo : lo ≤ i)
    (hhi : i + code.length ≤ hi) (hmax : hi ≤ 2 ^ 30)
    (hcode : ((instrs (text D)).drop i).take code.length = code)
    (hstraight : code.dropLast.all Instr.straight = true) (hpc : s.pc = (program base D).addr i)
    (h : execs exec (program base D) code s = some t) :
    Runs (step base D) (fun u => (program base D).Within lo hi u.pc) s t :=
  runs_code falls_of_straight hlo hhi hmax hcode hstraight hpc h

theorem block (i : ℕ) (code : List (Instr Label)) (hlo : 23 ≤ i) (hhi : i + code.length ≤ 75)
    (hcode : ((instrs (text D)).drop i).take code.length = code)
    (hstraight : code.dropLast.all Instr.straight = true) (hpc : s.pc = (program base D).addr i)
    (h : execs exec (program base D) code s = some t) : Runs (step base D) (Inside base D) s t :=
  block_within i code hlo hhi (by decide) hcode hstraight hpc h

/-- Control is in the routines, before `out_of_nodes_error`. -/
def Working (base : Word) (D : Data) (s : State) : Prop := (program base D).Within 23 70 s.pc

example : offset .out_of_nodes_error (text D) = 70 := rfl

theorem Working.inside (h : Working base D s) : Inside base D s := by
  obtain ⟨i, hlo, hhi, hpc⟩ := h
  exact ⟨i, hlo, hhi.trans (by decide), hpc⟩

theorem works (i : ℕ) (code : List (Instr Label)) (hlo : 23 ≤ i) (hhi : i + code.length ≤ 70)
    (hcode : ((instrs (text D)).drop i).take code.length = code)
    (hstraight : code.dropLast.all Instr.straight = true) (hpc : s.pc = (program base D).addr i)
    (h : execs exec (program base D) code s = some t) : Runs (step base D) (Working base D) s t :=
  block_within i code hlo hhi (by decide) hcode hstraight hpc h

/-! ## `mknodes` -/

section Mknodes

/-- One round links a block to the one before it. -/
theorem round_runs {heap p : Word} (hpc : s.pc = (program base D).address .mkloop)
    (ha0 : s.reg .a0 = heap) (ha2 : s.reg .a2 = NODESIZE) (ht0 : s.reg .t0 = p) (hp : Aligned p)
    (hsub : BitVec.ssubOverflow p NODESIZE = false) :
    Runs (step base D) (Inside base D) s
      { s with
        pc := if p - NODESIZE = heap then (program base D).addr 30 else (program base D).address .mkloop
        reg := update (update s.reg .t1 (p - NODESIZE)) .t0 (p - NODESIZE)
        mem := update s.mem p (p - NODESIZE) } := by
  apply block 26 [.sub .t1 .t0 .a2, .sw .t1 NEXT .t0, .move .t0 .t1, .bne .t0 .a0 .mkloop]
    (by decide) (by decide) rfl rfl (hpc.trans (address_eq rfl))
  by_cases hlast : p - NODESIZE = heap
  · simp [execs, exec, State.next, State.goto, State.store, branch, ht0, ha0, ha2, hsub, hp, NEXT, hlast,
      hpc, address_eq, Program.addr_succ]
    rfl
  · simp [execs, exec, State.next, State.goto, State.store, branch, ht0, ha0, ha2, hsub, hp, NEXT, hlast]

/-- The end of the heap is a signed word, and the size of the heap is a positive one. -/
structure Signed (heap : Word) (k : ℕ) : Prop where
  size : 8 * k < 2 ^ 31
  last : heap.toInt + 8 * k < 2 ^ 31

variable {heap : Word} {k j : ℕ} (hk : Signed heap k) (hal : Aligned heap)

include hk in
theorem Signed.toInt_cell (hj : j ≤ k) : (cell heap j).toInt = heap.toInt + 8 * j := by
  have hsize := hk.size
  have hlast := hk.last
  exact Lib.CellList.toInt_cell (by omega) (by omega)

include hk in
theorem Signed.sub (hj : j + 1 ≤ k) : BitVec.ssubOverflow (cell heap (j + 1)) NODESIZE = false := by
  have hint := hk.toInt_cell hj
  have hsize : NODESIZE.toInt = 8 := rfl
  have hlast := hk.last
  have hheap := BitVec.le_toInt heap
  rw [ssubOverflow_eq_false_iff, hint, hsize]
  omega

include hk hal

theorem mkloop_runs (hj : j + 1 < k) (hpc : s.pc = (program base D).address .mkloop)
    (ha0 : s.reg .a0 = heap) (ha2 : s.reg .a2 = NODESIZE) (ht0 : s.reg .t0 = cell heap (j + 1)) :
    Runs (step base D) (Inside base D) s
      { s with
        pc := (program base D).addr 30
        reg := update (update s.reg .t1 heap) .t0 heap
        mem := link heap s.mem (j + 1) } := by
  have hback (i : ℕ) : cell heap (i + 1) - NODESIZE = cell heap i := cell_succ
  induction j generalizing s with
  | zero =>
    have hround := round_runs hpc ha0 ha2 ht0 (cell_aligned hal) (hk.sub hj.le)
    rw [hback, cell_zero, if_pos rfl] at hround
    rw [link, link, cell_zero]
    exact hround
  | succ j ih =>
    have hlt : j + 1 < k := Nat.lt_of_succ_lt hj
    have hsize := hk.size
    have hround := round_runs hpc ha0 ha2 ht0 (cell_aligned hal) (hk.sub hj.le)
    rw [hback, if_neg (cell_ne_base (Nat.succ_pos j) (by omega))] at hround
    apply hround.trans
    have hrest := ih (s := { s with
        pc := (program base D).address .mkloop
        reg := update (update s.reg .t1 (cell heap (j + 1))) .t0 (cell heap (j + 1))
        mem := update s.mem (cell heap (j + 1 + 1)) (cell heap (j + 1)) })
      hlt rfl (by simpa using ha0) (by simpa using ha2) (by simp)
    have hreg : update (update (update (update s.reg .t1 (cell heap (j + 1))) .t0
        (cell heap (j + 1))) .t1 heap) .t0 heap = update (update s.reg .t1 heap) .t0 heap := by
      funext r
      by_cases h0 : r = .t0 <;> by_cases h1 : r = .t1 <;> simp [h0, h1]
    rw [hreg] at hrest
    exact hrest

/-- **`mknodes`.** -/
theorem mknodes_runs (hk2 : 2 ≤ k) (hpc : s.pc = (program base D).address .mknodes)
    (ha0 : s.reg .a0 = heap) (ha1 : s.reg .a1 = BitVec.ofNat 32 (8 * k))
    (ha2 : s.reg .a2 = NODESIZE) (hnil : s.reg .s7 = NIL) :
    Runs (step base D) (Inside base D) s
      { s with
        pc := s.reg .ra
        reg := update (update (update s.reg .v0 (cell heap (k - 1))) .t1 heap) .t0 heap
        mem := update (link heap s.mem (k - 1)) heap 0 } := by
  obtain ⟨j, rfl⟩ : ∃ j, k = j + 2 := Nat.exists_eq_add_of_le' hk2
  have htop : heap + BitVec.ofNat 32 (8 * (j + 2)) - NODESIZE = cell heap (j + 1) := cell_succ
  have hadd : BitVec.saddOverflow heap (BitVec.ofNat 32 (8 * (j + 2))) = false := by
    have hsize := hk.size
    have hlast := hk.last
    have hheap := BitVec.le_toInt heap
    have hint : (BitVec.ofNat 32 (8 * (j + 2))).toInt = 8 * (j + 2) := by
      rw [BitVec.toInt_ofNat']
      simp [Int.bmod]
      omega
    rw [saddOverflow_eq_false_iff, hint]
    omega
  have hsub : BitVec.ssubOverflow (heap + BitVec.ofNat 32 (8 * (j + 2))) NODESIZE = false :=
    hk.sub le_rfl
  obtain ⟨regs, hregs⟩ : ∃ regs, regs = update (update s.reg .t0 (cell heap (j + 1))) .v0
      (cell heap (j + 1)) := ⟨_, rfl⟩
  have hstart : Runs (step base D) (Inside base D) s
      { s with pc := (program base D).address .mkloop, reg := regs } := by
    apply block 23 [.add .t0 .a0 .a1, .sub .t0 .t0 .a2, .move .v0 .t0]
      (by decide) (by decide) rfl rfl (hpc.trans (address_eq rfl))
    have hloop : (program base D).address .mkloop = (program base D).addr 26 := address_eq rfl
    have hentry : s.pc = (program base D).addr 23 := hpc.trans (address_eq rfl)
    simp [execs, exec, State.next, State.goto, ha0, ha1, ha2, hadd, hsub, htop, hloop, hentry, hregs,
      Program.addr_succ]
  have hloop := mkloop_runs (D := D)
    (s := { s with pc := (program base D).address .mkloop, reg := regs }) hk hal (j := j) (by omega) rfl
    (by simp [hregs, ha0]) (by simp [hregs, ha2]) (by simp [hregs])
  apply hstart.trans
  apply hloop.trans
  apply block 30 [.sw .s7 NEXT .t1, .jr .ra] (by decide) (by decide) rfl rfl rfl
  simp [execs, exec, State.next, State.goto, State.store, NEXT, hal, hregs, hnil]
  refine ⟨?_, rfl⟩
  funext r
  by_cases h0 : r = .t0 <;> by_cases h1 : r = .t1 <;> by_cases hv : r = .v0 <;> simp [h0, h1, hv]

end Mknodes

/-! ## `new` -/

theorem new_runs (hpc : s.pc = (program base D).address .new) (hnil : s.reg .s7 = NIL)
    (hfree : s.reg .a0 ≠ NIL) (hal : Aligned (s.reg .a0)) :
    Runs (step base D) (Inside base D) s
      { s with
        pc := s.reg .ra
        reg := update (update s.reg .v0 (s.reg .a0)) .v1 (s.mem (s.reg .a0))
        mem := update s.mem (s.reg .a0) 0 } := by
  have htest : Runs (step base D) (Inside base D) s (s.goto ((program base D).addr 33)) := by
    apply block 32 [.beq .a0 .s7 .index_out_of_bounds_exception] (by decide) (by decide) rfl rfl hpc
    simp [execs, exec, branch, hnil, hfree, State.next, hpc]
    exact congrArg s.goto (program base D).addr_succ
  apply htest.trans
  apply block 33 [.move .v0 .a0, .lw .v1 NEXT .a0, .sw .zero NEXT .v0, .jr .ra]
    (by decide) (by decide) rfl rfl rfl
  simp [execs, exec, State.next, State.goto, State.load, State.store, NEXT, hal]

/-- The bytes of stack that an insertion in a list of `n` cells needs. -/
def frame (n : ℕ) : ℕ := 12 * n + 8

/-- `insert` is called with the value `N`, the list `ds` and the free cell `f`. -/
structure Ready (N f : Word) (ds : List Word) (s : State) : Prop where
  nil : s.reg .s7 = NIL
  number : s.reg .a0 = N
  free : s.reg .a2 = f
  spare : Spare (s.reg .sp) (frame ds.length) s.mem (s.reg .a1) f ds
  stack : Aligned (s.reg .sp)
  room : frame ds.length ≤ (s.reg .sp).toNat
  user : (s.reg .sp).toNat < 2 ^ 31

structure Returned (N f : Word) (ds : List Word) (s t : State) : Prop where
  pc : t.pc = s.reg .ra
  inserted : Inserted (Below (s.reg .sp) (frame ds.length)) (fun v => N.slt v) ds f N s.mem t.mem
    (t.reg .v0)
  free : t.reg .v1 = s.mem f
  preserved : ∀ r ∈ Reg.preserved, t.reg r = s.reg r
  out : t.out = s.out

/-- `addi $sp, $sp, -i` -/
theorem addi_push {sp fp : Word} {i : ℕ} (h : Frame sp fp i) (hsp : sp.toNat < 2 ^ 31) :
    BitVec.saddOverflow sp (-BitVec.ofNat 32 i) = false := by
  have hroom := h.room
  have hint : (-BitVec.ofNat 32 i).toInt = -i := by
    rw [BitVec.toInt_neg, BitVec.toInt_ofNat']
    simp [Int.bmod]
    omega
  apply saddOverflow_eq_false hsp
  · omega
  · omega

theorem addi_pop {sp fp : Word} {i : ℕ} (h : Frame sp fp i) (hsp : sp.toNat < 2 ^ 31) :
    BitVec.saddOverflow fp (BitVec.ofNat 32 i) = false := by
  have hroom := h.room
  have hfp := h.toNat
  have hint : (BitVec.ofNat 32 i).toInt = i := by
    rw [BitVec.toInt_ofNat']
    simp [Int.bmod]
    omega
  apply saddOverflow_eq_false
  · omega
  · omega
  · omega

/-- The value and the return address are pushed, and `new` is called. -/
theorem insIf_calls {fp : Word} (hpc : s.pc = (program base D).address .ins_if)
    (hfp : Frame (s.reg .sp) fp 8) (hal : Aligned (s.reg .sp)) (huser : (s.reg .sp).toNat < 2 ^ 31) :
    Runs (step base D) (Working base D) s
      { s with
        pc := (program base D).address .new
        reg := update (update (update s.reg .sp fp) .a0 (s.reg .a2)) .ra ((program base D).addr 49)
        mem := pushed s.mem fp 0 [s.reg .ra, s.reg .a0] } := by
  have h4 : Aligned (fp + 4#32) := hfp.aligned_slot hal rfl (by decide) rfl
  have h0 : Aligned fp := hfp.aligned hal rfl
  have hpush : s.reg .sp + -8#32 = fp := hfp.eq
  have hentry : s.pc = (program base D).addr 44 := hpc.trans (address_eq rfl)
  apply works 44 [.addi .sp .sp (-8), .sw .a0 4 .sp, .sw .ra 0 .sp, .move .a0 .a2, .jal .new]
    (by decide) (by decide) rfl rfl hentry
  simp [execs, exec, State.next, State.goto, State.store, addi_push hfp huser, hpush, h4, h0, hentry,
    Program.addr_succ, pushed, -BitVec.reduceNeg]

/-- What was pushed is popped, and the cell is linked before the list. -/
theorem insIf_pops {N f ra sp fp : Word} (hpc : s.pc = (program base D).addr 49)
    (hfp : Frame sp fp 8) (hsp : s.reg .sp = fp) (hal : Aligned sp) (huser : sp.toNat < 2 ^ 31)
    (hnil : s.reg .s7 = NIL) (hv0 : s.reg .v0 = f) (hne : f ≠ NIL) (hf : Aligned f)
    (hf' : Aligned (f + 4#32)) (hN : s.mem (fp + 4#32) = N) (hra : s.mem fp = ra) :
    Runs (step base D) (Inside base D) s
      { s with
        pc := ra
        reg := update (update (update s.reg .a0 N) .ra ra) .sp sp
        mem := update (update s.mem (f + 4#32) N) f (s.reg .a1) } := by
  have h4 : Aligned (fp + 4#32) := hfp.aligned_slot hal rfl (by decide) rfl
  have h0 : Aligned fp := hfp.aligned hal rfl
  have hpop : Runs (step base D) (Inside base D) s
      { s with
        pc := (program base D).addr 53
        reg := update (update (update s.reg .a0 N) .ra ra) .sp sp } := by
    apply block 49 [.lw .a0 4 .sp, .lw .ra 0 .sp, .addi .sp .sp 8, .beq .v0 .s7 .out_of_nodes_error]
      (by decide) (by decide) rfl rfl hpc
    simp [execs, exec, State.next, State.goto, State.load, branch, addi_pop hfp huser, hfp.pop, h4, h0,
      Program.addr_succ, hsp, hpc, hnil, hv0, hne, -BitVec.reduceNeg, hN, hra]
  refine hpop.trans ?_
  apply block 53 [.sw .a0 DATA .v0, .sw .a1 NEXT .v0, .jr .ra] (by decide) (by decide) rfl rfl rfl
  simp [execs, exec, State.next, State.goto, State.store, hf, hf', hv0, DATA, NEXT]

theorem insIf_returns {N f : Word} {ds : List Word} (h : Ready N f ds s)
    (hpc : s.pc = (program base D).address .ins_if)
    (hstop : ∀ d ∈ ds.head?, N.slt (data s.mem d)) :
    Reaches (step base D) (Inside base D) s (Returned N f ds s) := by
  obtain ⟨fp, hpush⟩ : ∃ fp, s.reg .sp + -8#32 = fp := ⟨_, rfl⟩
  have hin : 8 ≤ frame ds.length := Nat.le_add_left ..
  have hfp : Frame (s.reg .sp) fp 8 := ⟨hin.trans h.room, hpush⟩
  obtain ⟨hf, hf'⟩ := h.spare.aligned f List.mem_cons_self
  have hfne : f ≠ NIL := h.spare.free_ne
  have hcall := (insIf_calls hpc hfp h.stack h.user).mono fun _ => Working.inside
  rw [h.free, h.number] at hcall
  obtain ⟨mem, hmem⟩ : ∃ mem, mem = pushed s.mem fp 0 [s.reg .ra, N] := ⟨_, rfl⟩
  rw [← hmem] at hcall
  have hoff : ∀ a, ¬ Below (s.reg .sp) (frame ds.length) a → mem a = s.mem a := by
    intro a ha
    rw [hmem]
    exact hfp.pushed_off le_rfl hin ha
  -- `new` returns the free cell.
  obtain ⟨regs, hregs⟩ : ∃ regs, regs = update (update (update (update (update s.reg .sp fp) .a0 f) .ra
      ((program base D).addr 49)) .v0 f) .v1 (s.mem f) := ⟨_, rfl⟩
  have hnew : Runs (step base D) (Inside base D) s
      { s with pc := (program base D).addr 49, reg := regs, mem := update mem f 0 } := by
    refine hcall.trans ?_
    have hruns := new_runs (D := D) (s := { s with
        pc := (program base D).address .new
        reg := update (update (update s.reg .sp fp) .a0 f) .ra ((program base D).addr 49)
        mem := mem }) rfl h.nil hfne hf
    have hfree : mem f = s.mem f := hoff f (h.spare.off f List.mem_cons_self).1
    simpa [hfree, hregs] using hruns
  -- It is not in the frame, so what was pushed is there.
  have hm4 : update mem f 0#32 (fp + 4#32) = N := by
    rw [hmem]
    exact h.spare.pushed_update hfp hin (k := 1) le_rfl (by simp)
  have hm0 : update mem f 0#32 fp = s.reg .ra := by
    rw [hmem]
    exact (congrArg _ (BitVec.add_zero fp).symm).trans
      (h.spare.pushed_update hfp hin (k := 0) le_rfl (by simp))
  have hpop := insIf_pops
    (s := { s with pc := (program base D).addr 49, reg := regs, mem := update mem f 0 }) rfl hfp
    (by simp [hregs]) h.stack h.user (by simp [hregs, h.nil]) (by simp [hregs]) hfne hf hf' hm4 hm0
  refine ⟨_, hnew.trans hpop, rfl, ?_, ?_, ?_, rfl⟩
  · have hv0 : update (update (update regs .a0 N) .ra (s.reg .ra)) .sp (s.reg .sp) .v0 = f := by
      simp [hregs]
    have ha1 : regs .a1 = s.reg .a1 := by simp [hregs]
    change Inserted _ _ ds f N s.mem (update (update (update mem f 0) (f + 4#32) N) f (regs .a1))
      (update (update (update regs .a0 N) .ra (s.reg .ra)) .sp (s.reg .sp) .v0)
    rw [hv0, ha1]
    exact h.spare.inserted_new hoff hstop
  · simp [hregs]
  · intro r hr
    simp only [Reg.preserved, List.mem_cons, List.not_mem_nil, or_false] at hr
    rcases hr with rfl | rfl | rfl | rfl | rfl | rfl | rfl | rfl | rfl | rfl | rfl | rfl <;>
      simp [hregs]

/-! ## The recursion -/

/-- The list pointer, the value and the return address are pushed, and the rest of the list is next. -/
theorem insElse_calls {d fp : Word} (hpc : s.pc = (program base D).address .ins_else)
    (hfp : Frame (s.reg .sp) fp 12) (hal : Aligned (s.reg .sp)) (huser : (s.reg .sp).toNat < 2 ^ 31)
    (hlist : s.reg .a1 = d) (hd : Aligned d) (hoff : ¬ Below (s.reg .sp) 12 d) :
    Runs (step base D) (Working base D) s
      { s with
        pc := (program base D).address .insert
        reg := update (update (update s.reg .sp fp) .a1 (s.mem d)) .ra ((program base D).addr 62)
        mem := pushed s.mem fp 0 [s.reg .ra, s.reg .a0, d] } := by
  have h8 : Aligned (fp + 8#32) := hfp.aligned_slot hal rfl (by decide) rfl
  have h4 : Aligned (fp + 4#32) := hfp.aligned_slot hal rfl (by decide) rfl
  have h0 : Aligned fp := hfp.aligned hal rfl
  have hpush : s.reg .sp + -12#32 = fp := hfp.eq
  have hentry : s.pc = (program base D).addr 56 := hpc.trans (address_eq rfl)
  apply works 56 [.addi .sp .sp (-12), .sw .a1 8 .sp, .sw .a0 4 .sp, .sw .ra 0 .sp, .lw .a1 NEXT .a1,
    .jal .insert] (by decide) (by decide) rfl rfl hentry
  have hnext : pushed s.mem fp 0 [s.reg .ra, s.reg .a0, d] d = s.mem d :=
    hfp.pushed_off le_rfl le_rfl hoff
  simp only [pushed, Nat.zero_add, Nat.reduceAdd, BitVec.add_zero] at hnext
  simp [execs, exec, State.next, State.goto, State.store, State.load, addi_push hfp huser, hpush, h8,
    h4, h0, hentry, Program.addr_succ, hlist, NEXT, hd, hnext, pushed, -BitVec.reduceNeg]

theorem frame_cons {d : Word} {ds : List Word} : frame ds.length + 12 = frame (d :: ds).length := by
  rw [frame, frame, List.length_cons]
  omega

/-- The call with the rest of the list has been made. It changes the frame below the caller's and three
registers. -/
structure Descends (base : Word) (D : Data) (d fp : Word) (s u : State) : Prop where
  pc : u.pc = (program base D).address .insert
  sp : u.reg .sp = fp
  list : u.reg .a1 = s.mem d
  ra : u.reg .ra = (program base D).addr 62
  reg : ∀ r, r ≠ .sp → r ≠ .a1 → r ≠ .ra → u.reg r = s.reg r
  mem : u.mem = pushed s.mem fp 0 [s.reg .ra, s.reg .a0, d]
  out : u.out = s.out

theorem insElse_descends {d fp : Word} (hpc : s.pc = (program base D).address .ins_else)
    (hfp : Frame (s.reg .sp) fp 12) (hal : Aligned (s.reg .sp)) (huser : (s.reg .sp).toNat < 2 ^ 31)
    (hlist : s.reg .a1 = d) (hd : Aligned d) (hoff : ¬ Below (s.reg .sp) 12 d) :
    ∃ u, Descends base D d fp s u ∧ Runs (step base D) (Working base D) s u := by
  refine ⟨_, ?_, insElse_calls hpc hfp hal huser hlist hd hoff⟩
  refine ⟨rfl, ?_, ?_, ?_, ?_, rfl, rfl⟩
  · simp
  · simp
  · simp
  · intro r hsp ha1 hra
    simp [hsp, ha1, hra]

theorem Descends.off {d fp a : Word} {n : ℕ} {u : State} (h : Descends base D d fp s u)
    (hfp : Frame (s.reg .sp) fp 12) (hin : 12 ≤ n) (ha : ¬ Below (s.reg .sp) n a) : u.mem a = s.mem a := by
  rw [h.mem]
  exact hfp.pushed_off le_rfl hin ha

/-- What was pushed is popped, and the cell is linked to what the call returned. -/
theorem insElse_pops {N d ra sp fp : Word} (hpc : s.pc = (program base D).addr 62)
    (hfp : Frame sp fp 12) (hsp : s.reg .sp = fp) (hal : Aligned sp) (huser : sp.toNat < 2 ^ 31)
    (hnil : s.reg .s7 = NIL) (hne : s.reg .v0 ≠ NIL) (hd : Aligned d) (hlist : s.mem (fp + 8#32) = d)
    (hN : s.mem (fp + 4#32) = N) (hra : s.mem fp = ra) :
    Runs (step base D) (Inside base D) s
      { s with
        pc := ra
        reg := update (update (update (update (update s.reg .a1 d) .a0 N) .ra ra) .sp sp) .v0 d
        mem := update s.mem d (s.reg .v0) } := by
  have h8 : Aligned (fp + 8#32) := hfp.aligned_slot hal rfl (by decide) rfl
  have h4 : Aligned (fp + 4#32) := hfp.aligned_slot hal rfl (by decide) rfl
  have h0 : Aligned fp := hfp.aligned hal rfl
  have hpop : Runs (step base D) (Inside base D) s
      { s with
        pc := (program base D).addr 67
        reg := update (update (update (update s.reg .a1 d) .a0 N) .ra ra) .sp sp } := by
    apply block 62 [.lw .a1 8 .sp, .lw .a0 4 .sp, .lw .ra 0 .sp, .addi .sp .sp 12,
      .beq .v0 .s7 .out_of_nodes_error] (by decide) (by decide) rfl rfl hpc
    simp [execs, exec, State.next, State.goto, State.load, branch, hsp, addi_pop hfp huser, hfp.pop, h8,
      h4, h0, hlist, hN, hra, hpc, hnil, hne, Program.addr_succ, -BitVec.reduceNeg]
  refine hpop.trans ?_
  apply block 67 [.sw .v0 NEXT .a1, .move .v0 .a1, .jr .ra] (by decide) (by decide) rfl rfl rfl
  simp [execs, exec, State.next, State.goto, State.store, hd, NEXT]

theorem insElse_returns {N f d : Word} {ds : List Word} (h : Ready N f (d :: ds) s)
    (hpc : s.pc = (program base D).address .ins_else) (hgo : ¬ N.slt (data s.mem d))
    (ih : ∀ u, u.pc = (program base D).address .insert → Ready N f ds u →
      Reaches (step base D) (Inside base D) u (Returned N f ds u)) :
    Reaches (step base D) (Inside base D) s (Returned N f (d :: ds) s) := by
  obtain ⟨fp, hpush⟩ : ∃ fp, s.reg .sp + -12#32 = fp := ⟨_, rfl⟩
  have hdepth : frame ds.length + 12 = frame (d :: ds).length := frame_cons
  have hin : 12 ≤ frame (d :: ds).length := hdepth ▸ Nat.le_add_left ..
  have hfp : Frame (s.reg .sp) fp 12 := ⟨hin.trans h.room, hpush⟩
  obtain ⟨hal, -⟩ := h.spare.aligned d (List.mem_cons_of_mem _ List.mem_cons_self)
  have hdoff : ¬ Below (s.reg .sp) 12 d :=
    fun hb => (h.spare.off d (List.mem_cons_of_mem _ List.mem_cons_self)).1 (hb.mono hin)
  -- The call is one with the rest of the list, below the frame.
  obtain ⟨u, hu, hcall⟩ := insElse_descends hpc hfp h.stack h.user h.spare.list.1 hal hdoff
  have hoff : ∀ a, ¬ Below (s.reg .sp) (frame (d :: ds).length) a → u.mem a = s.mem a :=
    fun a ha => hu.off hfp hin ha
  have hready : Ready N f ds u := by
    have hroom := h.room
    have huser := h.user
    have hnat := hfp.toNat
    refine ⟨?_, ?_, ?_, ?_, ?_, ?_, ?_⟩
    · exact (hu.reg .s7 (by decide) (by decide) (by decide)).trans h.nil
    · exact (hu.reg .a0 (by decide) (by decide) (by decide)).trans h.number
    · exact (hu.reg .a2 (by decide) (by decide) (by decide)).trans h.free
    · rw [hu.sp, hu.list]
      exact h.spare.tail hfp hdepth.le hoff
    · exact hu.sp ▸ hfp.aligned h.stack rfl
    · rw [hu.sp]
      omega
    · rw [hu.sp]
      omega
  obtain ⟨t, hrun, ht⟩ := ih u hu.pc hready
  -- It keeps the frame, so what was pushed is there.
  have hins := ht.inserted
  rw [hu.sp] at hins
  have hpushed := hins
  rw [hu.mem, h.number] at hpushed
  have ht8 : t.mem (fp + 8#32) = d := h.spare.pushed_kept hfp hin hpushed (k := 2) le_rfl (by simp)
  have ht4 : t.mem (fp + 4#32) = N := h.spare.pushed_kept hfp hin hpushed (k := 1) le_rfl (by simp)
  have ht0 : t.mem fp = s.reg .ra := by
    rw [← BitVec.add_zero fp]
    exact h.spare.pushed_kept hfp hin hpushed (k := 0) le_rfl (by simp)
  have hpres {r : Reg} (hr : r ∈ Reg.preserved) (hsp : r ≠ .sp) (hra : r ≠ .ra) :
      t.reg r = s.reg r := by
    have ha1 : r ≠ .a1 := by
      rintro rfl
      exact absurd hr (by decide)
    exact (ht.preserved r hr).trans (hu.reg r hsp ha1 hra)
  have htsp : t.reg .sp = fp := (ht.preserved .sp (by decide)).trans hu.sp
  have htnil : t.reg .s7 = NIL := (hpres (by decide) (by decide) (by decide)).trans h.nil
  have htpc : t.pc = (program base D).addr 62 := ht.pc.trans hu.ra
  have hpop := insElse_pops htpc hfp htsp h.stack h.user htnil hins.ne_zero hal ht8 ht4 ht0
  obtain ⟨regs, hregs⟩ : ∃ regs, regs = update (update (update (update (update t.reg .a1 d) .a0 N) .ra
      (s.reg .ra)) .sp (s.reg .sp)) .v0 d := ⟨_, rfl⟩
  rw [← hregs] at hpop
  have hbefore := (hcall.mono fun _ => Working.inside).trans hrun
  refine ⟨_, hbefore.trans hpop, rfl, ?_, ?_, ?_, ?_⟩
  · have hv0 : regs .v0 = d := by simp [hregs]
    rw [show ({ t with pc := s.reg .ra, reg := regs, mem := _ } : State).reg .v0 = d from hv0]
    exact h.spare.inserted_later hfp hdepth.le hoff hgo hins
  · have hv1 : regs .v1 = t.reg .v1 := by simp [hregs]
    rw [show ({ t with pc := s.reg .ra, reg := regs, mem := _ } : State).reg .v1 = _ from hv1, ht.free]
    exact hoff f (h.spare.off f List.mem_cons_self).1
  · intro r hr
    change regs r = s.reg r
    by_cases hsp : r = .sp
    · simp [hregs, hsp]
    by_cases hra : r = .ra
    · simp [hregs, hra]
    have hv : r ≠ .v0 ∧ r ≠ .a0 ∧ r ≠ .a1 := by
      revert hr
      cases r <;> decide
    simp [hregs, hsp, hra, hv, hpres hr hsp hra]
  · exact ht.out.trans hu.out

/-- The comparison at the entry of `insert` changes only scratch registers. -/
structure Compared (s t : State) : Prop where
  mem : t.mem = s.mem
  out : t.out = s.out
  reg : ∀ r, r ≠ .asm → r ≠ .t0 → r ≠ .t1 → t.reg r = s.reg r

theorem Compared.ready {N f : Word} {ds : List Word} (hst : Compared s t) (h : Ready N f ds s) :
    Ready N f ds t := by
  obtain ⟨hmem, -, hreg⟩ := hst
  have hsp : t.reg .sp = s.reg .sp := hreg .sp (by decide) (by decide) (by decide)
  have ha1 : t.reg .a1 = s.reg .a1 := hreg .a1 (by decide) (by decide) (by decide)
  refine ⟨?_, ?_, ?_, ?_, hsp ▸ h.stack, hsp ▸ h.room, hsp ▸ h.user⟩
  · exact (hreg .s7 (by decide) (by decide) (by decide)).trans h.nil
  · exact (hreg .a0 (by decide) (by decide) (by decide)).trans h.number
  · exact (hreg .a2 (by decide) (by decide) (by decide)).trans h.free
  · rw [hmem, hsp, ha1]
    exact h.spare

theorem Compared.returned {N f : Word} {ds : List Word} {u : State} (hst : Compared s t)
    (h : Returned N f ds t u) : Returned N f ds s u := by
  obtain ⟨hmem, hout, hreg⟩ := hst
  have hsp : t.reg .sp = s.reg .sp := hreg .sp (by decide) (by decide) (by decide)
  refine ⟨?_, ?_, ?_, ?_, h.out.trans hout⟩
  · exact h.pc.trans (hreg .ra (by decide) (by decide) (by decide))
  · rw [← hmem, ← hsp]
    exact h.inserted
  · exact hmem ▸ h.free
  · intro r hr
    apply (h.preserved r hr).trans
    apply hreg
    all_goals
      rintro rfl
      exact absurd hr (by decide)

theorem insert_empty (hpc : s.pc = (program base D).address .insert) (hlist : s.reg .a1 = NIL)
    (hnil : s.reg .s7 = NIL) :
    Runs (step base D) (Working base D) s (s.goto ((program base D).address .ins_if)) := by
  apply works 40 [.beq .a1 .s7 .ins_if] (by decide) (by decide) rfl rfl (hpc.trans (address_eq rfl))
  simp [execs, exec, branch, hlist, hnil, State.goto]

/-- The value is compared with the first of the list. -/
theorem insert_compares {d : Word} (hpc : s.pc = (program base D).address .insert)
    (hlist : s.reg .a1 = d) (hnil : s.reg .s7 = NIL) (hne : d ≠ NIL) (hal : Aligned (d + 4#32)) :
    ∃ regs, (∀ pc, Compared s { s with pc, reg := regs }) ∧
      Runs (step base D) (Working base D) s
        { s with
          pc := (program base D).address
            (if (s.reg .a0).slt (data s.mem d) then .ins_if else .ins_else)
          reg := regs } := by
  have hentry : s.pc = (program base D).addr 40 := hpc.trans (address_eq rfl)
  have htest : Runs (step base D) (Working base D) s (s.goto ((program base D).addr 41)) := by
    apply works 40 [.beq .a1 .s7 .ins_if] (by decide) (by decide) rfl rfl hentry
    simp [execs, exec, branch, hlist, hnil, hne, State.next, hentry]
    exact congrArg s.goto (program base D).addr_succ
  obtain ⟨N, hN⟩ : ∃ N, s.reg .a0 = N := ⟨_, rfl⟩
  obtain ⟨v, hv⟩ : ∃ v, s.mem (d + 4#32) = v := ⟨_, rfl⟩
  obtain ⟨regs, hregs⟩ : ∃ regs, regs = update (update (update s.reg .t0 v) .t1
      (if v.slt N then 1 else 0)) .asm (if N.slt v then 1 else 0) := ⟨_, rfl⟩
  refine ⟨regs, fun pc => ⟨rfl, rfl, fun r hasm ht0 ht1 => ?_⟩, htest.trans ?_⟩
  · simp [hregs, hasm, ht0, ht1]
  · rw [data, hv, hN]
    apply works 41 [.lw .t0 DATA .a1, .slt .t1 .t0 .a0, .bge .a0 .t0 .ins_else]
      (by decide) (by decide) rfl rfl rfl
    have hfall : (program base D).address .ins_if = (program base D).addr 44 := address_eq rfl
    cases hstop : N.slt v <;>
      simp [execs, exec, State.next, State.goto, State.load, branch, hlist, hal, DATA, hN,
        Program.addr_succ, hv, hregs, hfall, hstop]

/-- **`insert`.** The recursion follows the list; the frame of each call is below its caller's. -/
theorem insert_returns {N f : Word} {ds : List Word} (h : Ready N f ds s)
    (hpc : s.pc = (program base D).address .insert) :
    Reaches (step base D) (Inside base D) s (Returned N f ds s) := by
  induction ds generalizing s with
  | nil =>
    have htest := (insert_empty hpc h.spare.list h.nil).mono fun _ => Working.inside
    have hst : Compared s (s.goto ((program base D).address .ins_if)) := ⟨rfl, rfl, fun r _ _ _ => rfl⟩
    apply htest.reaches
    apply (insIf_returns (hst.ready h) rfl (by intro d hd; cases hd)).mono
    intro u hu
    exact hst.returned hu
  | cons d ds ih =>
    obtain ⟨hlist, hd, -⟩ := h.spare.list
    obtain ⟨-, hal⟩ := h.spare.aligned d (List.mem_cons_of_mem _ List.mem_cons_self)
    obtain ⟨regs, hst, hcompare⟩ := insert_compares hpc hlist h.nil hd hal
    replace hcompare := hcompare.mono fun _ => Working.inside
    rw [h.number] at hcompare
    cases hstop : N.slt (data s.mem d) with
    | true =>
      rw [hstop, if_pos rfl] at hcompare
      apply hcompare.reaches
      apply (insIf_returns ((hst _).ready h) rfl _).mono
      · intro u hu
        exact (hst _).returned hu
      · intro e he
        cases he
        exact hstop
    | false =>
      rw [hstop, if_neg Bool.false_ne_true] at hcompare
      apply hcompare.reaches
      apply (insElse_returns ((hst _).ready h) rfl _ fun u hu hready => ih hready hu).mono
      · intro u hu
        exact (hst _).returned hu
      · rw [hstop]
        exact Bool.false_ne_true

end Blocks

/-! ## The program -/

/-- Where the heap is: below the middle of the address space, word-aligned and not at 0. -/
structure Heap (heap : Word) (k : ℕ) : Prop where
  two : 2 ≤ k
  aligned : Aligned heap
  ne_nil : heap ≠ NIL
  user : heap.toNat + 8 * k < 2 ^ 31

theorem Heap.fits {heap : Word} {k : ℕ} (h : Heap heap k) : heap.toNat + 8 * k ≤ 2 ^ 32 :=
  h.user.le.trans (by decide)

theorem Heap.area {heap : Word} {k : ℕ} (h : Heap heap k) : Routines.Area heap k :=
  ⟨Nat.le_of_succ_le h.two, h.aligned, h.ne_nil, h.fits⟩

theorem Heap.signed {heap : Word} {k : ℕ} (h : Heap heap k) : Signed heap k := by
  have huser := h.user
  have hint : heap.toInt = heap.toNat := BitVec.toInt_eq_toNat_of_lt (by omega)
  constructor <;> omega

structure CallsMknodes (base : Word) (D : Data) (heap : Word) (k : ℕ) (s : State) : Prop where
  pc : s.pc = (program base D).address .mknodes
  heap : s.reg .a0 = heap
  heapsize : s.reg .a1 = BitVec.ofNat 32 (8 * k)
  nodesize : s.reg .a2 = NODESIZE
  nil : s.reg .s7 = NIL
  back : ¬ (program base D).Within 23 75 (s.reg .ra)

/-- A call of `insert` with a list of `n` cells: there is room for its frame on the stack, which is not in
the heap. -/
structure CallsInsert (base : Word) (D : Data) (heap : Word) (k : ℕ) (N list free : Word) (n : ℕ)
    (s : State) : Prop where
  pc : s.pc = (program base D).address .insert
  number : s.reg .a0 = N
  list : s.reg .a1 = list
  free : s.reg .a2 = free
  nil : s.reg .s7 = NIL
  stack : Aligned (s.reg .sp)
  room : frame n ≤ (s.reg .sp).toNat
  user : (s.reg .sp).toNat < 2 ^ 31
  off : ∀ a, Below (s.reg .sp) (frame n) a → ¬ InCells heap k a
  back : ¬ (program base D).Within 23 75 (s.reg .ra)

/-- The two routines; `mknodes` needs no stack. -/
def routines (base : Word) (D : Data) : Routines State where
  step := step base D
  inside := Inside base D
  mem := State.mem
  making := CallsMknodes base D
  made s := s.reg .v0
  inserting := CallsInsert base D
  list s := s.reg .v0
  free s := s.reg .v1
  returned s t := t.pc = s.reg .ra ∧ ∀ r ∈ Reg.preserved, t.reg r = s.reg r
  makeFrame _ _ := False
  insertFrame n s := Below (s.reg .sp) (frame n)

theorem routines_makes (base : Word) (D : Data) {heap : Word} {k : ℕ} (h : Routines.Area heap k)
    (hk2 : 2 ≤ k) (hk : Signed heap k) : (routines base D).Makes heap k := by
  intro s hs
  have hlast : k - 1 + 1 = k := Nat.sub_add_cancel h.one
  have hrun := mknodes_runs hk h.aligned hk2 hs.pc hs.heap hs.heapsize hs.nodesize hs.nil
  refine ⟨_, ⟨hrun, hs.back⟩, ⟨rfl, ?_⟩, ?_, ?_, ?_⟩
  · intro r hr
    have hne : r ≠ .v0 ∧ r ≠ .t0 ∧ r ≠ .t1 := by
      revert hr
      cases r <;> decide
    simp [hne]
  · simp [routines]
  · have hchain := chain_link (m := s.mem) h.fits h.ne_zero (Nat.lt_of_succ_le hlast.le)
    rw [hlast] at hchain
    simpa [routines] using hchain
  · intro a ha _
    exact link_outside h.fits (Nat.lt_of_succ_le hlast.le) ha

theorem routines_meet (base : Word) (D : Data) {heap : Word} {k : ℕ} (h : Heap heap k) :
    (routines base D).Meets heap k where
  fits := h.fits
  makes s hs := by
    obtain ⟨t, ht, hret, -, hrest⟩ := routines_makes base D h.area h.two h.signed s hs
    exact ⟨t, ht, hret, hrest⟩
  apart N list free n s hs a ha hframe := hs.off a hframe ha
  inserts N list f ds s hs hlist hfresh hnodup hcells hf := by
    have hready : Ready N f ds s := by
      refine ⟨hs.nil, hs.number, hs.free, ?_, hs.stack, hs.room, hs.user⟩
      rw [hs.list]
      exact spare_of_cells h.fits h.aligned hs.off hlist hf hfresh hnodup hcells
    obtain ⟨t, hrun, ht⟩ := insert_returns hready hs.pc
    have hout : ¬ Inside base D t := by
      unfold Inside
      rw [ht.pc]
      exact hs.back
    refine ⟨t, ⟨hrun, hout⟩, ⟨ht.pc, ht.preserved⟩, ht.free, (fun v => N.slt v), inferInstance, ?_, ?_,
      ht.inserted⟩
    · intro v hv
      exact (BitVec.slt_iff_toInt_lt.mp hv).le
    · intro v hv
      exact not_lt.mp fun hlt => hv (BitVec.slt_iff_toInt_lt.mpr hlt)

end UnionCollegeCode.SystemArchitecture.Lab7.MipsList
