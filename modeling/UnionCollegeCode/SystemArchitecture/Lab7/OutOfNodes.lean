import UnionCollegeCode.SystemArchitecture.Lab7.MipsList

/-!
# `insert` with no free node

`new` returns `NIL` at the bottom of the recursion, and the last call goes to `out_of_nodes_error` from
there. The message is printed; then the code of a service is put in `$a0` and not in `$v0`, so that the
second call prints once more and control falls into `print`.
-/

set_option autoImplicit false

namespace UnionCollegeCode.SystemArchitecture.Lab7.MipsList

open Function (update)
open Lib.Assembly Lib.CellList Mips

variable {base : Word} {D : Data} {s t : State}

/-- The machine is at a system call that ends the program. -/
def AtExit (base : Word) (D : Data) (s : State) : Prop :=
  (program base D).fetch s.pc = some .syscall ∧ (s.get .v0 = EXIT ∨ s.get .v0 = EXIT2)

/-- What the call is to do: it comes to the end of the program in its own code, with the message printed
and the cells `ds` as they were. -/
def EndsCleanly (base : Word) (D : Data) (ds : List Word) (s : State) : Prop :=
  ∃ t, Runs (step base D) (Inside base D) s t ∧ Inside base D t ∧ AtExit base D t ∧
    t.out = s.out ++ [.string D.nofree] ∧
    ∀ d ∈ ds, t.mem d = s.mem d ∧ data t.mem d = data s.mem d

/-- Control is in the routines, and the program does not end. -/
def Goes (base : Word) (D : Data) (s : State) : Prop := Inside base D s ∧ ¬ AtExit base D s

theorem goes_within {lo hi : ℕ} (hlo : 23 ≤ lo) (hhi : hi ≤ 75)
    (hnone : (((instrs (text D)).drop lo).take (hi - lo)).all (fun j => !j.isSyscall) = true)
    (h : (program base D).Within lo hi s.pc) : Goes base D s := by
  obtain ⟨i, hloi, hihi, hpc⟩ := h
  refine ⟨⟨i, hlo.trans hloi, hihi.trans_le hhi, hpc⟩, ?_⟩
  rintro ⟨hfetch, -⟩
  rw [hpc, Program.fetch_addr _ (by omega)] at hfetch
  have hget : (((instrs (text D)).drop lo).take (hi - lo))[i - lo]? = some .syscall := by
    rw [List.getElem?_take_of_lt (by omega), List.getElem?_drop, Nat.add_sub_cancel' hloi]
    exact hfetch
  exact absurd (List.all_eq_true.mp hnone _ (List.mem_of_getElem? hget)) Bool.false_ne_true

theorem Working.goes (h : Working base D s) : Goes base D s := goes_within le_rfl (by decide) rfl h

/-- Code that calls no service does not end the program. -/
theorem goes_block (i : ℕ) (code : List (Instr Label)) (hlo : 23 ≤ i) (hhi : i + code.length ≤ 75)
    (hcode : ((instrs (text D)).drop i).take code.length = code)
    (hnone : code.all (fun j => !j.isSyscall) = true)
    (hstraight : code.dropLast.all Instr.straight = true) (hpc : s.pc = (program base D).addr i)
    (h : execs exec (program base D) code s = some t) : Runs (step base D) (Goes base D) s t := by
  have hruns := block_within i code le_rfl le_rfl (by omega) hcode hstraight hpc h
  apply hruns.mono
  intro u hu
  apply goes_within hlo hhi _ hu
  rw [Nat.add_sub_cancel_left, hcode]
  exact hnone

/-! ## The call -/

/-- `insert` is called with the list `ds` and no free cell. -/
structure Pending (ds : List Word) (s : State) : Prop where
  nil : s.reg .s7 = NIL
  free : s.reg .a2 = NIL
  list : Chain s.mem (s.reg .a1) ds
  aligned : ∀ d ∈ ds, Aligned d ∧ Aligned (d + 4#32)
  off : ∀ d ∈ ds, ¬ Below (s.reg .sp) (frame ds.length) d ∧ ¬ Below (s.reg .sp) (frame ds.length) (d + 4#32)
  stack : Aligned (s.reg .sp)
  room : frame ds.length ≤ (s.reg .sp).toNat
  user : (s.reg .sp).toNat < 2 ^ 31

/-- The call has failed: the stack is left as it is, and nothing else has changed. -/
structure Failed (base : Word) (D : Data) (n : ℕ) (s t : State) : Prop where
  pc : t.pc = (program base D).address .out_of_nodes_error
  out : t.out = s.out
  frame : ∀ a, ¬ Below (s.reg .sp) n a → t.mem a = s.mem a

theorem Compared.pending {ds : List Word} (hst : Compared s t) (h : Pending ds s) : Pending ds t := by
  obtain ⟨hmem, -, hreg⟩ := hst
  have hsp : t.reg .sp = s.reg .sp := hreg .sp (by decide) (by decide) (by decide)
  have ha1 : t.reg .a1 = s.reg .a1 := hreg .a1 (by decide) (by decide) (by decide)
  refine ⟨?_, ?_, ?_, h.aligned, ?_, hsp ▸ h.stack, hsp ▸ h.room, hsp ▸ h.user⟩
  · exact (hreg .s7 (by decide) (by decide) (by decide)).trans h.nil
  · exact (hreg .a2 (by decide) (by decide) (by decide)).trans h.free
  · rw [hmem, ha1]
    exact h.list
  · rw [hsp]
    exact h.off

theorem Compared.failed {n : ℕ} {u : State} (hst : Compared s t) (h : Failed base D n t u) :
    Failed base D n s u := by
  obtain ⟨hmem, hout, hreg⟩ := hst
  have hsp : t.reg .sp = s.reg .sp := hreg .sp (by decide) (by decide) (by decide)
  refine ⟨h.pc, h.out.trans hout, ?_⟩
  rw [← hmem, ← hsp]
  exact h.frame

theorem new_fails (hpc : s.pc = (program base D).address .new) (hnil : s.reg .s7 = NIL)
    (hfree : s.reg .a0 = NIL) :
    Runs (step base D) (Working base D) s
      { s with pc := s.reg .ra, reg := update (update s.reg .v0 NIL) .v1 NIL } := by
  have htest : Runs (step base D) (Working base D) s (s.goto ((program base D).addr 37)) := by
    apply works 32 [.beq .a0 .s7 .index_out_of_bounds_exception] (by decide) (by decide) rfl rfl
      (hpc.trans (address_eq rfl))
    simp [execs, exec, branch, hnil, hfree, State.goto]
    rfl
  apply htest.trans
  apply works 37 [.move .v0 .s7, .move .v1 .s7, .jr .ra] (by decide) (by decide) rfl rfl rfl
  simp [execs, exec, State.next, State.goto, hnil]

/-- The last call of the recursion. -/
theorem insIf_fails {ds : List Word} (h : Pending ds s) (hpc : s.pc = (program base D).address .ins_if) :
    Reaches (step base D) (Working base D) s (Failed base D (frame ds.length) s) := by
  obtain ⟨fp, hpush⟩ : ∃ fp, s.reg .sp + -8#32 = fp := ⟨_, rfl⟩
  have hin : 8 ≤ frame ds.length := Nat.le_add_left ..
  have hfp : Frame (s.reg .sp) fp 8 := ⟨hin.trans h.room, hpush⟩
  have h4 : Aligned (fp + 4#32) := hfp.aligned_slot h.stack rfl (by decide) rfl
  have h0 : Aligned fp := hfp.aligned h.stack rfl
  have hcall := insIf_calls (D := D) hpc hfp h.stack h.user
  obtain ⟨mem, hmem⟩ : ∃ mem, mem = pushed s.mem fp 0 [s.reg .ra, s.reg .a0] := ⟨_, rfl⟩
  rw [← hmem, h.free] at hcall
  obtain ⟨regs, hregs⟩ : ∃ regs, regs = update (update (update s.reg .sp fp) .a0 NIL) .ra
      ((program base D).addr 49) := ⟨_, rfl⟩
  rw [← hregs] at hcall
  have hnew := new_fails (D := D) (s := { s with
      pc := (program base D).address .new
      reg := regs
      mem := mem }) rfl (by simp [hregs, h.nil]) (by simp [hregs])
  have hpop : Runs (step base D) (Working base D)
      { s with pc := (program base D).addr 49, reg := update (update regs .v0 NIL) .v1 NIL, mem := mem }
      { s with
        pc := (program base D).address .out_of_nodes_error
        reg := update (update (update (update (update regs .v0 NIL) .v1 NIL) .a0 (mem (fp + 4#32))) .ra
          (mem fp)) .sp (s.reg .sp)
        mem := mem } := by
    apply works 49 [.lw .a0 4 .sp, .lw .ra 0 .sp, .addi .sp .sp 8, .beq .v0 .s7 .out_of_nodes_error]
      (by decide) (by decide) rfl rfl rfl
    simp [execs, exec, State.next, State.goto, State.load, branch, addi_pop hfp h.user, hfp.pop, h4, h0,
      h.nil, hregs, -BitVec.reduceNeg]
  have hra : regs .ra = (program base D).addr 49 := by simp [hregs]
  rw [show ({ s with pc := (program base D).address .new, reg := regs, mem := mem } : State).reg .ra =
    (program base D).addr 49 from hra] at hnew
  refine ⟨_, (hcall.trans hnew).trans hpop, rfl, rfl, ?_⟩
  intro a ha
  rw [hmem]
  exact hfp.pushed_off le_rfl hin ha

theorem insElse_fails {d : Word} {ds : List Word} (h : Pending (d :: ds) s)
    (hpc : s.pc = (program base D).address .ins_else)
    (ih : ∀ u, u.pc = (program base D).address .insert → Pending ds u →
      Reaches (step base D) (Working base D) u (Failed base D (frame ds.length) u)) :
    Reaches (step base D) (Working base D) s (Failed base D (frame (d :: ds).length) s) := by
  obtain ⟨fp, hpush⟩ : ∃ fp, s.reg .sp + -12#32 = fp := ⟨_, rfl⟩
  have hdepth : frame ds.length + 12 = frame (d :: ds).length := frame_cons
  have hin : 12 ≤ frame (d :: ds).length := hdepth ▸ Nat.le_add_left ..
  have hfp : Frame (s.reg .sp) fp 12 := ⟨hin.trans h.room, hpush⟩
  obtain ⟨hal, -⟩ := h.aligned d List.mem_cons_self
  obtain ⟨hoffd, -⟩ := h.off d List.mem_cons_self
  obtain ⟨u, hu, hcall⟩ := insElse_descends (D := D) hpc hfp h.stack h.user h.list.1 hal
    fun hb => hoffd (hb.mono hin)
  have hpending : Pending ds u := by
    have hroom := h.room
    have huser := h.user
    have hnat := hfp.toNat
    refine ⟨?_, ?_, ?_, ?_, ?_, ?_, ?_, ?_⟩
    · exact (hu.reg .s7 (by decide) (by decide) (by decide)).trans h.nil
    · exact (hu.reg .a2 (by decide) (by decide) (by decide)).trans h.free
    · rw [hu.list]
      apply h.list.2.2.congr
      intro e he
      exact hu.off hfp hin (h.off e (List.mem_cons_of_mem _ he)).1
    · intro e he
      exact h.aligned e (List.mem_cons_of_mem _ he)
    · intro e he
      obtain ⟨hnext, hdata⟩ := h.off e (List.mem_cons_of_mem _ he)
      rw [hu.sp]
      exact ⟨fun hb => hnext (hfp.below hb hdepth.le), fun hb => hdata (hfp.below hb hdepth.le)⟩
    · exact hu.sp ▸ hfp.aligned h.stack rfl
    · rw [hu.sp]
      omega
    · rw [hu.sp]
      omega
  -- The call below does not come back: it goes to the end from where it is.
  obtain ⟨t, hrun, ht⟩ := ih u hu.pc hpending
  refine ⟨t, hcall.trans hrun, ht.pc, ht.out.trans hu.out, ?_⟩
  intro a ha
  rw [ht.frame a]
  · exact hu.off hfp hin ha
  · rw [hu.sp]
    exact fun hb => ha (hfp.below hb hdepth.le)

/-- **`insert` fails** from any depth. -/
theorem insert_fails {ds : List Word} (h : Pending ds s) (hpc : s.pc = (program base D).address .insert) :
    Reaches (step base D) (Working base D) s (Failed base D (frame ds.length) s) := by
  induction ds generalizing s with
  | nil =>
    have hst : Compared s (s.goto ((program base D).address .ins_if)) := ⟨rfl, rfl, fun r _ _ _ => rfl⟩
    apply (insert_empty hpc h.list h.nil).reaches
    apply (insIf_fails (hst.pending h) rfl).mono
    intro u hu
    exact hst.failed hu
  | cons d ds ih =>
    obtain ⟨hlist, hd, -⟩ := h.list
    obtain ⟨-, hal⟩ := h.aligned d List.mem_cons_self
    obtain ⟨regs, hst, hcompare⟩ := insert_compares (D := D) hpc hlist h.nil hd hal
    apply hcompare.reaches
    cases (s.reg .a0).slt (data s.mem d) with
    | true =>
      apply (insIf_fails ((hst _).pending h) rfl).mono
      intro u hu
      exact (hst _).failed hu
    | false =>
      apply (insElse_fails ((hst _).pending h) rfl fun u hu hpending => ih hpending hu).mono
      intro u hu
      exact (hst _).failed hu

/-! ## The end that is none -/

/-- A system call that prints does not end the program. -/
theorem print_goes {i : ℕ} (hlo : 23 ≤ i) (hhi : i < 75) (hget : (instrs (text D))[i]? = some .syscall)
    (hpc : s.pc = (program base D).addr i) (hv0 : s.reg .v0 = PR_STR) :
    Runs (step base D) (Goes base D) s (s.print (.string (s.reg .a0))).next := by
  apply runs_one
  · refine ⟨⟨i, hlo, hhi, hpc⟩, ?_⟩
    rintro ⟨-, hexit⟩
    rw [get_of_ne (by decide), hv0] at hexit
    exact absurd hexit (by decide)
  · apply (step_at (hhi.trans (by decide)) hget hpc).trans
    simp [exec, syscall, hv0, PR_INT, PR_STR]

theorem message_goes (hpc : s.pc = (program base D).address .out_of_nodes_error) :
    Runs (step base D) (Goes base D) s
      { s with
        pc := (program base D).addr 73
        reg := update (update s.reg .a0 D.nofree) .v0 PR_STR
        out := s.out ++ [.string D.nofree] } := by
  have hentry : s.pc = (program base D).addr 70 := hpc.trans (address_eq rfl)
  obtain ⟨regs, hregs⟩ : ∃ regs, regs = update (update s.reg .a0 D.nofree) .v0 PR_STR := ⟨_, rfl⟩
  rw [← hregs]
  have hload : Runs (step base D) (Goes base D) s { s with pc := (program base D).addr 72, reg := regs } := by
    apply goes_block 70 [.la .a0 D.nofree, .li .v0 PR_STR] (by decide) (by simp) rfl rfl rfl hentry
    simp [execs, exec, State.next, State.goto, hentry, hregs, Program.addr_succ]
  have hprint := print_goes (D := D) (i := 72)
    (s := { s with pc := (program base D).addr 72, reg := regs }) (by decide) (by decide) rfl rfl
    (by simp [hregs])
  have ha0 : regs .a0 = D.nofree := by simp [hregs]
  simp only [State.print, State.next, State.goto, Program.addr_succ, ha0] at hprint
  exact hload.trans hprint

/-- The code of a service is put in `$a0`, and the service is the one before. -/
theorem exit_goes (hpc : s.pc = (program base D).addr 73) (hv0 : s.reg .v0 = PR_STR) :
    Runs (step base D) (Goes base D) s
      { s with
        pc := (program base D).address .print
        reg := update s.reg .a0 17
        out := s.out ++ [.string 17] } := by
  obtain ⟨regs, hregs⟩ : ∃ regs, regs = update s.reg .a0 17 := ⟨_, rfl⟩
  rw [← hregs]
  have hcode : Runs (step base D) (Goes base D) s { s with pc := (program base D).addr 74, reg := regs } := by
    apply goes_block 73 [.addi .a0 .zero 17] (by decide) (by decide) rfl rfl rfl hpc
    have hadd : BitVec.saddOverflow 0#32 17#32 = false := by decide
    simp [execs, exec, State.next, State.goto, hpc, hregs, hadd, Program.addr_succ]
  have hprint := print_goes (D := D) (i := 74)
    (s := { s with pc := (program base D).addr 74, reg := regs }) (by decide) (by decide) rfl rfl
    (by simp [hregs, hv0])
  have ha0 : regs .a0 = 17 := by simp [hregs]
  have hnext : (program base D).address .print = (program base D).addr 75 := address_eq rfl
  simp only [State.print, State.next, State.goto, Program.addr_succ, ha0] at hprint
  rw [hnext]
  exact hcode.trans hprint

theorem insert_falls_through {ds : List Word} (h : Pending ds s)
    (hpc : s.pc = (program base D).address .insert) :
    Reaches (step base D) (Goes base D) s fun t => t.pc = (program base D).address .print ∧
      t.out = s.out ++ [.string D.nofree, .string 17] ∧
      ∀ d ∈ ds, t.mem d = s.mem d ∧ data t.mem d = data s.mem d := by
  obtain ⟨u, hrun, hu⟩ := insert_fails (D := D) h hpc
  have hmessage := message_goes hu.pc
  have hexit := exit_goes (D := D) (s := { u with
      pc := (program base D).addr 73
      reg := update (update u.reg .a0 D.nofree) .v0 PR_STR
      out := u.out ++ [.string D.nofree] }) rfl (by simp)
  refine ⟨_, ((hrun.mono fun _ => Working.goes).trans hmessage).trans hexit, rfl, ?_, ?_⟩
  · simp [hu.out]
  · intro d hd
    obtain ⟨hnext, hdata⟩ := h.off d hd
    exact ⟨hu.frame d hnext, hu.frame _ hdata⟩

theorem print_not_inside (hpc : s.pc = (program base D).address .print) : ¬ Inside base D s := by
  have hprint : (program base D).address .print = (program base D).addr 75 := address_eq rfl
  rintro ⟨i, -, hhi, hi⟩
  rw [hpc, hprint] at hi
  have heq := Program.addr_inj _ (by decide) (hhi.trans (by decide)) hi
  omega

theorem Pending.not_endsCleanly {ds : List Word} (h : Pending ds s)
    (hpc : s.pc = (program base D).address .insert) : ¬ EndsCleanly base D ds s := by
  rintro ⟨t, hrun, hin, hexit, -⟩
  obtain ⟨u, hgo, hupc, -⟩ := insert_falls_through h hpc
  have hout := print_not_inside hupc
  have hafter : Runs (step base D) (Inside base D) u t := hgo.past hrun fun hgoes => hgoes.2 hexit
  obtain rfl := hafter.eq_of_outside hout
  exact hout hin

/-- **With no free node** the program does not end, for any list and any value: the message is printed,
then what is at 17, and control goes on in `print`. The nodes of the list are as they were. -/
theorem insert_out_of_nodes (base : Word) (D : Data) {ds : List Word} {s : State} (h : Pending ds s)
    (hpc : s.pc = (program base D).address .insert) :
    ¬ EndsCleanly base D ds s ∧
      ∃ t, Leaves (step base D) (Inside base D) s t ∧ t.pc = (program base D).address .print ∧
        t.out = s.out ++ [.string D.nofree, .string 17] ∧
        ∀ d ∈ ds, t.mem d = s.mem d ∧ data t.mem d = data s.mem d := by
  refine ⟨h.not_endsCleanly hpc, ?_⟩
  obtain ⟨t, hrun, htpc, htout, hkept⟩ := insert_falls_through (D := D) h hpc
  exact ⟨t, ⟨hrun.mono fun _ hgoes => hgoes.1, print_not_inside htpc⟩, htpc, htout, hkept⟩

/-- 7 is inserted in a list of one cell with the value 5. -/
theorem insert_out_of_nodes_one : ∃ s t : State, s.out = [] ∧ s.mem 0x10010004 = 5 ∧
    Leaves (step 0x400000 ⟨0, 0, 0, 0, 0⟩) (Inside 0x400000 ⟨0, 0, 0, 0, 0⟩) s t ∧
    t.pc = (program 0x400000 ⟨0, 0, 0, 0, 0⟩).address .print ∧ t.out = [.string 0, .string 17] ∧
    t.mem 0x10010004 = 5 := by
  obtain ⟨s, hs⟩ : ∃ s : State, s = {
      pc := (program 0x400000 ⟨0, 0, 0, 0, 0⟩).address .insert
      reg := fun r => if r = .a0 then 7 else if r = .a1 then 0x10010000 else if r = .sp then 0x7fffeffc
        else 0
      mem := fun a => if a = 0x10010004 then 5 else 0
      out := [] } := ⟨_, rfl⟩
  have hpending : Pending [0x10010000] s := by
    subst hs
    have hend : (if (0x10010000 : Word) = 0x10010004 then (5 : Word) else 0) = 0 := if_neg (by decide)
    refine ⟨rfl, rfl, ⟨rfl, by decide, hend⟩, ?_, ?_, by decide, by decide, by decide⟩
    · intro d hd
      obtain rfl := List.mem_singleton.mp hd
      decide
    · intro d hd
      obtain rfl := List.mem_singleton.mp hd
      simp [Below, frame]
  have hdata : s.mem 0x10010004 = 5 := by simp [hs]
  have hout : s.out = [] := by rw [hs]
  obtain ⟨-, t, ht, hpc, htout, hkept⟩ := insert_out_of_nodes 0x400000 ⟨0, 0, 0, 0, 0⟩ hpending
    (by rw [hs])
  refine ⟨s, t, hout, hdata, ht, hpc, ?_, (hkept 0x10010000 List.mem_cons_self).2.trans hdata⟩
  rw [htout, hout]
  rfl

/-- 7 is inserted in the empty list: the program does not end. -/
theorem insert_does_not_exit : ¬ EndsCleanly 0x400000 ⟨0, 0, 0, 0, 0⟩ [] {
    pc := (program 0x400000 ⟨0, 0, 0, 0, 0⟩).address .insert
    reg := fun r => if r = .a0 then 7 else if r = .sp then 0x7fffeffc else 0
    mem := fun _ => 0
    out := [] } := by
  refine Pending.not_endsCleanly ⟨rfl, rfl, rfl, ?_, ?_, by decide, by decide, by decide⟩ rfl
  · intro d hd
    cases hd
  · intro d hd
    cases hd

end UnionCollegeCode.SystemArchitecture.Lab7.MipsList
