import UnionCollegeCode.SystemArchitecture.Lab7.ArmList
import UnionCollegeCode.SystemArchitecture.Lab7.MipsList

/-!
# The two linked lists

`insert` puts a value before the equal ones in the ARM program and after them in the MIPS program: the
cells differ, and the values do not.
-/

set_option autoImplicit false

namespace UnionCollegeCode.SystemArchitecture.Lab7

open Lib.Assembly Lib.CellList

/-- **The lists and the heaps.** Both programs are right, and hold the same values after the same
insertions. -/
theorem linkedLists (base base' : Word) (D : MipsList.Data) (D' : ArmList.Data) {heap heap' : Word} {k : ℕ}
    (h : MipsList.Heap heap k) (h' : ArmList.Heap heap' k) :
    (MipsList.routines base D).Right heap k ∧ (ArmList.routines base' D').Right heap' k ∧
      ∀ (Ns : List Word) (m m' : Memory) (list free list' free' : Word) (ds ds' : List Word),
        (MipsList.routines base D).After heap k Ns m list free →
        (ArmList.routines base' D').After heap' k Ns m' list' free' → Ns.length ≤ k →
        Chain m list ds → Chain m' list' ds' → ds.map (data m) = ds'.map (data m') := by
  have hmips := (MipsList.routines_meet base D h).right
  have harm := (ArmList.routines_meet base' D' h').right
  refine ⟨hmips, harm, ?_⟩
  intro Ns m m' list free list' free' ds ds' hafter hafter' hlen hds hds'
  exact hmips.values_eq harm hafter hafter' hlen hds hds'

/-- Both programs are called with a heap of two cells, and insert a value. -/
theorem linkedLists_two : ∃ m list free m' list' free',
    (MipsList.routines 0x400000 ⟨0, 0, 0, 0, 0⟩).After 0x10010000 2 [7] m list free ∧
    (ArmList.routines 0x8000 ⟨0, 0, 0, 0, 0, 0, 0⟩).After 0x20000 2 [7] m' list' free' ∧
    Partition 0x10010000 2 [7] m list free ∧ Partition 0x20000 2 [7] m' list' free' := by
  have hheap : MipsList.Heap 0x10010000 2 := ⟨le_rfl, by decide, by decide, by decide⟩
  have hheap' : ArmList.Heap 0x20000 2 := ⟨le_rfl, by decide, by decide, by decide⟩
  obtain ⟨hmips, harm, -⟩ :=
    linkedLists 0x400000 0x8000 ⟨0, 0, 0, 0, 0⟩ ⟨0, 0, 0, 0, 0, 0, 0⟩ hheap hheap'
  have hback : ¬ (MipsList.program 0x400000 ⟨0, 0, 0, 0, 0⟩).Within 23 75 0 := by
    rintro ⟨i, hlo, hhi, heq⟩
    simp only [MipsList.program, Program.addr] at heq
    bv_omega
  have hback' : ¬ (ArmList.program 0x8000 ⟨0, 0, 0, 0, 0, 0, 0⟩).Within 26 98 0 := by
    rintro ⟨i, hlo, hhi, heq⟩
    simp only [ArmList.program, Program.addr] at heq
    bv_omega
  have hstack : ∀ n a, n ≤ 16 → Below 0x7fffeffc n a → ¬ InCells 0x10010000 2 a ∧ ¬ InCells 0x20000 2 a := by
    intro n a hn hbelow
    unfold Below at hbelow
    unfold InCells
    simp only [BitVec.ofNat_eq_ofNat, BitVec.toNat_ofNat] at hbelow ⊢
    omega
  have hsp : Aligned 0x7fffeffc := by decide
  have hroom : 8 ≤ (0x7fffeffc : Word).toNat := by decide
  have hroom' : 16 ≤ (0x7fffeffc : Word).toNat := by decide
  have huser : (0x7fffeffc : Word).toNat < 2 ^ 31 := by decide
  obtain ⟨m, list, free, hafter⟩ := hmips.exists_after Nat.two_pos 7
    {
      pc := (MipsList.program 0x400000 ⟨0, 0, 0, 0, 0⟩).address .mknodes
      reg := fun r => if r = .a0 then 0x10010000 else if r = .a1 then 16 else if r = .a2 then 8 else 0
      mem := fun _ => 0
      out := [] }
    (fun m free => {
      pc := (MipsList.program 0x400000 ⟨0, 0, 0, 0, 0⟩).address .insert
      reg := fun r => if r = .a0 then 7 else if r = .a2 then free else if r = .sp then 0x7fffeffc else 0
      mem := m
      out := [] })
    ⟨rfl, rfl, rfl, rfl, rfl, hback⟩
    fun m free => ⟨rfl, rfl, rfl, rfl, rfl, rfl, hsp, hroom, huser,
      fun a ha => (hstack 8 a (by decide) ha).1, hback⟩
  obtain ⟨m', list', free', hafter'⟩ := harm.exists_after Nat.two_pos 7
    {
      pc := (ArmList.program 0x8000 ⟨0, 0, 0, 0, 0, 0, 0⟩).address .mknodes
      reg := fun r => if r = .r0 then 0x20000 else if r = .r1 then 16 else if r = .r2 then 8
        else if r = .sp then 0x7fffeffc else 0
      flags := ⟨false, false, false, false⟩
      mem := fun _ => 0 }
    (fun m free => {
      pc := (ArmList.program 0x8000 ⟨0, 0, 0, 0, 0, 0, 0⟩).address .insert
      reg := fun r => if r = .r0 then 7 else if r = .r2 then free else if r = .sp then 0x7fffeffc else 0
      flags := ⟨false, false, false, false⟩
      mem := m })
    ⟨rfl, ⟨rfl, rfl, rfl, rfl, hsp, hroom, fun a ha => (hstack 8 a (by decide) ha).2⟩, hback'⟩
    fun m free => ⟨rfl, rfl, rfl, rfl, rfl, rfl, hsp, hroom',
      fun a ha => (hstack 16 a (by decide) ha).2, hback'⟩
  exact ⟨m, list, free, m', list', free', hafter, hafter', hmips.shares _ _ _ _ hafter (by decide),
    harm.shares _ _ _ _ hafter' (by decide)⟩

end UnionCollegeCode.SystemArchitecture.Lab7
