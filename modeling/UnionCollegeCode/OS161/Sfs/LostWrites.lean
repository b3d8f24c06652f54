import UnionCollegeCode.OS161.Sfs.Runs

/-!
# What a sync says of writes that failed

`sfs_writeblock` never fails, so nobody learns that a block has not been written. A sync takes every
block for written: it returns success and calls clean what it has had written, on a disk that writes
nothing any more as on any other.
-/

set_option autoImplicit false

namespace UnionCollegeCode.OS161.Sfs

open Function (update)
open Lib.EState
open SfsFs

variable {w : World} {s s' s₁ s₂ : SfsFs} {a : UInt32} {sv : SfsVnode} {js : List ℕ}

/-- Blocks have been handed to the disk. Only a disk that writes holds them now. -/
structure Told (w : World) (s s' : SfsFs) : Prop where
  inos : s'.vnodes.map SfsVnode.svIno = s.vnodes.map SfsVnode.svIno
  dirty : ∀ a, s'.Dirty a → s.Dirty a
  freemap : s'.freemap = s.freemap
  sb : s'.sb = s.sb
  superdirty : s'.superdirty = s.superdirty
  lost : (∀ t, w.writeFails t = true) → s'.disk = s.disk

theorem Told.refl (s : SfsFs) : Told w s s := ⟨rfl, fun _ => id, rfl, rfl, rfl, fun _ => rfl⟩

theorem Told.trans (h : Told w s s₁) (h' : Told w s₁ s₂) : Told w s s₂ := by
  refine ⟨h'.inos.trans h.inos, fun a ha => h.dirty a (h'.dirty a ha), h'.freemap.trans h.freemap,
    h'.sb.trans h.sb, h'.superdirty.trans h.superdirty, fun hfails => ?_⟩
  exact (h'.lost hfails).trans (h.lost hfails)

theorem isSome_iff_mem_inos : (s.vnodeOf a).isSome ↔ a ∈ s.vnodes.map SfsVnode.svIno := by
  rw [vnodeOf, List.find?_isSome, List.mem_map]
  simp

theorem Told.isSome (h : Told w s s') : (s'.vnodeOf a).isSome ↔ (s.vnodeOf a).isSome := by
  rw [isSome_iff_mem_inos, h.inos, isSome_iff_mem_inos]

/-- A block that is given to the disk changes nothing in memory. -/
theorem sfsWriteblock_told {block : UInt32} (hin : block < w.dBlocks) (data : Block) :
    ∃ s', sfsWriteblock w block data s = .ok () s' ∧ Told w s s' ∧ s'.vnodes = s.vnodes ∧
      s'.freemapdirty = s.freemapdirty := by
  obtain ⟨tick, hrun⟩ := sfsWriteblock_ok hin data (s := s)
  refine ⟨_, hrun, ⟨rfl, fun _ => id, rfl, rfl, rfl, fun hfails => ?_⟩, rfl, rfl⟩
  dsimp only
  rw [hfails, if_pos rfl]

/-! ## `sfs_sync_vnodes` -/

/-- The vnode is taken for written. -/
theorem told_modifyVnode :
    Told w s (s.modifyVnode a fun sv => { sv with svDirty := false }) ∧
      ¬ (s.modifyVnode a fun sv => { sv with svDirty := false }).Dirty a := by
  have hvnodeOf : ∀ a', (s.modifyVnode a fun sv => { sv with svDirty := false }).vnodeOf a' =
      (s.vnodeOf a').map fun sv => if a' = a then { sv with svDirty := false } else sv :=
    vnodeOf_modifyVnode fun _ => rfl
  refine ⟨⟨?_, ?_, rfl, rfl, rfl, fun _ => rfl⟩, ?_⟩
  · unfold modifyVnode
    rw [List.map_map]
    apply List.map_congr_left
    intro sv _
    dsimp only [Function.comp]
    split <;> rfl
  · rintro a' ⟨sv', hsv', hdirty⟩
    rw [hvnodeOf] at hsv'
    obtain ⟨sv₀, hsv₀, rfl⟩ := Option.map_eq_some_iff.mp hsv'
    split at hdirty
    · cases hdirty
    · exact ⟨sv₀, hsv₀, hdirty⟩
  · rintro ⟨sv', hsv', hdirty⟩
    rw [hvnodeOf] at hsv'
    obtain ⟨sv₀, hsv₀, rfl⟩ := Option.map_eq_some_iff.mp hsv'
    rw [if_pos rfl] at hdirty
    cases hdirty

theorem sfsSyncInode_told (hsome : (s.vnodeOf a).isSome) (hin : a < w.dBlocks) :
    ∃ s', sfsSyncInode w a s = .ok () s' ∧ Told w s s' ∧ ¬ s'.Dirty a := by
  obtain ⟨sv, hsv⟩ := Option.isSome_iff_exists.mp hsome
  rw [sfsSyncInode, bind_ok (vnode_ok hsv)]
  by_cases hdirty : sv.svDirty = true
  · obtain ⟨s₁, hrun, htold, -⟩ := sfsWriteblock_told hin sv.svI.encode (s := s)
    rw [if_pos hdirty, vnodeOf_ino hsv, bind_ok hrun]
    obtain ⟨htold', hclean⟩ := told_modifyVnode (w := w) (s := s₁) (a := a)
    exact ⟨_, rfl, htold.trans htold', hclean⟩
  · rw [if_neg hdirty]
    refine ⟨s, rfl, .refl s, ?_⟩
    rintro ⟨sv', hsv', hdirty'⟩
    rw [hsv] at hsv'
    cases hsv'
    exact hdirty hdirty'

theorem syncLoop_told (svs : List SfsVnode) : ∀ {s},
    (∀ sv ∈ svs, (s.vnodeOf sv.svIno).isSome ∧ sv.svIno < w.dBlocks) →
    ∃ s', syncLoop w svs s = .ok () s' ∧ Told w s s' ∧ ∀ sv ∈ svs, ¬ s'.Dirty sv.svIno := by
  induction svs with
  | nil => exact fun {s} _ => ⟨s, rfl, .refl s, fun _ hsv => absurd hsv List.not_mem_nil⟩
  | cons sv svs ih =>
    intro s hin
    obtain ⟨hsome, hlt⟩ := hin sv List.mem_cons_self
    obtain ⟨s₁, hrun, htold, hclean⟩ := sfsSyncInode_told hsome hlt
    have hin₁ : ∀ sv ∈ svs, (s₁.vnodeOf sv.svIno).isSome ∧ sv.svIno < w.dBlocks := by
      intro sv hsv
      rw [htold.isSome]
      exact hin sv (List.mem_cons_of_mem _ hsv)
    obtain ⟨s₂, hrest, htold', hcleans⟩ := ih hin₁
    refine ⟨s₂, ?_, htold.trans htold', List.forall_mem_cons.mpr ⟨fun hdirty => ?_, hcleans⟩⟩
    · rw [syncLoop, bind_ok (tryCatch_ok hrun)]
      exact hrest
    · exact hclean (htold'.dirty _ hdirty)

/-! ## `sfs_sync_freemap`, `sfs_sync` -/

theorem freemapWrite_told (js : List ℕ) (hin : ∀ j ∈ js, sfsFreemapStart + j < w.dBlocks.toNat) :
    ∀ {s}, ∃ s', freemapWrite w js s = .ok () s' ∧ Told w s s' ∧ s'.vnodes = s.vnodes := by
  induction js with
  | nil => exact fun {s} => ⟨s, rfl, .refl s, rfl⟩
  | cons j js ih =>
    intro s
    have hj := hin j List.mem_cons_self
    have hblock : UInt32.ofNat (sfsFreemapStart + j) < w.dBlocks := by
      rw [UInt32.lt_iff_toNat_lt, ofNat_start hj]
      exact hj
    obtain ⟨s₁, hrun, htold, hvnodes, -⟩ := sfsWriteblock_told hblock (freemapBlock s.freemap j) (s := s)
    obtain ⟨s₂, hrest, htold', hvnodes'⟩ := ih (fun j hj => hin j (List.mem_cons_of_mem _ hj)) (s := s₁)
    refine ⟨s₂, ?_, htold.trans htold', hvnodes'.trans hvnodes⟩
    rw [freemapWrite, bind_ok get_ok, bind_ok hrun]
    exact hrest

theorem not_dirty_of_vnodes (h : s'.vnodes = s.vnodes) (hclean : ∀ a, ¬ s.Dirty a) (a : UInt32) : ¬ s'.Dirty a := by
  rintro ⟨sv, hsv, hdirty⟩
  rw [vnodeOf, h] at hsv
  exact hclean a ⟨sv, hsv, hdirty⟩

theorem sfsSyncFreemap_told (hsmall : s.sbNblocks.toNat ≤ 2 ^ 23)
    (hroom : sfsFreemapStart + sfsFreemapblocks s.sbNblocks.toNat ≤ s.sbNblocks.toNat)
    (hdevice : s.sbNblocks ≤ w.dBlocks) (hclean : ∀ a, ¬ s.Dirty a) :
    ∃ s', sfsSyncFreemap w s = .ok () s' ∧ Told w s s' ∧ (∀ a, ¬ s'.Dirty a) ∧ s'.freemapdirty = false := by
  have hdevice := UInt32.le_iff_toNat_le.mp hdevice
  rw [sfsSyncFreemap, bind_ok get_ok]
  by_cases hdirty : s.freemapdirty = true
  · have hin : ∀ j ∈ List.range (sfsFreemapblocks s.sbNblocks.toNat),
        sfsFreemapStart + j < w.dBlocks.toNat := by
      intro j hj
      have hlt := List.mem_range.mp hj
      omega
    obtain ⟨s₁, hrun, htold, hvnodes⟩ := freemapWrite_told _ hin (s := s)
    have hio : sfsFreemapio w .write s = .ok () s₁ := by
      rw [sfsFreemapio, bind_ok get_ok, sfsFsFreemapblocks_eq (lt_of_small hsmall)]
      exact hrun
    rw [if_pos hdirty, bind_ok hio]
    exact ⟨_, rfl, htold.trans ⟨rfl, fun _ => id, rfl, rfl, rfl, fun _ => rfl⟩,
      not_dirty_of_vnodes hvnodes hclean, rfl⟩
  · rw [if_neg hdirty]
    exact ⟨s, rfl, .refl s, hclean, Bool.eq_false_of_not_eq_true hdirty⟩

/-- Whatever the disk does, a sync of a volume in good order returns success with nothing dirty. On a disk
that writes nothing, what was only in memory is nowhere else. -/
theorem sfs_sync_silent (h : Ordered w s) (himage : Image s) :
    ∃ s', sfsSync w s = .ok () s' ∧ (∀ a, ¬ s'.Dirty a) ∧ s'.freemapdirty = false ∧ s'.superdirty = false ∧
      ((∀ t, w.writeFails t = true) → s'.disk = s.disk) := by
  have hin : ∀ sv ∈ s.vnodes, (s.vnodeOf sv.svIno).isSome ∧ sv.svIno < w.dBlocks := fun sv hsv =>
    ⟨isSome_of_mem hsv, h.sound.lt_device (h.sound.used_of_mem hsv)⟩
  obtain ⟨s₁, hvnodes, htold, hcleans⟩ := syncLoop_told s.vnodes hin
  have hclean : ∀ a, ¬ s₁.Dirty a := by
    intro a ha
    obtain ⟨sv, hsv, -⟩ := htold.dirty a ha
    exact hcleans sv (mem_of_vnodeOf hsv) (vnodeOf_ino hsv ▸ ha)
  have hblocks : s₁.sbNblocks = s.sbNblocks := congrArg SfsSuperblock.sbNblocks htold.sb
  obtain ⟨s₂, hmap, htold', hclean', hmapClean⟩ := sfsSyncFreemap_told (hblocks ▸ h.small)
    (hblocks ▸ himage.room) (hblocks ▸ h.sound.device) hclean
  have hsuper : s₂.superdirty = false := htold'.superdirty.trans (htold.superdirty.trans himage.superdirty)
  have hnot : ¬ s₂.superdirty = true := by simp [hsuper]
  refine ⟨s₂, ?_, hclean', hmapClean, hsuper, (htold.trans htold').lost⟩
  have hloop : sfsSyncVnodes w s = .ok () s₁ := by
    rw [sfsSyncVnodes, bind_ok get_ok]
    exact hvnodes
  rw [sfsSync, bind_ok hloop, bind_ok hmap, sfsSyncSuperblock, bind_ok get_ok, if_neg hnot]
  rfl

/-- A disk that writes nothing any more. -/
def deaf : World := { quiet with writeFails := fun _ => true }

theorem openA_ordered : Ordered deaf openA.1 :=
  let h := openA_account.wf.toOrdered
  { h with sound := { h.sound with device := h.sound.device } }

theorem sfs_sync_silent_openA : openA.1.Dirty 3 ∧
    ∃ s', sfsSync deaf openA.1 = .ok () s' ∧ (∀ a, ¬ s'.Dirty a) ∧ s'.freemapdirty = false ∧
      s'.superdirty = false ∧ ((∀ t, deaf.writeFails t = true) → s'.disk = openA.1.disk) := by
  have hdirty : (openA.1.vnodeOf 3).any SfsVnode.svDirty = true := by decide +kernel
  exact ⟨(Option.any_eq_true _ _).mp hdirty, sfs_sync_silent openA_ordered openA_account.image⟩

end UnionCollegeCode.OS161.Sfs
