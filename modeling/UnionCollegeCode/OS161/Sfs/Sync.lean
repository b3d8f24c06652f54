import UnionCollegeCode.OS161.Sfs.Fsops
import UnionCollegeCode.OS161.Sfs.Vnodes

/-!
# A sync puts on disk what is only in memory

The superblock is never dirty, and the free map is dirty as soon as it differs from the disk. After a
sync nothing is dirty.
-/

set_option autoImplicit false

namespace UnionCollegeCode.OS161.Sfs

open Function (update)
open Lib.EState
open SfsFs

variable {w : World} {s s' s₁ s₂ : SfsFs} {a : UInt32} {sv : SfsVnode} {js : List ℕ}

/-! ## The free map in blocks -/

theorem sfsFsFreemapbits_eq {n : UInt32} (h : n.toNat + 4096 < 2 ^ 32) :
    (sfsFsFreemapbits n).toNat = sfsFreemapbits n.toNat := by
  have hadd : (n + 4096).toNat = n.toNat + 4096 := by
    rw [UInt32.toNat_add]
    exact Nat.mod_eq_of_lt h
  have hle : (1 : UInt32) ≤ n + 4096 := by
    rw [UInt32.le_iff_toNat_le, hadd]
    exact Nat.succ_le_of_lt (Nat.succ_pos _)
  have hsub : (n + 4096 - 1).toNat = n.toNat + 4095 := by
    rw [UInt32.toNat_sub_of_le _ _ hle, hadd]
    rfl
  have hdiv : ((n + 4096 - 1) / 4096).toNat = (n.toNat + 4095) / 4096 := by
    rw [UInt32.toNat_div, hsub]
    rfl
  rw [sfsFsFreemapbits, UInt32.toNat_mul, hdiv]
  exact Nat.mod_eq_of_lt (by simp only [UInt32.reduceToNat]; omega)

/-- No volume in good order is too large for `SFS_FS_FREEMAPBITS`. -/
theorem lt_of_small {n : UInt32} (h : n.toNat ≤ 2 ^ 23) : n.toNat + 4096 < 2 ^ 32 := by
  omega

theorem sfsFsFreemapblocks_eq {n : UInt32} (h : n.toNat + 4096 < 2 ^ 32) :
    (sfsFsFreemapblocks n).toNat = sfsFreemapblocks n.toNat := by
  rw [sfsFsFreemapblocks, UInt32.toNat_div, sfsFsFreemapbits_eq h]
  rfl

/-- The blocks `js` of a free map, and the rest of the disk. -/
theorem writefreemap_apply (buf : ℕ → UInt8) (js : List ℕ) (disk : ℕ → Block) (i : ℕ) :
    writefreemap buf js disk i =
      if sfsFreemapStart ≤ i ∧ i - sfsFreemapStart ∈ js then
        fun k => buf ((i - sfsFreemapStart) * sfsBlocksize + k.1)
      else disk i := by
  induction js generalizing disk with
  | nil => simp [writefreemap]
  | cons j js ih =>
    rw [writefreemap, ih]
    by_cases hi : i = sfsFreemapStart + j
    · subst hi
      have hsub : sfsFreemapStart + j - sfsFreemapStart = j := Nat.add_sub_cancel_left ..
      simp [hsub]
    · have hne : sfsFreemapStart ≤ i → i - sfsFreemapStart ≠ j := by
        rintro hle rfl
        exact hi (Nat.add_sub_of_le hle).symm
      rw [Function.update_of_ne hi]
      by_cases hle : sfsFreemapStart ≤ i
      · simp [hle, hne hle]
      · simp [hle]

theorem writefreemap_of_ordinary {n i : ℕ} (h : Ordinary n i) (buf : ℕ → UInt8) (disk : ℕ → Block) :
    writefreemap buf (List.range (sfsFreemapblocks n)) disk i = disk i := by
  rw [writefreemap_apply, if_neg]
  rintro ⟨hle, hmem⟩
  have hlt := List.mem_range.mp hmem
  exact h.2.2 ⟨hle, by omega⟩

theorem ofNat_start {j : ℕ} (h : sfsFreemapStart + j < w.dBlocks.toNat) :
    (UInt32.ofNat (sfsFreemapStart + j)).toNat = sfsFreemapStart + j :=
  UInt32.toNat_ofNat_of_lt' (h.trans w.dBlocks.toNat_lt)

theorem freemapWrite_ok (hw : w.Writes) (js : List ℕ)
    (hin : ∀ j ∈ js, sfsFreemapStart + j < w.dBlocks.toNat) :
    ∀ s : SfsFs, ∃ tick, freemapWrite w js s =
      .ok () { s with disk := writefreemap s.freemap.v js s.disk, tick := tick } := by
  induction js with
  | nil => exact fun s => ⟨s.tick, rfl⟩
  | cons j js ih =>
    intro s
    have hj := hin j List.mem_cons_self
    have hblock : UInt32.ofNat (sfsFreemapStart + j) < w.dBlocks := by
      rw [UInt32.lt_iff_toNat_lt, ofNat_start hj]
      exact hj
    obtain ⟨tick, hrun⟩ := sfsWriteblock_spec hw hblock (freemapBlock s.freemap j) (s := s)
    rw [ofNat_start hj] at hrun
    obtain ⟨tick', hrest⟩ := ih (fun j hj => hin j (List.mem_cons_of_mem _ hj))
      { s with disk := update s.disk (sfsFreemapStart + j) (freemapBlock s.freemap j), tick := tick }
    refine ⟨tick', ?_⟩
    rw [freemapWrite, bind_ok get_ok, bind_ok hrun, hrest]
    rfl

/-! ## The volume itself on disk -/

/-- The superblock on disk is the one in memory, and so is a free map that is not dirty. -/
structure Image (s : SfsFs) : Prop where
  superdirty : s.superdirty = false
  sb : ∀ sb, sb = SfsSuperblock.decode (s.disk sfsSuperBlock) →
    s.sb = { sb with sbVolname := update sb.sbVolname 31 0 }
  magic : s.sb.sbMagic = sfsMagic
  room : sfsFreemapStart + sfsFreemapblocks s.sbNblocks.toNat ≤ s.sbNblocks.toNat
  map : s.freemapdirty = false → ∀ j < sfsFreemapblocks s.sbNblocks.toNat,
    s.disk (sfsFreemapStart + j) = freemapBlock s.freemap j

theorem not_ordinary_super (n : ℕ) : ¬ Ordinary n sfsSuperBlock := fun h => h.2.1 rfl

theorem not_ordinary_map {n j : ℕ} (h : j < sfsFreemapblocks n) : ¬ Ordinary n (sfsFreemapStart + j) :=
  fun hordinary => hordinary.2.2 ⟨Nat.le_add_right .., Nat.add_lt_add_left h _⟩

theorem Image.congr (h : Image s) (hfixed : SameMeta s s') : Image s' := by
  refine ⟨hfixed.superdirty.trans h.superdirty, fun sb hsb => ?_, ?_, ?_, fun hclean j hj => ?_⟩
  · rw [hfixed.disk _ (not_ordinary_super _)] at hsb
    rw [hfixed.sb]
    exact h.sb sb hsb
  · rw [hfixed.sb]
    exact h.magic
  · rw [hfixed.blocks]
    exact h.room
  · rw [hfixed.blocks] at hj
    obtain ⟨hclean', hmap⟩ := hfixed.map hclean
    rw [hfixed.disk _ (not_ordinary_map hj), hmap]
    exact h.map hclean' j hj

/-- Nothing is in memory only. -/
structure Clean (s : SfsFs) : Prop where
  image : Image s
  map : s.freemapdirty = false
  vnodes : ∀ a, ¬ s.Dirty a

/-! ## `sfs_sync_vnodes` -/

/-- The inodes in `svs` are written back. -/
structure Flushed (w : World) (s : SfsFs) (svs : List SfsVnode) (s' : SfsFs) : Prop where
  untouched : Untouched w s (fun _ => True) s'
  table : s'.vnodes.map SfsVnode.face = s.vnodes.map SfsVnode.face
  dirty : ∀ a, s'.Dirty a → s.Dirty a ∧ ∀ sv ∈ svs, sv.svIno ≠ a

theorem syncLoop_spec (hw : w.Writes) (svs : List SfsVnode) : ∀ {s}, Ordered w s →
    (∀ sv ∈ svs, (s.vnodeOf sv.svIno).isSome) →
    wp (syncLoop w svs) (fun _ s' => Flushed w s svs s') (fun _ _ => False) s := by
  induction svs with
  | nil =>
    intro s h _
    exact ⟨h.sound.kept.untouched h, rfl, fun a ha => ⟨ha, nofun⟩⟩
  | cons sv svs ih =>
    intro s h hin
    obtain ⟨sv', hsv'⟩ := Option.isSome_iff_exists.mp (hin sv List.mem_cons_self)
    rw [syncLoop, wp_bind, wp_tryCatch]
    refine wp_mono ?_ (fun _ _ h => h.elim) (sfsSyncInode_spec hw h hsv')
    intro _ s₁ hback
    refine wp_mono ?_ (fun _ _ h => h) (ih hback.untouched.ordered fun sv hsv => ?_)
    · intro _ s₂ hflushed
      refine ⟨(hback.untouched.trans hflushed.untouched).mono fun _ _ => ⟨trivial, trivial⟩,
        hflushed.table.trans hback.table, fun a ha => ?_⟩
      obtain ⟨hdirty₁, hrest⟩ := hflushed.dirty a ha
      obtain ⟨hne, hdirty⟩ := hback.dirty a hdirty₁
      exact ⟨hdirty, List.forall_mem_cons.mpr ⟨hne.symm, hrest⟩⟩
    · rw [isSome_of_faces hback.table]
      exact hin sv (List.mem_cons_of_mem _ hsv)

theorem sfsSyncVnodes_spec (hw : w.Writes) (h : Ordered w s) :
    wp (sfsSyncVnodes w)
      (fun _ s' => Untouched w s (fun _ => True) s' ∧
        s'.vnodes.map SfsVnode.face = s.vnodes.map SfsVnode.face ∧ ∀ a, ¬ s'.Dirty a)
      (fun _ _ => False) s := by
  rw [sfsSyncVnodes, wp_bind, wp_get]
  refine wp_mono ?_ (fun _ _ h => h) (syncLoop_spec hw s.vnodes h fun sv hsv => isSome_of_mem hsv)
  intro _ s' hflushed
  refine ⟨hflushed.untouched, hflushed.table, fun a ha => ?_⟩
  obtain ⟨⟨sv, hsv, -⟩, hnone⟩ := hflushed.dirty a ha
  exact hnone sv (mem_of_vnodeOf hsv) (vnodeOf_ino hsv)

/-! ## `sfs_sync_freemap` -/

/-- What no file can hold is written. -/
theorem Ordered.write_reserved (h : Ordered w s)
    (hdisk : ∀ i, Ordinary s.sbNblocks.toNat i → s'.disk i = s.disk i) (hsb : s'.sb = s.sb)
    (hmap : s'.freemap = s.freemap) (hvnodes : s'.vnodes = s.vnodes) :
    Intact w s (fun _ => True) s' := by
  have hblocks : s'.sbNblocks = s.sbNblocks := congrArg SfsSuperblock.sbNblocks hsb
  have hvnodeOf : ∀ a, s'.vnodeOf a = s.vnodeOf a := fun a => by rw [vnodeOf, hvnodes, vnodeOf]
  have hheld : ∀ {a}, s.Live a → ∀ p, s.part a p ≠ 0 → s'.disk (s.part a p).toNat = s.disk (s.part a p).toNat := by
    intro a ha p hne
    exact hdisk _ ((h.sound.zero_or_used ha p).resolve_left hne).1
  have hself : ∀ {a}, s.Live a → s'.disk a.toNat = s.disk a.toNat := fun ha =>
    hheld ha .self (h.sound.ne_noino ha)
  have hinode : ∀ a, s.Live a → s'.inodeOf a = s.inodeOf a := by
    intro a ha
    rw [inodeOf, hvnodeOf, hself ha, inodeOf]
  have hparts : ∀ a, s.Live a → ∀ p, s'.part a p = s.part a p := fun a ha =>
    part_congr (hinode a ha) fun hne => hheld ha .indirect hne
  have hbytes : ∀ a, s.Live a → s'.byteAt a = s.byteAt a := fun a ha =>
    funext (byteAt_congr fun p _ => .inl ⟨hparts a ha p, hheld ha p⟩)
  have hsound : Sound w s.Live s' := by
    refine ⟨h.sound.accounted.congr ?_ fun v => ?_, ?_, ?_, ?_, ?_, ?_, ?_, h.sound.zero⟩
    · rintro ⟨a, p⟩ v
      unfold Holds
      refine and_congr_right fun ha => ?_
      rw [hparts a ha]
    · rw [Used, hblocks, hmap, Used]
    · rw [hmap]
      exact h.sound.closed
    · rw [hmap, hblocks]
      exact h.sound.bits
    · rw [hmap, hblocks]
      exact h.sound.reserved
    · rw [hvnodes]
      exact h.sound.loaded
    · rw [hblocks]
      exact h.sound.device
    · intro sv hsv hclean
      rw [hvnodes] at hsv
      rw [hself (h.sound.loaded sv hsv)]
      exact h.sound.synced sv hsv hclean
  exact h.intact_of hsound trivial (fun a ha _ => hbytes a ha) (fun a ha _ => by rw [hinode a ha])
    (fun a ha => by rw [hinode a ha]) (fun a ha => by rw [hinode a ha]) (by rw [hvnodes]) hblocks

theorem sfsSyncFreemap_spec (hw : w.Writes) (h : Ordered w s) (himage : Image s) (hdirty : ∀ a, ¬ s.Dirty a) :
    wp (sfsSyncFreemap w)
      (fun _ s' => Intact w s (fun _ => True) s' ∧ s'.vnodes = s.vnodes ∧ Clean s')
      (fun _ _ => False) s := by
  have hroom := himage.room
  have hdevice := UInt32.le_iff_toNat_le.mp h.sound.device
  rw [sfsSyncFreemap, wp_bind, wp_get, wp_ite]
  constructor
  · intro _
    have hin : ∀ j ∈ List.range (sfsFreemapblocks s.sbNblocks.toNat),
        sfsFreemapStart + j < w.dBlocks.toNat := by
      intro j hj
      have hlt := List.mem_range.mp hj
      omega
    obtain ⟨tick, hrun⟩ := freemapWrite_ok hw _ hin s
    rw [wp_bind, sfsFreemapio, wp_bind, wp_get, sfsFsFreemapblocks_eq (lt_of_small h.small), wp_of_ok hrun, wp_modify]
    refine ⟨h.write_reserved (fun i hi => writefreemap_of_ordinary hi _ _) rfl rfl rfl, rfl, ?_, rfl, hdirty⟩
    have hsuper : writefreemap s.freemap.v (List.range (sfsFreemapblocks s.sbNblocks.toNat)) s.disk sfsSuperBlock =
        s.disk sfsSuperBlock := by
      rw [writefreemap_apply, if_neg]
      rintro ⟨hle, -⟩
      exact absurd hle (by decide)
    refine ⟨himage.superdirty, fun sb hsb => himage.sb sb (hsb.trans ?_), himage.magic, hroom, fun _ j hj => ?_⟩
    · exact congrArg SfsSuperblock.decode hsuper
    · have hsub : sfsFreemapStart + j - sfsFreemapStart = j := Nat.add_sub_cancel_left ..
      dsimp only
      rw [writefreemap_apply, hsub, if_pos ⟨Nat.le_add_right .., List.mem_range.mpr hj⟩]
      rfl
  · intro hclean
    rw [wp_pure]
    exact ⟨(h.sound.kept.untouched h).toIntact, rfl, himage, Bool.eq_false_of_not_eq_true hclean, hdirty⟩

/-! ## `sfs_sync` -/

/-- A sync does not fail, the files are as before, and the disk has them. -/
theorem sfsSync_spec (hw : w.Writes) (h : Ordered w s) (himage : Image s) :
    wp (sfsSync w)
      (fun _ s' => Intact w s (fun _ => True) s' ∧
        s'.vnodes.map SfsVnode.face = s.vnodes.map SfsVnode.face ∧ Clean s')
      (fun _ _ => False) s := by
  rw [sfsSync, wp_bind]
  refine wp_mono ?_ (fun _ _ h => h) (sfsSyncVnodes_spec hw h)
  rintro _ s₁ ⟨hun, htable, hdirty⟩
  rw [wp_bind]
  refine wp_mono ?_ (fun _ _ h => h)
    (sfsSyncFreemap_spec hw hun.ordered (himage.congr hun.fixed) hdirty)
  rintro _ s₂ ⟨hintact, hvnodes, hclean⟩
  have hnot : ¬ s₂.superdirty = true := by
    rw [hclean.image.superdirty]
    nofun
  rw [sfsSyncSuperblock, wp_bind, wp_get, if_neg hnot, wp_pure]
  exact ⟨(hun.toIntact.trans hintact).mono fun _ _ => ⟨trivial, trivial⟩, hvnodes ▸ htable, hclean⟩

end UnionCollegeCode.OS161.Sfs
