import UnionCollegeCode.OS161.Sfs.Mount

/-!
# What `mksfs` makes

The free map that `mksfs` writes has a bit set for each block that is not to be allocated, and for the
root's inode. The kernel finds a volume in good order there, with nothing in it.
-/

set_option autoImplicit false

namespace UnionCollegeCode.OS161.Sfs

open Function (update)
open Lib.EState
open SfsFs

variable {w : World} {s : SfsFs} {n : UInt32} {buf buf' : ℕ → UInt8} {disk disk' : ℕ → Block}
  {volname : CString}

theorem ok_of_bind {ε α β : Type} {x : Except ε α} {f : α → Except ε β} {b : β}
    (h : (x >>= f) = .ok b) : ∃ a, x = .ok a ∧ f a = .ok b := by
  cases x with
  | ok a => exact ⟨a, rfl, h⟩
  | error e => cases h

/-! ## `freemapbuf` -/

def Marked (buf : ℕ → UInt8) (i : ℕ) : Prop := (⟨0, buf⟩ : Bitmap).isSet i

theorem not_marked_zero (i : ℕ) : ¬ Marked (fun _ => 0) i := by
  unfold Marked Bitmap.isSet
  simp

theorem allocblock_marked {block : ℕ} (h : allocblock block buf = .ok buf') :
    ¬ Marked buf block ∧ ∀ i, Marked buf' i ↔ i = block ∨ Marked buf i := by
  unfold allocblock at h
  split at h
  · cases h
  · rename_i hclear
    cases h
    refine ⟨fun hset => hclear ?_, fun i => Bitmap.isSet_mark (b := ⟨0, buf⟩)⟩
    rw [ne_eq, Bitmap.and_mask_eq_zero (Nat.mod_lt _ (by decide)), Bool.not_eq_false]
    exact hset

theorem allocblocks_marked {blocks : List ℕ} (h : allocblocks blocks buf = .ok buf') :
    (∀ b ∈ blocks, ¬ Marked buf b) ∧ ∀ i, Marked buf' i ↔ i ∈ blocks ∨ Marked buf i := by
  induction blocks generalizing buf with
  | nil =>
    cases h
    simp
  | cons b blocks ih =>
    obtain ⟨buf₁, hfirst, hrest⟩ := ok_of_bind h
    obtain ⟨hclear, hmark⟩ := allocblock_marked hfirst
    obtain ⟨hclears, hmarks⟩ := ih hrest
    refine ⟨?_, fun i => ?_⟩
    · rw [List.forall_mem_cons]
      exact ⟨hclear, fun b' hb' hset => hclears b' hb' ((hmark b').mpr (.inr hset))⟩
    · rw [hmarks, hmark, List.mem_cons]
      tauto

/-- The free map of a new volume. -/
structure FreshMap (n : ℕ) (buf : ℕ → UInt8) : Prop where
  room : sfsFreemapStart + sfsFreemapblocks n ≤ n
  few : sfsFreemapblocks n ≤ maxfreemapblocks
  marked : ∀ i < sfsFreemapbits n, Marked buf i ↔ i = sfsRootdirIno.toNat ∨ ¬ Ordinary n i

theorem initfreemap_mapped (hpos : 0 < n) (hn : n.toNat + 4096 < 2 ^ 32)
    (h : initfreemap n = .ok buf) : FreshMap n.toNat buf := by
  have hpos := UInt32.lt_iff_toNat_lt.mp hpos
  unfold initfreemap at h
  rw [sfsFsFreemapbits_eq hn, sfsFsFreemapblocks_eq hn] at h
  dsimp only at h
  split at h
  · cases h
  · rename_i hfew
    obtain ⟨buf₀, hsuper, h⟩ := ok_of_bind h
    obtain ⟨buf₁, hroot, h⟩ := ok_of_bind h
    obtain ⟨buf₂, hmap, h⟩ := ok_of_bind h
    have hsuper := (allocblock_marked hsuper).2
    have hroot := (allocblock_marked hroot).2
    have hmap := (allocblocks_marked hmap).2
    obtain ⟨hclear, hend⟩ := allocblocks_marked h
    have hmarked₂ : ∀ i, Marked buf₂ i ↔
        (2 ≤ i ∧ i < 2 + sfsFreemapblocks n.toNat) ∨ i = 1 ∨ i = 0 := by
      intro i
      rw [hmap, hroot, hsuper, List.mem_range'_1]
      simp [not_marked_zero, sfsFreemapStart, sfsRootdirIno, sfsSuperBlock]
    have hroom : sfsFreemapStart + sfsFreemapblocks n.toNat ≤ n.toNat := by
      by_contra hlt
      have hin : n.toNat ∈ List.range' n.toNat (sfsFreemapbits n.toNat - n.toNat) := by
        rw [List.mem_range'_1]
        unfold sfsFreemapStart sfsFreemapblocks sfsFreemapbits sfsBitsperblock sfsBlocksize at *
        change 0 < n.toNat at hpos
        omega
      refine hclear _ hin ((hmarked₂ _).mpr ?_)
      unfold sfsFreemapStart at hlt
      change 0 < n.toNat at hpos
      omega
    refine ⟨hroom, Nat.not_lt.mp hfew, fun i hi => ?_⟩
    rw [hend, hmarked₂, List.mem_range'_1]
    unfold Ordinary sfsSuperBlock sfsFreemapStart
    show _ ↔ i = 1 ∨ _
    omega

/-! ## The volume -/

/-- What `mksfs` leaves on a disk. -/
structure Formatted (n : UInt32) (disk : ℕ → Block) : Prop where
  magic : (SfsSuperblock.decode (disk sfsSuperBlock)).sbMagic = sfsMagic
  nblocks : (SfsSuperblock.decode (disk sfsSuperBlock)).sbNblocks = n
  map : ∃ buf, FreshMap n.toNat buf ∧ ∀ j < sfsFreemapblocks n.toNat,
    disk (sfsFreemapStart + j) = fun i => buf (j * sfsBlocksize + i.1)
  root : SfsDinode.decode (disk sfsRootdirIno.toNat) = rootdirInode

theorem mksfs_formatted (hpos : 0 < n) (hn : n.toNat + 4096 < 2 ^ 32)
    (h : mksfs volname n disk = .ok disk') : Formatted n disk' := by
  obtain ⟨name, -, h⟩ := ok_of_bind h
  obtain ⟨buf, hbuf, h⟩ := ok_of_bind h
  obtain ⟨sb, hsb, h⟩ := ok_of_bind h
  cases h
  have hmapped := initfreemap_mapped hpos hn hbuf
  have hdecode : ∀ b : Block, writefreemap buf (List.range (sfsFsFreemapblocks n).toNat)
      (update disk sfsSuperBlock b) sfsSuperBlock = b := by
    intro b
    rw [writefreemap_apply, if_neg, Function.update_self]
    rintro ⟨hle, -⟩
    exact absurd hle (by decide)
  have hfirst : ∀ (d : ℕ → Block) (b : Block), update d sfsRootdirIno.toNat b sfsSuperBlock = d sfsSuperBlock :=
    fun d b => Function.update_of_ne (by decide) _ _
  unfold superblockOf at hsb
  split at hsb
  · cases hsb
  · cases hsb
    refine ⟨?_, ?_, ⟨buf, hmapped, fun j hj => ?_⟩, ?_⟩
    · rw [hfirst, hdecode, SfsSuperblock.decode_encode]
    · rw [hfirst, hdecode, SfsSuperblock.decode_encode]
    · have hne : sfsFreemapStart + j ≠ sfsRootdirIno.toNat := by
        unfold sfsFreemapStart
        show 2 + j ≠ 1
        omega
      have hsub : sfsFreemapStart + j - sfsFreemapStart = j := Nat.add_sub_cancel_left ..
      rw [Function.update_of_ne hne, writefreemap_apply, hsub, sfsFsFreemapblocks_eq hn,
        if_pos ⟨Nat.le_add_right .., List.mem_range.mpr hj⟩]
    · rw [Function.update_self, SfsDinode.decode_encode]

theorem Formatted.small (h : Formatted n disk) : n.toNat ≤ 2 ^ 23 := by
  obtain ⟨buf, hmapped, -⟩ := h.map
  have hfew := hmapped.few
  unfold sfsFreemapblocks sfsFreemapbits sfsBitsperblock sfsBlocksize maxfreemapblocks at hfew
  omega

theorem Formatted.suitable (h : Formatted n disk) (hn : n ≤ w.dBlocks) : Suitable w n := by
  obtain ⟨buf, hmapped, -⟩ := h.map
  exact ⟨hn, h.small, hmapped.room⟩

section Fresh

variable (h : Formatted n disk) (hmounted : Mounted disk s)

include h hmounted

theorem sbNblocks_of_formatted : s.sbNblocks = n := by
  rw [SfsFs.sbNblocks, hmounted.sb _ rfl]
  exact h.nblocks

theorem rootInode_of_formatted : s.inodeOf sfsRootdirIno = rootdirInode := by
  rw [inodeOf, hmounted.vnodeOf, hmounted.disk]
  exact h.root

theorem nentries_of_formatted : s.nentries = 0 := by
  rw [nentries, fileSize, rootInode_of_formatted h hmounted]
  rfl

theorem not_names_of_formatted (i : ℕ) (a : UInt32) : ¬ s.Names i a := by
  rintro ⟨hi, -, -⟩
  rw [nentries_of_formatted h hmounted] at hi
  exact Nat.not_lt_zero _ hi

theorem live_of_formatted (a : UInt32) : s.Live a ↔ a = sfsRootdirIno := by
  unfold SfsFs.Live
  rw [hmounted.vnodeOf]
  simp [not_names_of_formatted h hmounted]

theorem isSet_of_formatted {i : ℕ} (hi : i < sfsFreemapbits n.toNat) :
    s.freemap.isSet i ↔ i = sfsRootdirIno.toNat ∨ ¬ Ordinary n.toNat i := by
  obtain ⟨buf, hmapped, hdisk⟩ := h.map
  have hblocks := sbNblocks_of_formatted h hmounted
  have hsame : ∀ j < sfsFreemapblocks n.toNat, freemapBlock s.freemap j = freemapBlock ⟨0, buf⟩ j := by
    intro j hj
    rw [hmounted.map j (hblocks.symm ▸ hj), hdisk j hj]
    rfl
  rw [Bitmap.isSet, v_of_blocks hsame hi]
  exact hmapped.marked i hi

theorem used_of_formatted (v : UInt32) : s.Used v ↔ v = sfsRootdirIno := by
  obtain ⟨buf, hmapped, -⟩ := h.map
  rw [Used, sbNblocks_of_formatted h hmounted]
  constructor
  · rintro ⟨hord, hset⟩
    rw [isSet_of_formatted h hmounted (Nat.lt_of_lt_of_le hord.1 (le_freemapbits _))] at hset
    exact UInt32.toNat_inj.mp (hset.resolve_right (not_not.mpr hord))
  · rintro rfl
    have hroom := hmapped.room
    have hord : Ordinary n.toNat sfsRootdirIno.toNat := by
      unfold sfsFreemapStart at hroom
      refine ⟨?_, by decide, ?_⟩
      · show 1 < n.toNat
        omega
      · rintro ⟨hle, -⟩
        exact absurd hle (by decide)
    rw [isSet_of_formatted h hmounted (Nat.lt_of_lt_of_le hord.1 (le_freemapbits _))]
    exact ⟨hord, .inl rfl⟩

/-- The root alone holds a block, its own. -/
theorem part_of_formatted (p : Part) (hp : p ≠ .self) : s.part sfsRootdirIno p = 0 := by
  have hinode := rootInode_of_formatted h hmounted
  cases p with
  | self => exact absurd rfl hp
  | direct i =>
    rw [part, hinode]
    rfl
  | indirect =>
    rw [part, hinode]
    rfl
  | entry j =>
    rw [part, hinode]
    rfl

end Fresh

theorem Formatted.wf (h : Formatted n disk) (hmounted : Mounted disk s) (hn : n ≤ w.dBlocks) : Wf w s := by
  have hblocks := sbNblocks_of_formatted h hmounted
  have hlive := live_of_formatted h hmounted
  have hnames := not_names_of_formatted h hmounted
  have hinode := rootInode_of_formatted h hmounted
  have hsize : s.fileSize sfsRootdirIno = 0 := by
    rw [fileSize, hinode]
    rfl
  have hholds : ∀ x v, s.Holds s.Live x v ↔ x = (sfsRootdirIno, .self) ∧ v = sfsRootdirIno := by
    rintro ⟨a, p⟩ v
    unfold Holds
    dsimp only
    rw [hlive]
    constructor
    · rintro ⟨rfl, rfl, hne⟩
      have hp : p = .self := by_contra fun hp => hne (part_of_formatted h hmounted p hp)
      subst hp
      exact ⟨rfl, rfl⟩
    · rintro ⟨heq, rfl⟩
      cases heq
      exact ⟨rfl, rfl, by decide⟩
  have hsound : Sound w s.Live s := by
    refine ⟨⟨fun x y v hx hy => ?_, fun v => ?_⟩, closed_of_nbits hmounted.nbits, hmounted.nbits, ?_, ?_, ?_, ?_, ?_⟩
    · exact ((hholds x v).mp hx).1.trans ((hholds y v).mp hy).1.symm
    · rw [used_of_formatted h hmounted]
      simp only [hholds]
      exact ⟨fun hv => ⟨_, rfl, hv⟩, fun hx => hx.choose_spec.2⟩
    · intro i hi hnot
      rw [hmounted.nbits, hblocks] at hi
      rw [hblocks] at hnot
      exact (isSet_of_formatted h hmounted hi).mpr (.inr hnot)
    · exact hmounted.forall_vnodes
    · rw [hblocks]
      exact hn
    · exact hmounted.forall_vnodes
    · rw [hlive]
      decide
  refine ⟨⟨hsound, ?_, ?_, ?_, ?_, ?_, ?_, ?_, fun i => hnames i _, ?_, ?_⟩, ?_⟩
  · rw [hmounted.vnodes]
    exact .nil
  · exact hmounted.forall_vnodes
  · rw [hblocks]
    exact h.small
  · rw [hinode]
    rfl
  · rw [hinode]
    decide
  · rw [hsize]
    exact Nat.zero_mod _
  · rw [hsize]
    exact Nat.zero_le _
  · exact fun i j a b hi => absurd hi (hnames i a)
  · exact fun a ha hne => absurd ((hlive a).mp ha) hne
  · exact fun a ha hne => absurd ((hlive a).mp ha) hne

/-! ## A new volume, mounted -/

/-- A disk of 4096 blocks, and a machine, on which nothing fails. -/
def quiet : World :=
  ⟨4096, fun _ => false, fun _ => false, fun _ => false, fun _ => false⟩

/-- `vol`. -/
def volLabel : CString := ⟨[118, 111, 108], by decide⟩

def newDisk : ℕ → Block :=
  match mksfs volLabel quiet.dBlocks fun _ => .zero with
  | .ok disk => disk
  | .error _ => fun _ => .zero

theorem mksfs_newDisk : (mksfs volLabel quiet.dBlocks fun _ => .zero) = .ok newDisk := by
  have hok : (mksfs volLabel quiet.dBlocks fun _ => .zero).toBool = true := by decide +kernel
  unfold newDisk
  cases hmade : mksfs volLabel quiet.dBlocks fun _ => .zero with
  | ok disk => rfl
  | error e =>
    rw [hmade] at hok
    cases hok

theorem newDisk_formatted : Formatted quiet.dBlocks newDisk :=
  mksfs_formatted (by decide) (by decide) mksfs_newDisk

/-- Nothing is in memory yet. -/
def newVolume : SfsFs :=
  ⟨⟨0, 0, fun _ => 0, fun _ => 0⟩, false, ⟨0, fun _ => 0⟩, false, [], newDisk, 0⟩

def newMount : SfsFs :=
  match sfsDomount quiet sfsBlocksize newVolume with
  | .ok _ s => s
  | .error _ s => s

theorem newMount_mounted : Mounted newDisk newMount := by
  have hsuitable : Suitable quiet (SfsSuperblock.decode (newVolume.disk sfsSuperBlock)).sbNblocks := by
    change Suitable quiet (SfsSuperblock.decode (newDisk sfsSuperBlock)).sbNblocks
    rw [newDisk_formatted.nblocks]
    exact newDisk_formatted.suitable (UInt32.le_refl _)
  have hok : ((sfsDomount quiet sfsBlocksize).run' newVolume).isSome = true := by decide +kernel
  unfold newMount
  unfold EStateM.run' EStateM.run at hok
  cases hmount : sfsDomount quiet sfsBlocksize newVolume with
  | ok _ s => exact (wp_of_ok hmount).mp (sfsDomount_spec hsuitable)
  | error e s =>
    rw [hmount] at hok
    cases hok

end UnionCollegeCode.OS161.Sfs
