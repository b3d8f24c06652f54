import UnionCollegeCode.OS161.Sfs.Sync

/-!
# What a mount finds

A mount has nothing but the disk. It finds the files of a volume that was clean, and the empty
directory of one that `mksfs` has just made.
-/

set_option autoImplicit false

namespace UnionCollegeCode.OS161.Sfs

open Function (update)
open Lib.EState
open SfsFs

variable {w : World} {s s' t : SfsFs} {a : UInt32} {disk disk' : ℕ → Block}

/-! ## `sfs_domount` -/

/-- The volume on `disk`, just mounted. -/
structure Mounted (image : ℕ → Block) (s : SfsFs) : Prop where
  disk : s.disk = image
  sb : ∀ sb, sb = SfsSuperblock.decode (image sfsSuperBlock) →
    s.sb = { sb with sbVolname := update sb.sbVolname 31 0 }
  magic : s.sb.sbMagic = sfsMagic
  superdirty : s.superdirty = false
  freemapdirty : s.freemapdirty = false
  vnodes : s.vnodes = []
  nbits : s.freemap.nbits = sfsFreemapbits s.sbNblocks.toNat
  map : ∀ j < sfsFreemapblocks s.sbNblocks.toNat, freemapBlock s.freemap j = image (sfsFreemapStart + j)

/-- The numbers in the superblock suit the device. -/
structure Suitable (w : World) (nblocks : UInt32) : Prop where
  device : nblocks ≤ w.dBlocks
  small : nblocks.toNat ≤ 2 ^ 23
  room : sfsFreemapStart + sfsFreemapblocks nblocks.toNat ≤ nblocks.toNat

theorem freemapBlock_load (m : Bitmap) (j : ℕ) (data : Block) (j' : ℕ) :
    freemapBlock (loadFreemapBlock m j data) j' = if j' = j then data else freemapBlock m j' := by
  funext i
  have hdiv : (j' * sfsBlocksize + i.1) / sfsBlocksize = j' := by
    unfold sfsBlocksize
    omega
  have hmod : (j' * sfsBlocksize + i.1) % sfsBlocksize = i.1 := by
    unfold sfsBlocksize
    omega
  rw [freemapBlock, loadFreemapBlock]
  simp only [hdiv, hmod]
  split <;> rfl

theorem freemapRead_spec (js : List ℕ) (hin : ∀ j ∈ js, sfsFreemapStart + j < w.dBlocks.toNat) :
    ∀ {s : SfsFs}, wp (freemapRead w js)
      (fun _ s' => ∃ m tick, s' = { s with freemap := m, tick := tick } ∧ m.nbits = s.freemap.nbits ∧
        ∀ j, freemapBlock m j = if j ∈ js then s.disk (sfsFreemapStart + j) else freemapBlock s.freemap j)
      (fun e _ => ∃ n, e = .errno n) s := by
  induction js with
  | nil => exact ⟨_, _, rfl, rfl, fun j => (if_neg nofun).symm⟩
  | cons j js ih =>
    intro s
    have hj := hin j List.mem_cons_self
    have hblock : UInt32.ofNat (sfsFreemapStart + j) < w.dBlocks := by
      rw [UInt32.lt_iff_toNat_lt, ofNat_start hj]
      exact hj
    rw [freemapRead, wp_bind]
    refine wp_mono ?_ (fun e s' h => h.1) (sfsReadblock_spec hblock)
    rintro data s₁ ⟨rfl, tick, rfl⟩
    rw [ofNat_start hj, wp_bind, wp_modify]
    refine wp_mono ?_ (fun _ _ h => h) (ih fun j hj => hin j (List.mem_cons_of_mem _ hj))
    rintro _ s₂ ⟨m, tick₂, rfl, hnbits, hmap⟩
    refine ⟨m, tick₂, rfl, hnbits, fun j' => ?_⟩
    rw [hmap]
    dsimp only
    rw [freemapBlock_load]
    by_cases heq : j' = j
    · subst heq
      simp
    · simp [heq]

theorem bitmapCreate_of_words {n : ℕ} (h : n % 8 = 0) : Bitmap.bitmapCreate n = .ok ⟨n, fun _ => 0⟩ := by
  have hnot : ¬ n / Bitmap.bitsPerWord < Bitmap.words n := by
    unfold Bitmap.words Bitmap.bitsPerWord
    omega
  rw [Bitmap.bitmapCreate, if_neg hnot]

theorem freemapbits_mod (n : ℕ) : sfsFreemapbits n % 8 = 0 := by
  unfold sfsFreemapbits sfsBitsperblock sfsBlocksize
  omega

theorem createFreemap_spec {n : ℕ} (h : n % 8 = 0) :
    wp (createFreemap w n)
      (fun _ s' => ∃ tick, s' = { s with freemap := ⟨n, fun _ => 0⟩, tick := tick })
      (fun e _ => ∃ n, e = .errno n) s := by
  rw [createFreemap, wp_bind, wp_ask, wp_ite]
  constructor
  · exact fun _ => ⟨_, rfl⟩
  · intro _
    rw [wp_bind, wp_ask, wp_ite]
    constructor
    · exact fun _ => ⟨_, rfl⟩
    · intro _
      rw [bitmapCreate_of_words h, wp_modify]
      exact ⟨_, rfl⟩

theorem sfsFsCreate_spec :
    wp (sfsFsCreate w)
      (fun _ s' => ∃ tick, s' = { s with superdirty := false, vnodes := [], freemapdirty := false, tick := tick })
      (fun e _ => ∃ n, e = .errno n) s := by
  rw [sfsFsCreate, wp_bind, wp_ask, wp_ite]
  constructor
  · exact fun _ => ⟨_, rfl⟩
  · intro _
    rw [wp_bind, wp_ask, wp_ite]
    constructor
    · exact fun _ => ⟨_, rfl⟩
    · intro _
      rw [wp_modify]
      exact ⟨_, rfl⟩

theorem sfsDomount_spec (h : Suitable w (SfsSuperblock.decode (t.disk sfsSuperBlock)).sbNblocks) :
    wp (sfsDomount w sfsBlocksize) (fun _ s' => Mounted t.disk s') (fun e _ => ∃ n, e = .errno n) t := by
  have hdevice := UInt32.le_iff_toNat_le.mp h.device
  have hroom := h.room
  have hfirst : UInt32.ofNat sfsSuperBlock < w.dBlocks := by
    rw [UInt32.lt_iff_toNat_lt]
    show 0 < w.dBlocks.toNat
    unfold sfsFreemapStart at hroom
    omega
  rw [sfsDomount, if_neg (not_not.mpr rfl), wp_bind]
  refine wp_mono ?_ (fun _ _ h => h) sfsFsCreate_spec
  rintro _ s₁ ⟨tick₁, rfl⟩
  rw [wp_bind]
  refine wp_mono ?_ (fun e s' h => h.1) (sfsReadblock_spec hfirst)
  rintro data s₂ ⟨rfl, tick₂, rfl⟩
  rw [show (UInt32.ofNat sfsSuperBlock).toNat = sfsSuperBlock from rfl]
  dsimp only
  rw [wp_ite]
  constructor
  · exact fun _ => ⟨_, rfl⟩
  · intro hmagic
    rw [wp_bind, wp_modify, wp_bind, sfsFsFreemapbits_eq (lt_of_small h.small)]
    refine wp_mono ?_ (fun _ _ h => h) (createFreemap_spec (freemapbits_mod _))
    rintro _ s₃ ⟨tick₃, rfl⟩
    rw [sfsFreemapio, wp_bind, wp_get]
    dsimp only
    rw [sfsFsFreemapblocks_eq (lt_of_small h.small)]
    refine wp_mono ?_ (fun _ _ h => h) (freemapRead_spec _ fun j hj => ?_)
    · rintro _ s₄ ⟨m, tick₄, rfl, hnbits, hmap⟩
      refine ⟨rfl, ?_, not_not.mp hmagic, rfl, rfl, rfl, hnbits, fun j hj => ?_⟩
      · rintro _ rfl
        rfl
      · rw [hmap, if_pos (List.mem_range.mpr hj)]
    · have hlt := List.mem_range.mp hj
      exact Nat.lt_of_lt_of_le (by omega) hdevice

theorem Mounted.vnodeOf (h : Mounted disk s) (a : UInt32) : s.vnodeOf a = none := by
  rw [SfsFs.vnodeOf, h.vnodes]
  rfl

theorem Mounted.forall_vnodes (h : Mounted disk s) {P : SfsVnode → Prop} : ∀ sv ∈ s.vnodes, P sv := by
  rw [h.vnodes]
  intro sv hsv
  cases hsv

theorem Mounted.refs (h : Mounted disk s) (a : UInt32) : s.refs a = 0 := by
  rw [SfsFs.refs, h.vnodeOf]

theorem Mounted.image (h : Mounted disk s)
    (hroom : sfsFreemapStart + sfsFreemapblocks s.sbNblocks.toNat ≤ s.sbNblocks.toNat) : Image s := by
  refine ⟨h.superdirty, ?_, h.magic, hroom, fun _ j hj => ?_⟩
  · rw [h.disk]
    exact h.sb
  · rw [h.disk]
    exact (h.map j hj).symm

/-! ## The free map, bit by bit -/

theorem v_of_blocks {m m' : Bitmap} {n : ℕ}
    (h : ∀ j < sfsFreemapblocks n, freemapBlock m' j = freemapBlock m j) {i : ℕ} (hi : i < sfsFreemapbits n) :
    m'.v (i / 8) = m.v (i / 8) := by
  have hj : i / 4096 < sfsFreemapblocks n := by
    unfold sfsFreemapblocks sfsFreemapbits sfsBitsperblock sfsBlocksize at *
    omega
  have hsplit : i / 4096 * sfsBlocksize + i / 8 % 512 = i / 8 := by
    unfold sfsBlocksize
    omega
  have hbyte := congrFun (h _ hj) ⟨i / 8 % 512, Nat.mod_lt _ (by decide)⟩
  unfold freemapBlock at hbyte
  rwa [hsplit] at hbyte

theorem closed_of_nbits {m : Bitmap} {n : ℕ} (h : m.nbits = sfsFreemapbits n) : m.Closed := by
  intro i hle hlt
  have hmod := freemapbits_mod n
  rw [h] at hle hlt
  unfold Bitmap.words Bitmap.bitsPerWord at hlt
  omega

theorem same_of_blocks {m m' : Bitmap} {n : ℕ} (hm : m.nbits = sfsFreemapbits n)
    (hm' : m'.nbits = sfsFreemapbits n)
    (h : ∀ j < sfsFreemapblocks n, freemapBlock m' j = freemapBlock m j) : m.Same m' := by
  refine ⟨hm'.trans hm.symm, closed_of_nbits hm', fun i hi => ?_⟩
  rw [Bitmap.isSet, v_of_blocks h (hm ▸ hi), Bitmap.isSet]

/-! ## A clean volume is found again -/

/-- Every inode in memory can be found from the directory. -/
def Rooted (s : SfsFs) : Prop :=
  ∀ a, (s.vnodeOf a).isSome → a = sfsRootdirIno ∨ ∃ i, s.Names i a

theorem Clean.remount (h : Ordered w s) (hclean : Clean s) (hrooted : Rooted s)
    (hmounted : Mounted s.disk s') : Intact w s (fun _ => True) s' ∧ Image s' := by
  have hsb : s'.sb = s.sb := (hmounted.sb _ rfl).trans (hclean.image.sb _ rfl).symm
  have hblocks : s'.sbNblocks = s.sbNblocks := congrArg SfsSuperblock.sbNblocks hsb
  have hinode : ∀ a, s'.inodeOf a = s.inodeOf a := by
    intro a
    rw [inodeOf, hmounted.vnodeOf, hmounted.disk]
    cases hsv : s.vnodeOf a with
    | none => rw [inodeOf, hsv]
    | some sv =>
      have hnot : sv.svDirty = false := Bool.eq_false_of_not_eq_true fun hdirty => hclean.vnodes a ⟨sv, hsv, hdirty⟩
      rw [inodeOf_loaded hsv]
      exact vnodeOf_ino hsv ▸ h.sound.synced sv (mem_of_vnodeOf hsv) hnot
  have hmap : s.freemap.Same s'.freemap := by
    refine same_of_blocks h.sound.bits (hblocks ▸ hmounted.nbits) fun j hj => ?_
    rw [hmounted.map j (hblocks.symm ▸ hj), hclean.image.map hclean.map j hj]
  have hroot : SameRoot s s' :=
    ⟨byteAt_of_inode hmounted.disk (hinode _), congrArg SfsDinode.attrs (hinode _)⟩
  have htable : Retabled s s' := by
    refine ⟨hmounted.disk, hmap, hblocks, fun a _ => hinode a, ?_, ?_, ?_, ?_, fun a ha => ?_⟩
    · rw [hmounted.vnodes]
      exact .nil
    · exact hmounted.forall_vnodes
    · exact hmounted.forall_vnodes
    · intro a ha
      rw [hmounted.vnodeOf] at ha
      cases ha
    · rcases hrooted a ha with rfl | ⟨i, hi⟩
      · exact live_root
      · exact live_of_names ((hroot.names i a).mpr hi)
  refine ⟨htable.intact h, hmounted.image ?_⟩
  rw [hblocks]
  exact hclean.image.room

end UnionCollegeCode.OS161.Sfs
