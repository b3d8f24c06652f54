import UnionCollegeCode.Lib.Holdings
import UnionCollegeCode.OS161.Sfs.Bmap

/-!
# Every block has one owner

The slots of an inode are its own block, its direct blocks, its indirect block and the entries of
that one. A volume is sound for a set of inodes when no block is in two of their slots and the free
map marks, of the blocks that are there to be allocated, exactly those that are in one.

What the bytes of a file are is read off the slots: a block that is none is full of zeros. Allocating
and mapping a block changes no byte of any file.
-/

set_option autoImplicit false

namespace UnionCollegeCode.OS161.Sfs

open Function (update)
open Lib (Accounted)
open Lib.EState

/-- `SFS_FREEMAPBITS`. -/
def sfsFreemapbits (nblocks : ℕ) : ℕ := (nblocks + sfsBitsperblock - 1) / sfsBitsperblock * sfsBitsperblock

/-- `SFS_FREEMAPBLOCKS`. -/
def sfsFreemapblocks (nblocks : ℕ) : ℕ := sfsFreemapbits nblocks / sfsBitsperblock

inductive Part
  | self
  | direct (i : Fin 15)
  | indirect
  | entry (j : Fin 128)
  deriving DecidableEq

namespace SfsFs

/-- The inode as the kernel has it: in memory, or on disk. -/
def inodeOf (s : SfsFs) (ino : UInt32) : SfsDinode :=
  match s.vnodeOf ino with
  | some sv => sv.svI
  | none => .decode (s.disk ino.toNat)

/-- What a slot holds, or `0`. -/
def part (s : SfsFs) (ino : UInt32) : Part → UInt32
  | .self => ino
  | .direct i => (s.inodeOf ino).sfiDirect i
  | .indirect => (s.inodeOf ino).sfiIndirect
  | .entry j =>
    if (s.inodeOf ino).sfiIndirect = 0 then 0
    else (s.disk (s.inodeOf ino).sfiIndirect.toNat).words j

/-- The slot of a block of a file. -/
def partOf (fileblock : ℕ) : Option Part :=
  if h : fileblock < 15 then some (.direct ⟨fileblock, h⟩)
  else if h : fileblock - 15 < 128 then some (.entry ⟨fileblock - 15, h⟩)
  else none

/-- The block of the disk that is a block of a file, or `0`. -/
def blockOf (s : SfsFs) (ino : UInt32) (fileblock : ℕ) : UInt32 :=
  match partOf fileblock with
  | some p => s.part ino p
  | none => 0

/-- A byte of a block; a block that is none is full of zeros. -/
def byteIn (s : SfsFs) (block : UInt32) (pos : ℕ) : UInt8 :=
  if block = 0 then 0 else s.disk block.toNat ⟨pos % 512, Nat.mod_lt _ (by decide)⟩

def byteAt (s : SfsFs) (ino : UInt32) (pos : ℕ) : UInt8 := s.byteIn (s.blockOf ino (pos / 512)) pos

/-- A block that can be allocated: not the superblock, nor in the free map, nor past the end. -/
def Ordinary (nblocks i : ℕ) : Prop :=
  i < nblocks ∧ i ≠ sfsSuperBlock ∧
    ¬ (sfsFreemapStart ≤ i ∧ i < sfsFreemapStart + sfsFreemapblocks nblocks)

def Used (s : SfsFs) (block : UInt32) : Prop :=
  Ordinary s.sbNblocks.toNat block.toNat ∧ s.freemap.isSet block.toNat

/-- In memory, and not yet on disk. -/
def Dirty (s : SfsFs) (ino : UInt32) : Prop := ∃ sv, s.vnodeOf ino = some sv ∧ sv.svDirty = true

def Holds (s : SfsFs) (live : UInt32 → Prop) (slot : UInt32 × Part) (block : UInt32) : Prop :=
  live slot.1 ∧ s.part slot.1 slot.2 = block ∧ block ≠ 0

end SfsFs

open SfsFs

/-- A vnode that is not dirty is as it is on disk. -/
def Synced (s : SfsFs) : Prop :=
  ∀ sv ∈ s.vnodes, sv.svDirty = false → SfsDinode.decode (s.disk sv.svIno.toNat) = sv.svI

structure Sound (w : World) (live : UInt32 → Prop) (s : SfsFs) : Prop where
  accounted : Accounted (s.Holds live) s.Used
  closed : s.freemap.Closed
  bits : s.freemap.nbits = sfsFreemapbits s.sbNblocks.toNat
  reserved : ∀ i < s.freemap.nbits, ¬ Ordinary s.sbNblocks.toNat i → s.freemap.isSet i
  loaded : ∀ sv ∈ s.vnodes, live sv.svIno
  device : s.sbNblocks ≤ w.dBlocks
  synced : Synced s
  zero : ¬ live 0

/-- What only a sync writes. The free map is dirty as soon as it is another one. -/
structure SameMeta (s s' : SfsFs) : Prop where
  sb : s'.sb = s.sb
  superdirty : s'.superdirty = s.superdirty
  disk : ∀ i, ¬ Ordinary s.sbNblocks.toNat i → s'.disk i = s.disk i
  map : s'.freemapdirty = false → s.freemapdirty = false ∧ s'.freemap = s.freemap

/-- What an inode says of its file, but for where the blocks are. -/
def SfsDinode.attrs (d : SfsDinode) : UInt32 × UInt16 × UInt16 :=
  (d.sfiSize, d.sfiType, d.sfiLinkcount)

/-- What others see of a vnode itself. -/
def SfsVnode.face (sv : SfsVnode) : UInt32 × ℕ := (sv.svIno, sv.vnRefcount)

/-- Nothing has changed that can be seen of the files. -/
structure SameFiles (live : UInt32 → Prop) (s s' : SfsFs) : Prop where
  bytes : ∀ ino, live ino → ∀ pos, s'.byteAt ino pos = s.byteAt ino pos
  attrs : ∀ ino, live ino → (s'.inodeOf ino).attrs = (s.inodeOf ino).attrs
  table : s'.vnodes.map SfsVnode.face = s.vnodes.map SfsVnode.face
  fixed : SameMeta s s'
  dirty : ∀ ino, s.Dirty ino → s'.Dirty ino

variable {w : World} {live : UInt32 → Prop} {s s' s₁ s₂ s₃ : SfsFs} {ino : UInt32}

namespace SameMeta

theorem refl (s : SfsFs) : SameMeta s s := ⟨rfl, rfl, fun _ _ => rfl, fun h => ⟨h, rfl⟩⟩

theorem blocks (h : SameMeta s s') : s'.sbNblocks = s.sbNblocks := congrArg SfsSuperblock.sbNblocks h.sb

theorem trans (h : SameMeta s₁ s₂) (h' : SameMeta s₂ s₃) : SameMeta s₁ s₃ := by
  refine ⟨h'.sb.trans h.sb, h'.superdirty.trans h.superdirty, fun i hi => ?_, fun hclean => ?_⟩
  · rw [h'.disk i (h.blocks.symm ▸ hi), h.disk i hi]
  · obtain ⟨hclean', hmap'⟩ := h'.map hclean
    obtain ⟨hclean₁, hmap⟩ := h.map hclean'
    exact ⟨hclean₁, hmap'.trans hmap⟩

theorem of_later (h : Later s s') : SameMeta s s' := by
  obtain ⟨tick, rfl⟩ := h
  exact ⟨rfl, rfl, fun _ _ => rfl, fun h => ⟨h, rfl⟩⟩

/-- A block that can be allocated is written. -/
theorem of_write {b : ℕ} {data : Block} (h : Ordinary s.sbNblocks.toNat b) (hsb : s'.sb = s.sb)
    (hsuper : s'.superdirty = s.superdirty) (hdisk : s'.disk = update s.disk b data)
    (hmap : s'.freemapdirty = false → s.freemapdirty = false ∧ s'.freemap = s.freemap) : SameMeta s s' := by
  refine ⟨hsb, hsuper, fun i hi => ?_, hmap⟩
  rw [hdisk, Function.update_of_ne]
  rintro rfl
  exact hi h

/-- The free map changes in memory. -/
theorem of_map {freemap : Bitmap} (hs' : s' = { s with freemap := freemap, freemapdirty := true }) :
    SameMeta s s' := by
  rw [hs']
  exact ⟨rfl, rfl, fun _ _ => rfl, nofun⟩

end SameMeta

theorem SameFiles.refl (s : SfsFs) : SameFiles live s s :=
  ⟨fun _ _ _ => rfl, fun _ _ => rfl, rfl, .refl s, fun _ h => h⟩

theorem SameFiles.trans (h : SameFiles live s₁ s₂) (h' : SameFiles live s₂ s₃) :
    SameFiles live s₁ s₃ where
  bytes ino hlive pos := (h'.bytes ino hlive pos).trans (h.bytes ino hlive pos)
  attrs ino hlive := (h'.attrs ino hlive).trans (h.attrs ino hlive)
  table := h'.table.trans h.table
  fixed := h.fixed.trans h'.fixed
  dirty ino hino := h'.dirty ino (h.dirty ino hino)

theorem le_freemapbits (n : ℕ) : n ≤ sfsFreemapbits n := by
  unfold sfsFreemapbits sfsBitsperblock sfsBlocksize
  omega

theorem Sound.nbits (h : Sound w live s) : s.sbNblocks.toNat ≤ s.freemap.nbits :=
  h.bits ▸ le_freemapbits _

theorem Sound.later (h : Sound w live s) (hlater : Later s s') : Sound w live s' := by
  obtain ⟨tick, rfl⟩ := hlater
  exact ⟨h.accounted, h.closed, h.bits, h.reserved, h.loaded, h.device, h.synced, h.zero⟩

theorem SameFiles.of_later (hlater : Later s s') : SameFiles live s s' := by
  have hfixed := SameMeta.of_later hlater
  obtain ⟨tick, rfl⟩ := hlater
  exact ⟨fun _ _ _ => rfl, fun _ _ => rfl, rfl, hfixed, fun _ h => h⟩

/-! ## The vnode table -/

theorem SfsFs.Dirty.of_vnodes (h : s.Dirty ino) (hvnodes : s'.vnodes = s.vnodes) : s'.Dirty ino := by
  rw [Dirty, vnodeOf, hvnodes]
  exact h

theorem vnodeOf_ino {sv : SfsVnode} (h : s.vnodeOf ino = some sv) : sv.svIno = ino := by
  simpa using List.find?_some h

theorem mem_of_vnodeOf {sv : SfsVnode} (h : s.vnodeOf ino = some sv) : sv ∈ s.vnodes :=
  List.mem_of_find?_eq_some h

theorem Sound.live_of_vnodeOf (h : Sound w live s) {sv : SfsVnode} (hsv : s.vnodeOf ino = some sv) :
    live ino := vnodeOf_ino hsv ▸ h.loaded sv (mem_of_vnodeOf hsv)

theorem inodeOf_loaded {sv : SfsVnode} (h : s.vnodeOf ino = some sv) : s.inodeOf ino = sv.svI := by
  rw [inodeOf, h]

theorem vnode_ok {sv : SfsVnode} (h : s.vnodeOf ino = some sv) : vnode ino s = .ok sv s := by
  rw [vnode, bind_ok get_ok, h]
  rfl

section Modify

variable {f : SfsVnode → SfsVnode} (hf : ∀ sv, (f sv).svIno = sv.svIno)

include hf

theorem vnodeOf_modifyVnode (ino' : UInt32) :
    (s.modifyVnode ino f).vnodeOf ino' =
      (s.vnodeOf ino').map fun sv => if ino' = ino then f sv else sv := by
  unfold vnodeOf modifyVnode
  dsimp only
  rw [List.find?_map]
  have hkeep : ((fun sv : SfsVnode => decide (sv.svIno = ino')) ∘
      fun sv => if sv.svIno = ino then f sv else sv) = fun sv => decide (sv.svIno = ino') := by
    funext sv
    by_cases h : sv.svIno = ino
    · simp [h, hf]
    · simp [h]
  rw [hkeep]
  cases h : s.vnodes.find? fun sv => sv.svIno = ino' with
  | none => rfl
  | some sv =>
    have hino : sv.svIno = ino' := by simpa using List.find?_some h
    simp [hino]

theorem vnodeOf_modifyVnode_self {sv : SfsVnode} (h : s.vnodeOf ino = some sv) :
    (s.modifyVnode ino f).vnodeOf ino = some (f sv) := by
  simp [vnodeOf_modifyVnode hf, h]

theorem vnodeOf_modifyVnode_of_ne {ino' : UInt32} (h : ino' ≠ ino) :
    (s.modifyVnode ino f).vnodeOf ino' = s.vnodeOf ino' := by
  simp [vnodeOf_modifyVnode hf, h]

theorem inodeOf_modifyVnode_of_ne {ino' : UInt32} (h : ino' ≠ ino) :
    (s.modifyVnode ino f).inodeOf ino' = s.inodeOf ino' := by
  rw [inodeOf, vnodeOf_modifyVnode_of_ne hf h, inodeOf]
  rfl

end Modify

def SfsVnode.changed (f : SfsDinode → SfsDinode) (sv : SfsVnode) : SfsVnode :=
  { sv with svI := f sv.svI, svDirty := true }

theorem SfsVnode.changed_ino (f : SfsDinode → SfsDinode) (sv : SfsVnode) :
    (sv.changed f).svIno = sv.svIno := rfl

/-- The volume with the inode of a vnode changed. -/
def SfsFs.setInode (s : SfsFs) (ino : UInt32) (f : SfsDinode → SfsDinode) : SfsFs :=
  s.modifyVnode ino (SfsVnode.changed f)

theorem changeInode_ok (f : SfsDinode → SfsDinode) : changeInode ino f s = .ok ⟨⟩ (s.setInode ino f) := rfl

theorem inodeOf_setInode {sv : SfsVnode} (h : s.vnodeOf ino = some sv) (f : SfsDinode → SfsDinode)
    (ino' : UInt32) :
    (s.setInode ino f).inodeOf ino' = if ino' = ino then f (s.inodeOf ino) else s.inodeOf ino' := by
  by_cases hino : ino' = ino
  · subst hino
    rw [if_pos rfl, inodeOf_loaded h, setInode,
      inodeOf_loaded (vnodeOf_modifyVnode_self (SfsVnode.changed_ino f) h)]
    rfl
  · rw [if_neg hino, setInode, inodeOf_modifyVnode_of_ne (SfsVnode.changed_ino f) hino]

theorem SfsFs.Dirty.setInode {ino' : UInt32} (h : s.Dirty ino') (f : SfsDinode → SfsDinode) :
    (s.setInode ino f).Dirty ino' := by
  obtain ⟨sv, hsv, hdirty⟩ := h
  refine ⟨if ino' = ino then sv.changed f else sv, ?_, ?_⟩
  · rw [SfsFs.setInode, vnodeOf_modifyVnode (SfsVnode.changed_ino f), hsv]
    rfl
  · split
    · rfl
    · exact hdirty

theorem SameMeta.setInode (s : SfsFs) (ino : UInt32) (f : SfsDinode → SfsDinode) :
    SameMeta s (s.setInode ino f) := ⟨rfl, rfl, fun _ _ => rfl, fun h => ⟨h, rfl⟩⟩

theorem Synced.setInode (h : Synced s) (f : SfsDinode → SfsDinode) : Synced (s.setInode ino f) := by
  intro sv' hsv' hclean
  obtain ⟨sv, hsv, rfl⟩ := List.mem_map.mp hsv'
  split at hclean
  · cases hclean
  · rename_i hne
    rw [if_neg hne]
    exact h sv hsv hclean

/-- No inode in memory is where the disk is written. -/
theorem Synced.of_write (h : Synced s) {b : UInt32} {data : Block} (hvnodes : s'.vnodes = s.vnodes)
    (hdisk : s'.disk = update s.disk b.toNat data) (hne : ∀ sv ∈ s.vnodes, sv.svIno ≠ b) :
    Synced s' := by
  intro sv hsv hclean
  rw [hvnodes] at hsv
  rw [hdisk, Function.update_of_ne]
  · exact h sv hsv hclean
  · exact fun heq => hne sv hsv (UInt32.toNat_inj.mp heq)

theorem inos_setInode (f : SfsDinode → SfsDinode) :
    (s.setInode ino f).vnodes.map SfsVnode.svIno = s.vnodes.map SfsVnode.svIno := by
  unfold setInode modifyVnode
  rw [List.map_map]
  apply List.map_congr_left
  intro sv _
  show (if sv.svIno = ino then sv.changed f else sv).svIno = sv.svIno
  split <;> rfl

theorem faces_setInode (f : SfsDinode → SfsDinode) :
    (s.setInode ino f).vnodes.map SfsVnode.face = s.vnodes.map SfsVnode.face := by
  unfold setInode modifyVnode
  rw [List.map_map]
  apply List.map_congr_left
  intro sv _
  show SfsVnode.face (if sv.svIno = ino then sv.changed f else sv) = _
  split <;> rfl

/-! ## Slots under a change of the volume -/

theorem part_congr (hinode : s'.inodeOf ino = s.inodeOf ino)
    (hdisk : (s.inodeOf ino).sfiIndirect ≠ 0 →
      s'.disk (s.inodeOf ino).sfiIndirect.toNat = s.disk (s.inodeOf ino).sfiIndirect.toNat) (p : Part) :
    s'.part ino p = s.part ino p := by
  cases p with
  | self => rfl
  | direct i => rw [part, hinode, part]
  | indirect => rw [part, hinode, part]
  | entry j =>
    rw [part, part, hinode]
    split
    · rfl
    · rename_i hne
      rw [hdisk hne]

/-- A slot of a block of data. -/
def Part.IsData : Part → Prop
  | .direct _ | .entry _ => True
  | .self | .indirect => False

theorem isData_partOf {fileblock : ℕ} {p : Part} (h : partOf fileblock = some p) : p.IsData := by
  unfold partOf at h
  split at h
  · cases h
    trivial
  · split at h
    · cases h
      trivial
    · cases h

theorem partOf_eq_direct {fileblock : ℕ} {i : Fin 15} (h : partOf fileblock = some (.direct i)) :
    fileblock = i.1 := by
  unfold partOf at h
  split at h
  · cases h
    rfl
  · split at h <;> cases h

theorem partOf_eq_entry {fileblock : ℕ} {j : Fin 128} (h : partOf fileblock = some (.entry j)) :
    fileblock = sfsNdirect + j.1 := by
  unfold partOf at h
  split at h
  · cases h
  · split at h
    · cases h
      unfold sfsNdirect
      dsimp only
      omega
    · cases h

theorem partOf_inj {m n : ℕ} {p : Part} (hm : partOf m = some p) (hn : partOf n = some p) : m = n := by
  cases p with
  | self => exact (isData_partOf hm).elim
  | indirect => exact (isData_partOf hm).elim
  | direct i => rw [partOf_eq_direct hm, partOf_eq_direct hn]
  | entry j => rw [partOf_eq_entry hm, partOf_eq_entry hn]

theorem blockOf_of_part {fileblock : ℕ} {p : Part} (h : partOf fileblock = some p) :
    s.blockOf ino fileblock = s.part ino p := by
  rw [blockOf, h]

/-- A block that is not there and a block full of zeros are the same to a reader. -/
theorem byteAt_congr
    (h : ∀ p : Part, p.IsData → s'.part ino p = s.part ino p ∧
        (s.part ino p ≠ 0 → s'.disk (s.part ino p).toNat = s.disk (s.part ino p).toNat) ∨
      s.part ino p = 0 ∧ s'.disk (s'.part ino p).toNat = Block.zero) (pos : ℕ) :
    s'.byteAt ino pos = s.byteAt ino pos := by
  cases hpart : partOf (pos / 512) with
  | none => simp only [byteAt, blockOf, hpart, byteIn, if_true]
  | some p =>
    rw [byteAt, byteAt, blockOf_of_part hpart, blockOf_of_part hpart]
    rcases h p (isData_partOf hpart) with ⟨hp, hdisk⟩ | ⟨hp, hzero⟩
    · rw [hp, byteIn, byteIn]
      split
      · rfl
      · rename_i hne
        rw [hdisk hne]
    · rw [hp, byteIn, byteIn, if_pos rfl, hzero]
      split <;> rfl

theorem Sound.take_slot (h : Sound w live s) {b : UInt32} {x : UInt32 × Part}
    (hord : Ordinary s.sbNblocks.toNat b.toNat) (hclear : ¬ s.freemap.isSet b.toNat)
    (hlive : live x.1) (hx : s.part x.1 x.2 = 0)
    (hpart : ∀ ino, live ino → ∀ p, s'.part ino p = if (ino, p) = x then b else s.part ino p)
    (hmap : s'.freemap = s.freemap.mark b.toNat) (hblocks : s'.sbNblocks = s.sbNblocks)
    (hinos : s'.vnodes.map SfsVnode.svIno = s.vnodes.map SfsVnode.svIno) (hsynced : Synced s') :
    Sound w live s' := by
  have hb : b ≠ 0 := by
    rintro rfl
    exact hord.2.1 rfl
  refine ⟨(h.accounted.take (fun hu => hclear hu.2) x).congr ?_ ?_, ?_, ?_, ?_, ?_, ?_, hsynced, h.zero⟩
  · rintro ⟨ino, p⟩ v
    unfold Holds
    by_cases hino : live ino
    · rw [hpart ino hino p]
      by_cases hslot : (ino, p) = x
      · subst hslot
        simp only [if_true, hino, true_and, hx]
        constructor
        · rintro ⟨rfl, -⟩
          exact .inl rfl
        · rintro (rfl | ⟨rfl, hv⟩)
          · exact ⟨rfl, hb⟩
          · exact absurd rfl hv
      · simp [hslot]
    · have hne : (ino, p) ≠ x := by
        rintro rfl
        exact hino hlive
      simp [hino, hne]
  · intro v
    unfold Used
    rw [hmap, hblocks, Bitmap.isSet_mark, UInt32.toNat_inj]
    constructor
    · rintro ⟨hv, rfl | hset⟩
      · exact .inl rfl
      · exact .inr ⟨hv, hset⟩
    · rintro (rfl | ⟨hv, hset⟩)
      · exact ⟨hord, .inl rfl⟩
      · exact ⟨hv, .inr hset⟩
  · rw [hmap]
    exact h.closed.mark
  · rw [hmap, hblocks]
    exact h.bits
  · rw [hmap, hblocks]
    intro i hi hnot
    exact Bitmap.isSet_mark.mpr (.inr (h.reserved i hi hnot))
  · intro sv hsv
    have hmem : sv.svIno ∈ s.vnodes.map SfsVnode.svIno := hinos ▸ List.mem_map_of_mem hsv
    obtain ⟨sv', hsv', heq⟩ := List.mem_map.mp hmem
    exact heq ▸ h.loaded sv' hsv'
  · rw [hblocks]
    exact h.device

/-- The blocks that are gone leave their slots. -/
theorem Sound.give_slots (h : Sound w live s) {gone : UInt32 → Prop}
    (hgone : ∀ v, gone v → s.Used v)
    (hpart : ∀ ino, live ino → ∀ p v, v ≠ 0 →
      (s'.part ino p = v ↔ ¬ gone v ∧ s.part ino p = v))
    (hset : ∀ i, s'.freemap.isSet i ↔ (∀ v, gone v → v.toNat ≠ i) ∧ s.freemap.isSet i)
    (hnbits : s'.freemap.nbits = s.freemap.nbits) (hblocks : s'.sbNblocks = s.sbNblocks)
    (hinos : s'.vnodes.map SfsVnode.svIno = s.vnodes.map SfsVnode.svIno) (hsynced : Synced s') :
    Sound w live s' := by
  have hfar : ∀ i, ¬ Ordinary s.sbNblocks.toNat i → ∀ v, gone v → v.toNat ≠ i := by
    rintro i hnot v hv rfl
    exact hnot (hgone v hv).1
  refine ⟨(h.accounted.give gone).congr ?_ ?_, ?_, ?_, ?_, ?_, ?_, hsynced, h.zero⟩
  · rintro ⟨ino, p⟩ v
    unfold Holds
    constructor
    · rintro ⟨hlive, hv, hne⟩
      obtain ⟨hkeep, hv⟩ := (hpart ino hlive p v hne).mp hv
      exact ⟨hkeep, hlive, hv, hne⟩
    · rintro ⟨hkeep, hlive, hv, hne⟩
      exact ⟨hlive, (hpart ino hlive p v hne).mpr ⟨hkeep, hv⟩, hne⟩
  · intro v
    unfold Used
    rw [hset, hblocks]
    constructor
    · rintro ⟨hord, hfree, hv⟩
      exact ⟨fun hg => hfree v hg rfl, hord, hv⟩
    · rintro ⟨hkeep, hord, hv⟩
      refine ⟨hord, fun u hu heq => hkeep ?_, hv⟩
      exact UInt32.toNat_inj.mp heq ▸ hu
  · intro i hi hi'
    rw [hnbits] at hi hi'
    refine (hset i).mpr ⟨hfar i ?_, h.closed i hi hi'⟩
    intro hord
    exact absurd (Nat.lt_of_lt_of_le hord.1 h.nbits) (Nat.not_lt.mpr hi)
  · rw [hnbits, hblocks]
    exact h.bits
  · rw [hnbits, hblocks]
    intro i hi hnot
    exact (hset i).mpr ⟨hfar i hnot, h.reserved i hi hnot⟩
  · intro sv hsv
    have hmem : sv.svIno ∈ s.vnodes.map SfsVnode.svIno := hinos ▸ List.mem_map_of_mem hsv
    obtain ⟨sv', hsv', heq⟩ := List.mem_map.mp hmem
    exact heq ▸ h.loaded sv' hsv'
  · rw [hblocks]
    exact h.device

end UnionCollegeCode.OS161.Sfs
