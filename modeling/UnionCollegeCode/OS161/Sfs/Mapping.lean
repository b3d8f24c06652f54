import UnionCollegeCode.OS161.Sfs.Blocks

/-!
# What `sfs_bmap` does

It hands out the block that the slot holds. When it has to allocate, it takes blocks that nobody
owns, and no byte of any file changes.
-/

set_option autoImplicit false

namespace UnionCollegeCode.OS161.Sfs

open Function (update)
open Lib (Accounted)
open Lib.EState
open SfsFs

variable {w : World} {live : UInt32 → Prop} {s s' s₁ s₂ : SfsFs} {ino b : UInt32}

/-- The volume is as sound as before, and its files are as they were. -/
structure Kept (w : World) (live : UInt32 → Prop) (s s' : SfsFs) : Prop where
  sound : Sound w live s'
  same : SameFiles live s s'

theorem Sound.kept (h : Sound w live s) : Kept w live s s := ⟨h, .refl s⟩

theorem Sound.kept_later (h : Sound w live s) (hlater : Later s s') : Kept w live s s' :=
  ⟨h.later hlater, .of_later hlater⟩

theorem Kept.trans (h : Kept w live s s₁) (h' : Kept w live s₁ s₂) : Kept w live s s₂ :=
  ⟨h'.sound, h.same.trans h'.same⟩

/-! ## Allocation -/

/-- Nobody owns the block. -/
structure Fresh (s : SfsFs) (b : UInt32) : Prop where
  ordinary : Ordinary s.sbNblocks.toNat b.toNat
  clear : ¬ s.freemap.isSet b.toNat

/-- The volume when the block has been marked and cleared. -/
def SfsFs.allot (s : SfsFs) (b : UInt32) : SfsFs :=
  { s with
    freemap := s.freemap.mark b.toNat
    freemapdirty := true
    disk := update s.disk b.toNat Block.zero }

theorem Fresh.ne_zero (h : Fresh s b) : b ≠ 0 := by
  rintro rfl
  exact h.ordinary.2.1 rfl

theorem Fresh.lt_nblocks (h : Fresh s b) : b < s.sbNblocks := UInt32.lt_iff_toNat_lt.mpr h.ordinary.1

theorem Sound.part_ne_fresh (h : Sound w live s) (hb : Fresh s b) (hlive : live ino) (p : Part) :
    s.part ino p ≠ b := by
  rintro hpart
  exact h.accounted.not_holds (fun hu => hb.clear hu.2) (ino, p) ⟨hlive, hpart, hb.ne_zero⟩

theorem sfsBalloc_spec (hw : w.Writes) (h : Sound w live s) :
    wp (sfsBalloc w) (fun b s' => Fresh s b ∧ Later (s.allot b) s')
      (fun e s' => e = .errno ENOSPC ∧ s' = s) s := by
  rw [sfsBalloc, wp_bind, onFreemap, wp_zoom]
  refine wp_mono ?_ ?_ (Bitmap.bitmapAlloc_spec h.closed)
  · rintro i m ⟨hi, hclear, -, rfl⟩
    have hord : Ordinary s.sbNblocks.toNat i := by
      by_contra hnot
      exact hclear (h.reserved i hi hnot)
    have hlt : i < 2 ^ 32 := Nat.lt_trans hord.1 s.sbNblocks.toNat_lt
    have htoNat : (UInt32.ofNat i).toNat = i := UInt32.toNat_ofNat_of_lt' hlt
    have hfresh : Fresh s (UInt32.ofNat i) := ⟨htoNat.symm ▸ hord, htoNat.symm ▸ hclear⟩
    have hdevice : UInt32.ofNat i < w.dBlocks := UInt32.lt_of_lt_of_le hfresh.lt_nblocks h.device
    simp only [wp_bind, wp_modify, wp_get]
    rw [if_neg (UInt32.not_le.mpr hfresh.lt_nblocks)]
    rw [wp_bind, wp_tryCatch]
    obtain ⟨tick, hrun⟩ := @sfsWriteblock_spec w
      { s with freemap := s.freemap.mark i, freemapdirty := true } _ hw hdevice Block.zero
    rw [sfsClearblock, wp_of_ok hrun, wp_pure]
    refine ⟨hfresh, tick, ?_⟩
    rw [allot, htoNat]
  · rintro e m ⟨rfl, rfl, -⟩
    exact ⟨rfl, rfl⟩

theorem Sound.lt_nbits (h : Sound w live s) (hb : s.Used b) : b.toNat < s.freemap.nbits :=
  Nat.lt_of_lt_of_le hb.1.1 h.nbits

theorem Sound.lt_device (h : Sound w live s) (hb : s.Used b) : b < w.dBlocks :=
  UInt32.lt_of_lt_of_le (UInt32.lt_iff_toNat_lt.mpr hb.1.1) h.device

theorem sfsBused_ok (h : s.Used b) : sfsBused b s = .ok true s := by
  have hlt : b < s.sbNblocks := UInt32.lt_iff_toNat_lt.mpr h.1.1
  rw [sfsBused, bind_ok get_ok, if_neg (UInt32.not_le.mpr hlt), Bitmap.bitmapIsset_iff.mpr h.2]
  rfl

theorem handBack_ok (h : b = 0 ∨ s.Used b) : handBack b s = .ok b s := by
  unfold handBack
  by_cases hb : b = 0
  · rw [if_pos hb]
    rfl
  · rw [if_neg hb, bind_ok (sfsBused_ok (h.resolve_left hb)), if_pos rfl]
    rfl

theorem Sound.zero_or_used (h : Sound w live s) (hlive : live ino) (p : Part) :
    s.part ino p = 0 ∨ s.Used (s.part ino p) := by
  by_cases hzero : s.part ino p = 0
  · exact .inl hzero
  · exact .inr (h.accounted.used_of_holds (x := (ino, p)) ⟨hlive, rfl, hzero⟩)

/-! ## A block that nobody holds changes -/

section Write

variable {data : Block} (hvnodes : s'.vnodes = s.vnodes) (hdisk : s'.disk = update s.disk b.toNat data)

include hvnodes hdisk

theorem inodeOf_of_write (hne : (s.vnodeOf ino).isSome ∨ ino ≠ b) : s'.inodeOf ino = s.inodeOf ino := by
  have hsame : s'.vnodeOf ino = s.vnodeOf ino := by rw [vnodeOf, hvnodes, vnodeOf]
  unfold inodeOf
  rw [hsame]
  cases hsv : s.vnodeOf ino with
  | some sv => rfl
  | none =>
    have hino : ino.toNat ≠ b.toNat := by
      rcases hne with hsome | hne
      · rw [hsv] at hsome
        cases hsome
      · exact fun heq => hne (UInt32.toNat_inj.mp heq)
    dsimp only
    rw [hdisk, Function.update_of_ne hino]

theorem part_of_write (hne : ∀ p, s.part ino p ≠ b) (p : Part) : s'.part ino p = s.part ino p := by
  refine part_congr (inodeOf_of_write hvnodes hdisk (.inr (hne .self))) (fun _ => ?_) p
  rw [hdisk, Function.update_of_ne]
  exact fun heq => hne .indirect (UInt32.toNat_inj.mp heq)

end Write

theorem vnodes_allot (hlater : Later (s.allot b) s₁) : s₁.vnodes = s.vnodes := by
  obtain ⟨tick, rfl⟩ := hlater
  rfl

theorem disk_allot (hlater : Later (s.allot b) s₁) : s₁.disk = update s.disk b.toNat Block.zero := by
  obtain ⟨tick, rfl⟩ := hlater
  rfl

theorem SameMeta.of_allot (hb : Fresh s b) (hlater : Later (s.allot b) s₁) : SameMeta s s₁ := by
  obtain ⟨tick, rfl⟩ := hlater
  exact .of_write hb.ordinary rfl rfl rfl nofun

theorem Sound.part_allot (h : Sound w live s) (hb : Fresh s b) (hlater : Later (s.allot b) s₁)
    (hlive : live ino) : ∀ p, s₁.part ino p = s.part ino p :=
  part_of_write (vnodes_allot hlater) (disk_allot hlater) (h.part_ne_fresh hb hlive)

theorem Sound.inodeOf_allot (h : Sound w live s) (hb : Fresh s b) (hlater : Later (s.allot b) s₁)
    (hlive : live ino) : s₁.inodeOf ino = s.inodeOf ino :=
  inodeOf_of_write (vnodes_allot hlater) (disk_allot hlater) (.inr (h.part_ne_fresh hb hlive .self))

theorem vnodeOf_allot (hlater : Later (s.allot b) s₁) : s₁.vnodeOf ino = s.vnodeOf ino := by
  rw [vnodeOf, vnodes_allot hlater, vnodeOf]

/-- No other slot holds the block. -/
theorem Sound.holder_alone (h : Sound w live s) (hlive : live ino) {q : Part}
    (hq : s.part ino q = b) (hne : b ≠ 0) (ino' : UInt32) (hlive' : live ino') (p : Part)
    (hslot : (ino', p) ≠ (ino, q)) : s.part ino' p ≠ b :=
  fun hp => hslot (h.accounted.alone (ino', p) (ino, q) b ⟨hlive', hp, hne⟩ ⟨hlive, hq, hne⟩)

theorem Sound.synced_allot (h : Sound w live s) (hb : Fresh s b) (hlater : Later (s.allot b) s₁) :
    Synced s₁ :=
  h.synced.of_write (vnodes_allot hlater) (disk_allot hlater) fun sv hsv =>
    h.part_ne_fresh hb (h.loaded sv hsv) .self

/-! ## A fresh block is put in a slot -/

/-- A slot that was empty now holds `b`, and the rest is as it was. -/
structure Filled (live : UInt32 → Prop) (s : SfsFs) (x : UInt32 × Part) (b : UInt32)
    (s' : SfsFs) : Prop where
  part : ∀ ino, live ino → ∀ p, s'.part ino p = if (ino, p) = x then b else s.part ino p
  map : s'.freemap = s.freemap.mark b.toNat
  fixed : SameMeta s s'
  data : ∀ ino, live ino → ∀ p : Part, p.IsData → s.part ino p ≠ 0 →
    s'.disk (s.part ino p).toNat = s.disk (s.part ino p).toNat
  zero : x.2.IsData → s'.disk b.toNat = Block.zero
  attrs : ∀ ino, live ino → (s'.inodeOf ino).attrs = (s.inodeOf ino).attrs
  table : s'.vnodes.map SfsVnode.face = s.vnodes.map SfsVnode.face
  synced : Synced s'
  dirty : ∀ ino, s.Dirty ino → s'.Dirty ino

theorem inos_of_faces (h : s'.vnodes.map SfsVnode.face = s.vnodes.map SfsVnode.face) :
    s'.vnodes.map SfsVnode.svIno = s.vnodes.map SfsVnode.svIno := by
  have hfst := congrArg (List.map Prod.fst) h
  rw [List.map_map, List.map_map] at hfst
  exact hfst

/-- A vnode stays in the table, with as many references. -/
theorem vnodeOf_of_faces (h : s'.vnodes.map SfsVnode.face = s.vnodes.map SfsVnode.face)
    {sv : SfsVnode} (hsv : s.vnodeOf ino = some sv) :
    ∃ sv', s'.vnodeOf ino = some sv' ∧ sv'.vnRefcount = sv.vnRefcount := by
  have hface : ∀ t : SfsFs, (t.vnodes.map SfsVnode.face).find? (fun f => f.1 = ino) =
      (t.vnodeOf ino).map SfsVnode.face := fun t => List.find?_map
  have hfind := hface s'
  rw [h, hface s, hsv] at hfind
  obtain ⟨sv', hsv', heq⟩ := Option.map_eq_some_iff.mp hfind.symm
  exact ⟨sv', hsv', congrArg Prod.snd heq⟩

theorem Sound.fill (h : Sound w live s) {x : UInt32 × Part} (hb : Fresh s b) (hlive : live x.1)
    (hx : s.part x.1 x.2 = 0) (hfill : Filled live s x b s') : Kept w live s s' := by
  refine ⟨h.take_slot hb.ordinary hb.clear hlive hx hfill.part hfill.map hfill.fixed.blocks
    (inos_of_faces hfill.table) hfill.synced, ?_, hfill.attrs, hfill.table, hfill.fixed, hfill.dirty⟩
  intro ino hino pos
  refine byteAt_congr (fun p hp => ?_) pos
  rw [hfill.part ino hino p]
  by_cases hslot : (ino, p) = x
  · subst hslot
    rw [if_pos rfl]
    exact .inr ⟨hx, hfill.zero hp⟩
  · rw [if_neg hslot]
    exact .inl ⟨rfl, hfill.data ino hino p hp⟩

/-- A block of data is not fresh, so clearing the fresh one leaves it alone. -/
theorem Sound.data_allot (h : Sound w live s) (hb : Fresh s b) (hlater : Later (s.allot b) s₁)
    (hlive : live ino) (p : Part) : s₁.disk (s.part ino p).toNat = s.disk (s.part ino p).toNat := by
  rw [disk_allot hlater, Function.update_of_ne]
  exact fun heq => h.part_ne_fresh hb hlive p (UInt32.toNat_inj.mp heq)

section SetInode

variable {sv : SfsVnode} (hsv : s₁.vnodeOf ino = some sv)

include hsv

theorem part_setInode_of_ne {ino' : UInt32} (hne : ino' ≠ ino) (f : SfsDinode → SfsDinode) (p : Part) :
    (s₁.setInode ino f).part ino' p = s₁.part ino' p := by
  have hinode : (s₁.setInode ino f).inodeOf ino' = s₁.inodeOf ino' := by
    rw [inodeOf_setInode hsv, if_neg hne]
  exact part_congr hinode (fun _ => rfl) p

/-- The slots do not depend on the rest of the inode. -/
theorem part_setAttrs {f : SfsDinode → SfsDinode}
    (hf : ∀ d, (f d).sfiDirect = d.sfiDirect ∧ (f d).sfiIndirect = d.sfiIndirect) (ino' : UInt32)
    (p : Part) : (s₁.setInode ino f).part ino' p = s₁.part ino' p := by
  have hinode := inodeOf_setInode hsv f ino'
  by_cases hne : ino' = ino
  · subst hne
    rw [if_pos rfl] at hinode
    cases p with
    | self => rw [part, part]
    | direct i => rw [part, hinode, (hf _).1, part]
    | indirect => rw [part, hinode, (hf _).2, part]
    | entry j =>
      rw [part, hinode, (hf _).2, part]
      rfl
  · exact part_setInode_of_ne hsv hne f p

theorem byteAt_setAttrs {f : SfsDinode → SfsDinode}
    (hf : ∀ d, (f d).sfiDirect = d.sfiDirect ∧ (f d).sfiIndirect = d.sfiIndirect) (ino' : UInt32) :
    (s₁.setInode ino f).byteAt ino' = s₁.byteAt ino' :=
  funext (byteAt_congr fun p _ => .inl ⟨part_setAttrs hsv hf ino' p, fun _ => rfl⟩)

theorem Sound.setAttrs (h : Sound w live s₁) {f : SfsDinode → SfsDinode}
    (hf : ∀ d, (f d).sfiDirect = d.sfiDirect ∧ (f d).sfiIndirect = d.sfiIndirect) :
    Sound w live (s₁.setInode ino f) := by
  refine ⟨h.accounted.congr ?_ fun _ => .rfl, h.closed, h.bits, h.reserved, ?_, h.device,
    h.synced.setInode f, h.zero⟩
  · rintro ⟨ino', p⟩ v
    rw [Holds, Holds, part_setAttrs hsv hf]
  · intro sv' hsv'
    have hmem := List.mem_map_of_mem (f := SfsVnode.svIno) hsv'
    rw [inos_setInode] at hmem
    obtain ⟨sv₀, hsv₀, heq⟩ := List.mem_map.mp hmem
    exact heq ▸ h.loaded sv₀ hsv₀

theorem part_setDirect (i : Fin 15) (p : Part) :
    (s₁.setInode ino fun d => { d with sfiDirect := update d.sfiDirect i b }).part ino p =
      if p = .direct i then b else s₁.part ino p := by
  have hinode := inodeOf_setInode hsv (fun d => { d with sfiDirect := update d.sfiDirect i b }) ino
  rw [if_pos rfl] at hinode
  cases p with
  | self => rw [if_neg (by simp), part, part]
  | direct j =>
    rw [part, hinode, part]
    by_cases hj : j = i
    · subst hj
      simp
    · simp [hj]
  | indirect => rw [if_neg (by simp), part, hinode, part]
  | entry j =>
    rw [if_neg (by simp), part, hinode, part]
    rfl

theorem part_setIndirect (hzero : s₁.disk b.toNat = Block.zero)
    (hnone : (s₁.inodeOf ino).sfiIndirect = 0) (p : Part) :
    (s₁.setInode ino fun d => { d with sfiIndirect := b }).part ino p =
      if p = .indirect then b else s₁.part ino p := by
  have hinode := inodeOf_setInode hsv (fun d => { d with sfiIndirect := b }) ino
  rw [if_pos rfl] at hinode
  cases p with
  | self => rw [if_neg (by simp), part, part]
  | direct j => rw [if_neg (by simp), part, hinode, part]
  | indirect => rw [if_pos rfl, part, hinode]
  | entry j =>
    have hword : (s₁.disk b.toNat).words j = 0 := by rw [hzero, words_zero]
    rw [if_neg (by simp), part, hinode, part, if_pos hnone]
    exact ite_eq_left_iff.mpr fun _ => hword

end SetInode

variable {sv : SfsVnode}

theorem Sound.fill_setInode (h : Sound w live s) (hb : Fresh s b) (hlater : Later (s.allot b) s₁)
    (hsv : s.vnodeOf ino = some sv) {f : SfsDinode → SfsDinode} {p₀ : Part}
    (hattrs : ∀ d, (f d).attrs = d.attrs) (hdata : p₀.IsData → s₁.disk b.toNat = Block.zero)
    (hpart : ∀ p, (s₁.setInode ino f).part ino p = if p = p₀ then b else s₁.part ino p) :
    Filled live s (ino, p₀) b (s₁.setInode ino f) := by
  have hsv₁ : s₁.vnodeOf ino = some sv := (vnodeOf_allot hlater).trans hsv
  have hlive := h.live_of_vnodeOf hsv
  refine ⟨?_, ?_, ?_, fun _ hino p _ _ => h.data_allot hb hlater hino p, hdata, ?_, ?_,
    (h.synced_allot hb hlater).setInode _,
    fun _ hdirty => (hdirty.of_vnodes (vnodes_allot hlater)).setInode _⟩
  · intro ino' hino' p
    by_cases hne : ino' = ino
    · subst hne
      rw [hpart, h.part_allot hb hlater hlive]
      simp
    · rw [part_setInode_of_ne hsv₁ hne, h.part_allot hb hlater hino', if_neg (by simp [hne])]
  · obtain ⟨tick, rfl⟩ := hlater
    rfl
  · exact (SameMeta.of_allot hb hlater).trans (.setInode s₁ ino f)
  · intro ino' hino'
    rw [inodeOf_setInode hsv₁]
    split
    · rename_i heq
      rw [heq, hattrs, h.inodeOf_allot hb hlater hlive]
    · rw [h.inodeOf_allot hb hlater hino']
  · rw [faces_setInode, vnodes_allot hlater]

theorem disk_allot_self (hlater : Later (s.allot b) s₁) : s₁.disk b.toNat = Block.zero := by
  rw [disk_allot hlater, Function.update_self]

theorem Sound.fill_direct (h : Sound w live s) (hb : Fresh s b) (hlater : Later (s.allot b) s₁)
    (hsv : s.vnodeOf ino = some sv) (i : Fin 15) :
    Filled live s (ino, .direct i) b
      (s₁.setInode ino fun d => { d with sfiDirect := update d.sfiDirect i b }) :=
  h.fill_setInode hb hlater hsv (fun _ => rfl) (fun _ => disk_allot_self hlater)
    (part_setDirect ((vnodeOf_allot hlater).trans hsv) i)

theorem Sound.fill_indirect (h : Sound w live s) (hb : Fresh s b) (hlater : Later (s.allot b) s₁)
    (hsv : s.vnodeOf ino = some sv) (hnone : s.part ino .indirect = 0) :
    Filled live s (ino, .indirect) b (s₁.setInode ino fun d => { d with sfiIndirect := b }) := by
  refine h.fill_setInode hb hlater hsv (fun _ => rfl) (fun hdata => hdata.elim)
    (part_setIndirect ((vnodeOf_allot hlater).trans hsv) (disk_allot_self hlater) ?_)
  rw [h.inodeOf_allot hb hlater (h.live_of_vnodeOf hsv)]
  exact hnone

/-- The indirect block is written back with its new entry. -/
theorem Sound.fill_entry (h : Sound w live s) (hb : Fresh s b) (hlater : Later (s.allot b) s₁)
    (hsv : s.vnodeOf ino = some sv) {idblock : UInt32} (hid : s.part ino .indirect = idblock)
    (hne : idblock ≠ 0) (j : Fin 128) (hvnodes : s₂.vnodes = s₁.vnodes)
    (hmap : s₂.freemap = s₁.freemap) (hfixed : SameMeta s₁ s₂)
    (hdisk : s₂.disk = update s₁.disk idblock.toNat
      (.ofWords (update (s.disk idblock.toNat).words j b))) :
    Filled live s (ino, .entry j) b s₂ := by
  have hlive := h.live_of_vnodeOf hsv
  have hidb : idblock ≠ b := hid ▸ h.part_ne_fresh hb hlive .indirect
  have hother := h.holder_alone hlive hid hne
  have hinode : ∀ ino', live ino' → s₂.inodeOf ino' = s.inodeOf ino' := by
    intro ino' hino'
    have hino : ino' ≠ idblock := hother ino' hino' .self (by simp)
    rw [inodeOf_of_write hvnodes hdisk (.inr hino), h.inodeOf_allot hb hlater hino']
  have hsame : ∀ ino', live ino' → ∀ p, (ino', p) ≠ (ino, .indirect) →
      s₂.disk (s.part ino' p).toNat = s.disk (s.part ino' p).toNat := by
    intro ino' hino' p hslot
    rw [hdisk, Function.update_of_ne, h.data_allot hb hlater hino']
    exact fun heq => hother ino' hino' p hslot (UInt32.toNat_inj.mp heq)
  refine ⟨?_, ?_, ?_, ?_, ?_, ?_, ?_, ?_, fun _ hdirty =>
    hdirty.of_vnodes (hvnodes.trans (vnodes_allot hlater))⟩
  · intro ino' hino' p
    by_cases heq : ino' = ino
    · subst heq
      cases p with
      | self => rw [if_neg (by simp), part, part]
      | direct i => rw [if_neg (by simp), part, hinode _ hino', part]
      | indirect => rw [if_neg (by simp), part, hinode _ hino', part]
      | entry k =>
        have hid' : (s.inodeOf ino').sfiIndirect = idblock := hid
        rw [part, hinode _ hino', part, hid', if_neg hne, if_neg hne, hdisk, Function.update_self,
          words_ofWords]
        by_cases hk : k = j
        · subst hk
          simp
        · simp [hk]
    · rw [if_neg (by simp [heq])]
      exact part_congr (hinode ino' hino') (fun _ => hsame ino' hino' .indirect (by simp [heq])) p
  · obtain ⟨tick, rfl⟩ := hlater
    exact hmap
  · exact (SameMeta.of_allot hb hlater).trans hfixed
  · intro ino' hino' p hp _
    refine hsame ino' hino' p ?_
    intro heq
    cases heq
    exact hp
  · intro _
    rw [hdisk, Function.update_of_ne, disk_allot_self hlater]
    exact fun heq => hidb (UInt32.toNat_inj.mp heq).symm
  · intro ino' hino'
    rw [hinode ino' hino']
  · rw [hvnodes, vnodes_allot hlater]
  · refine (h.synced_allot hb hlater).of_write hvnodes hdisk fun sv hsv => ?_
    rw [vnodes_allot hlater] at hsv
    exact hother sv.svIno (h.loaded sv hsv) .self (by simp)

/-! ## `sfs_bmap` -/

/-- The slot has been looked at, and filled if there was need. -/
structure Mapped (w : World) (live : UInt32 → Prop) (s : SfsFs) (ino : UInt32) (p : Part)
    (doalloc : Bool) (b : UInt32) (s' : SfsFs) : Prop where
  kept : Kept w live s s'
  part : s'.part ino p = b
  got : doalloc = true → b ≠ 0
  same : doalloc = false → Later s s'

/-- An error, and the files are as they were. -/
def Refused (w : World) (live : UInt32 → Prop) (s : SfsFs) (e : Fail) (s' : SfsFs) : Prop :=
  (∃ n, e = .errno n) ∧ Kept w live s s'

theorem Kept.handBack_spec (hkept : Kept w live s s₁) (hlive : live ino)
    {p : Part} {doalloc : Bool} (hp : s₁.part ino p = b) (hb : doalloc = true → b ≠ 0)
    (hsame : doalloc = false → Later s s₁) :
    wp (handBack b) (Mapped w live s ino p doalloc) (Refused w live s) s₁ := by
  have hused : b = 0 ∨ s₁.Used b := hp ▸ hkept.sound.zero_or_used hlive p
  exact (wp_of_ok (handBack_ok hused)).mpr ⟨hkept, hp, hb, hsame⟩

theorem not_and_doalloc {doalloc : Bool} (h : ¬ (b = 0 ∧ doalloc = true)) : doalloc = true → b ≠ 0 :=
  fun hdo hb => h ⟨hb, hdo⟩

theorem bmapDirect_spec (hw : w.Writes) (h : Sound w live s) (hsv : s.vnodeOf ino = some sv)
    (i : Fin 15) (doalloc : Bool) :
    wp (bmapDirect w ino i doalloc) (Mapped w live s ino (.direct i) doalloc) (Refused w live s) s := by
  have hlive := h.live_of_vnodeOf hsv
  have hpart : s.part ino (.direct i) = sv.svI.sfiDirect i := by rw [part, inodeOf_loaded hsv]
  rw [bmapDirect, wp_bind, wp_of_ok (vnode_ok hsv), wp_ite]
  constructor
  · rintro ⟨hnone, hdo⟩
    rw [wp_bind]
    refine wp_mono ?_ ?_ (sfsBalloc_spec hw h)
    · rintro b s₁ ⟨hb, hlater⟩
      have hfill := h.fill_direct hb hlater hsv i
      have hkept := h.fill hb hlive (hpart.trans hnone) hfill
      rw [wp_bind, wp_of_ok (changeInode_ok _)]
      refine hkept.handBack_spec hlive ?_ (fun _ => hb.ne_zero) (fun hno => ?_)
      · rw [hfill.part ino hlive, if_pos rfl]
      · rw [hdo] at hno
        cases hno
    · rintro e s' ⟨rfl, rfl⟩
      exact ⟨⟨_, rfl⟩, h.kept⟩
  · intro hnot
    exact h.kept.handBack_spec hlive hpart (not_and_doalloc hnot) (fun _ => .refl s)

/-- With the words of the indirect block in the buffer. -/
theorem bmapEntry_spec (hw : w.Writes) (h : Sound w live s) (hsv : s.vnodeOf ino = some sv)
    {idblock : UInt32} (hid : s.part ino .indirect = idblock) (hne : idblock ≠ 0)
    {idbuf : Fin 128 → UInt32} (hbuf : idbuf = (s.disk idblock.toNat).words) (j : Fin 128)
    (doalloc : Bool) :
    wp (bmapEntry w idblock idbuf j doalloc) (Mapped w live s ino (.entry j) doalloc)
      (Refused w live s) s := by
  subst hbuf
  have hlive := h.live_of_vnodeOf hsv
  have hid' : (s.inodeOf ino).sfiIndirect = idblock := hid
  have hpart : s.part ino (.entry j) = (s.disk idblock.toNat).words j := by
    rw [part, hid', if_neg hne]
  have hused : s.Used idblock := ((hid ▸ h.zero_or_used hlive .indirect).resolve_left hne)
  rw [bmapEntry, wp_ite]
  constructor
  · rintro ⟨hnone, hdo⟩
    rw [wp_bind]
    refine wp_mono ?_ ?_ (sfsBalloc_spec hw h)
    · rintro b s₁ ⟨hb, hlater⟩
      have hdevice := h.lt_device hused
      obtain ⟨tick, hrun⟩ := @sfsWriteblock_spec w s₁ idblock hw hdevice
        (.ofWords (update (s.disk idblock.toNat).words j b))
      have hfill : Filled live s (ino, .entry j) b { s₁ with
          disk := update s₁.disk idblock.toNat (.ofWords (update (s.disk idblock.toNat).words j b))
          tick := tick } := by
        refine h.fill_entry hb hlater hsv hid hne j rfl rfl (.of_write ?_ rfl rfl rfl fun h => ⟨h, rfl⟩) rfl
        rw [(SameMeta.of_allot hb hlater).blocks]
        exact hused.1
      have hkept := h.fill hb hlive (hpart.trans hnone) hfill
      rw [wp_bind, wp_of_ok hrun]
      refine hkept.handBack_spec hlive ?_ (fun _ => hb.ne_zero) (fun hno => ?_)
      · rw [hfill.part ino hlive, if_pos rfl]
      · rw [hdo] at hno
        cases hno
    · rintro e s' ⟨rfl, rfl⟩
      exact ⟨⟨_, rfl⟩, h.kept⟩
  · intro hnot
    exact h.kept.handBack_spec hlive hpart (not_and_doalloc hnot) (fun _ => .refl s)

theorem Mapped.of_kept {p : Part} {doalloc : Bool} (hkept : Kept w live s s₁) (hdo : doalloc = true)
    (h : Mapped w live s₁ ino p doalloc b s₂) : Mapped w live s ino p doalloc b s₂ := by
  refine ⟨hkept.trans h.kept, h.part, h.got, fun hno => ?_⟩
  rw [hdo] at hno
  cases hno

theorem Refused.of_kept {e : Fail} (hkept : Kept w live s s₁) (h : Refused w live s₁ e s₂) :
    Refused w live s e s₂ := ⟨h.1, hkept.trans h.2⟩

theorem bmapIndirect_spec (hw : w.Writes) (h : Sound w live s) (hsv : s.vnodeOf ino = some sv)
    (j : Fin 128) (doalloc : Bool) :
    wp (bmapIndirect w ino j doalloc) (Mapped w live s ino (.entry j) doalloc)
      (Refused w live s) s := by
  have hlive := h.live_of_vnodeOf hsv
  have hid : s.part ino .indirect = sv.svI.sfiIndirect := by rw [part, inodeOf_loaded hsv]
  rw [bmapIndirect, wp_bind, wp_of_ok (vnode_ok hsv), wp_ite]
  constructor
  · rintro ⟨hnone, hno⟩
    rw [wp_pure]
    refine ⟨h.kept, ?_, fun hdo => ?_, fun _ => .refl s⟩
    · rw [part, inodeOf_loaded hsv, if_pos hnone]
    · rw [hno] at hdo
      cases hdo
  · intro hnot
    rw [wp_ite]
    constructor
    · intro hnone
      have hdo : doalloc = true := Bool.eq_true_of_not_eq_false fun hno => hnot ⟨hnone, hno⟩
      rw [wp_bind]
      refine wp_mono ?_ ?_ (sfsBalloc_spec hw h)
      · rintro b s₁ ⟨hb, hlater⟩
        have hfill := h.fill_indirect hb hlater hsv (hid.trans hnone)
        have hkept := h.fill hb hlive (hid.trans hnone) hfill
        have hsv₂ := vnodeOf_modifyVnode_self (SfsVnode.changed_ino fun d => { d with sfiIndirect := b })
          ((vnodeOf_allot hlater).trans hsv)
        rw [wp_bind, wp_of_ok (changeInode_ok _)]
        refine wp_mono ?_ ?_ (bmapEntry_spec hw hkept.sound hsv₂ ?_ hb.ne_zero ?_ j doalloc)
        · exact fun c s' hmapped => hmapped.of_kept hkept hdo
        · exact fun e s' hrefused => hrefused.of_kept hkept
        · exact (hfill.part ino hlive .indirect).trans (if_pos rfl)
        · funext k
          exact ((congrArg (fun d : Block => d.words k) (disk_allot_self hlater)).trans
            (words_zero k)).symm
      · rintro e s' ⟨rfl, rfl⟩
        exact ⟨⟨_, rfl⟩, h.kept⟩
    · intro hsome
      have hused : s.Used sv.svI.sfiIndirect :=
        (hid ▸ h.zero_or_used hlive .indirect).resolve_left hsome
      have hdevice := h.lt_device hused
      rw [wp_bind]
      refine wp_mono ?_ ?_ (sfsReadblock_spec hdevice)
      · rintro data s₁ ⟨rfl, tick, rfl⟩
        have hlater : Later s { s with tick := tick } := ⟨tick, rfl⟩
        refine wp_mono ?_ ?_ (bmapEntry_spec hw (h.later hlater) hsv hid hsome rfl j doalloc)
        · rintro c s' hmapped
          refine ⟨(h.kept_later hlater).trans hmapped.kept, hmapped.part, hmapped.got, fun hno => ?_⟩
          exact hlater.trans (hmapped.same hno)
        · exact fun e s' hrefused => hrefused.of_kept (h.kept_later hlater)
      · rintro e s' ⟨he, hlater⟩
        exact ⟨he, h.kept_later hlater⟩

/-- The block of a file, found or made. -/
structure Bmapped (w : World) (live : UInt32 → Prop) (s : SfsFs) (ino : UInt32) (fileblock : ℕ)
    (doalloc : Bool) (b : UInt32) (s' : SfsFs) : Prop where
  kept : Kept w live s s'
  inside : fileblock < 143
  block : s'.blockOf ino fileblock = b
  got : doalloc = true → b ≠ 0
  same : doalloc = false → Later s s'

theorem lt_of_partOf {fileblock : ℕ} {p : Part} (hp : partOf fileblock = some p) : fileblock < 143 := by
  unfold partOf at hp
  split at hp
  · omega
  · split at hp
    · omega
    · cases hp

theorem Mapped.bmapped {p : Part} {doalloc : Bool} {fileblock : ℕ} (hp : partOf fileblock = some p)
    (h : Mapped w live s ino p doalloc b s') : Bmapped w live s ino fileblock doalloc b s' :=
  ⟨h.kept, lt_of_partOf hp, (blockOf_of_part hp).trans h.part, h.got, h.same⟩

theorem sfsBmap_spec (hw : w.Writes) (h : Sound w live s) (hsv : s.vnodeOf ino = some sv)
    (fileblock : UInt32) (doalloc : Bool) :
    wp (sfsBmap w ino fileblock doalloc) (Bmapped w live s ino fileblock.toNat doalloc)
      (Refused w live s) s := by
  unfold sfsBmap
  by_cases hdirect : fileblock.toNat < sfsNdirect
  · rw [dif_pos hdirect]
    have hp : partOf fileblock.toNat = some (.direct ⟨fileblock.toNat, hdirect⟩) := dif_pos hdirect
    exact wp_mono (fun c s' hmapped => hmapped.bmapped hp) (fun _ _ h => h) (bmapDirect_spec hw h hsv _ _)
  · rw [dif_neg hdirect]
    dsimp only
    rw [wp_ite]
    constructor
    · intro _
      exact ⟨⟨_, rfl⟩, h.kept⟩
    · intro hsmall
      have hentry : fileblock.toNat - 15 < 128 := by
        simp only [sfsNindirect, sfsNdirect, sfsDbperidb] at hsmall
        omega
      have hoff : (fileblock.toNat - sfsNdirect) % sfsDbperidb = fileblock.toNat - 15 :=
        Nat.mod_eq_of_lt hentry
      have hp : partOf fileblock.toNat = some (.entry ⟨fileblock.toNat - 15, hentry⟩) :=
        (dif_neg hdirect).trans (dif_pos hentry)
      simp only [hoff]
      exact wp_mono (fun c s' hmapped => hmapped.bmapped hp) (fun _ _ h => h)
        (bmapIndirect_spec hw h hsv _ _)

end UnionCollegeCode.OS161.Sfs
