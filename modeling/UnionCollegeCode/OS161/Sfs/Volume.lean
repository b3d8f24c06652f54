import Mathlib.Data.Finset.Card
import UnionCollegeCode.OS161.Sfs.Dir
import UnionCollegeCode.OS161.Sfs.ReadWrite
import UnionCollegeCode.OS161.Sfs.Truncate

/-!
# A volume in good order

The inodes that are alive are the root, those in memory and those with a name. In a volume in good
order they own their blocks, names are told apart, and a file has as many links as names.
-/

set_option autoImplicit false

namespace UnionCollegeCode.OS161.Sfs

open Function (update)
open Lib (overlay slice)
open Lib.EState
open SfsFs

/-! ## The directory -/

namespace SfsFs

/-- Slot `i` of the directory. -/
def entry (s : SfsFs) (i : ℕ) : SfsDirentry :=
  .ofList (slice (s.byteAt sfsRootdirIno) (i * sfsDirentrySize) sfsDirentrySize)

def nentries (s : SfsFs) : ℕ := s.fileSize sfsRootdirIno / sfsDirentrySize

/-- Slot `i` is in use, for `ino`. -/
structure Names (s : SfsFs) (i : ℕ) (ino : UInt32) : Prop where
  inside : i < s.nentries
  holds : (s.entry i).sfdIno = ino
  used : ino ≠ sfsNoino

/-- The directory as a relation. -/
def Named (s : SfsFs) (name : List UInt8) (ino : UInt32) : Prop :=
  ∃ i, s.Names i ino ∧ (s.entry i).name = name

def Live (s : SfsFs) (ino : UInt32) : Prop :=
  ino = sfsRootdirIno ∨ (s.vnodeOf ino).isSome ∨ ∃ i, s.Names i ino

/-- How many slots are in use for `ino`. -/
def links (s : SfsFs) (ino : UInt32) : ℕ :=
  ((Finset.range s.nentries).filter fun i => (s.entry i).sfdIno = ino).card

/-- The references to a vnode. -/
def refs (s : SfsFs) (ino : UInt32) : ℕ :=
  match s.vnodeOf ino with
  | some sv => sv.vnRefcount
  | none => 0

end SfsFs

/-- A volume in good order but for its links. -/
structure Ordered (w : World) (s : SfsFs) : Prop where
  sound : Sound w s.Live s
  nodup : (s.vnodes.map SfsVnode.svIno).Nodup
  counted : ∀ sv ∈ s.vnodes, 0 < sv.vnRefcount
  small : s.sbNblocks.toNat ≤ 2 ^ 23
  rootType : (s.inodeOf sfsRootdirIno).sfiType = sfsTypeDir
  rootLinks : (s.inodeOf sfsRootdirIno).sfiLinkcount ≠ 0
  rootSize : s.fileSize sfsRootdirIno % sfsDirentrySize = 0
  rootMax : s.fileSize sfsRootdirIno ≤ sfsMaxsize
  rootUnnamed : ∀ i, ¬ s.Names i sfsRootdirIno
  distinct : ∀ i j a b, s.Names i a → s.Names j b → (s.entry i).name = (s.entry j).name → i = j
  file : ∀ ino, s.Live ino → ino ≠ sfsRootdirIno → (s.inodeOf ino).sfiType = sfsTypeFile

/-- `owed ino` links of `ino` have no name yet. -/
def Linked (s : SfsFs) (owed : UInt32 → ℤ) : Prop :=
  ∀ ino, s.Live ino → ino ≠ sfsRootdirIno →
    ((s.inodeOf ino).sfiLinkcount.toNat : ℤ) = s.links ino + owed ino

structure Wf (w : World) (s : SfsFs) : Prop extends Ordered w s where
  linked : Linked s fun _ => 0

variable {w : World} {s s' s₁ s₂ : SfsFs} {ino b : UInt32} {sv : SfsVnode} {i j : ℕ}

/-! ## What depends on the directory alone -/

/-- The root and the table are as they were. -/
structure SameRoot (s s' : SfsFs) : Prop where
  bytes : s'.byteAt sfsRootdirIno = s.byteAt sfsRootdirIno
  attrs : (s'.inodeOf sfsRootdirIno).attrs = (s.inodeOf sfsRootdirIno).attrs

namespace SameRoot

theorem entry (h : SameRoot s s') (i : ℕ) : s'.entry i = s.entry i := by
  rw [SfsFs.entry, h.bytes, SfsFs.entry]

theorem fileSize (h : SameRoot s s') : s'.fileSize sfsRootdirIno = s.fileSize sfsRootdirIno :=
  congrArg (fun a => a.1.toNat) h.attrs

theorem nentries (h : SameRoot s s') : s'.nentries = s.nentries := by
  rw [SfsFs.nentries, h.fileSize, SfsFs.nentries]

theorem names (h : SameRoot s s') (i : ℕ) (ino : UInt32) : s'.Names i ino ↔ s.Names i ino := by
  constructor
  · rintro ⟨hi, hino, hused⟩
    exact ⟨h.nentries ▸ hi, h.entry i ▸ hino, hused⟩
  · rintro ⟨hi, hino, hused⟩
    exact ⟨h.nentries.symm ▸ hi, (h.entry i).symm ▸ hino, hused⟩

theorem named (h : SameRoot s s') (name : List UInt8) (ino : UInt32) :
    s'.Named name ino ↔ s.Named name ino := by
  unfold Named
  simp only [h.names, h.entry]

theorem links (h : SameRoot s s') (ino : UInt32) : s'.links ino = s.links ino := by
  unfold SfsFs.links
  rw [h.nentries]
  simp only [h.entry]

theorem live (h : SameRoot s s') (htable : (s'.vnodeOf ino).isSome = (s.vnodeOf ino).isSome) :
    s'.Live ino ↔ s.Live ino := by
  unfold Live
  rw [htable]
  simp only [h.names]

end SameRoot

theorem live_root : s.Live sfsRootdirIno := .inl rfl

theorem live_of_vnodeOf (h : s.vnodeOf ino = some sv) : s.Live ino := .inr (.inl (h ▸ rfl))

theorem live_of_names (h : s.Names i ino) : s.Live ino := .inr (.inr ⟨i, h⟩)

theorem isSome_of_faces (h : s'.vnodes.map SfsVnode.face = s.vnodes.map SfsVnode.face) (ino : UInt32) :
    (s'.vnodeOf ino).isSome = (s.vnodeOf ino).isSome := by
  cases hsv : s.vnodeOf ino with
  | some sv =>
    obtain ⟨sv', hsv', -⟩ := vnodeOf_of_faces h hsv
    rw [hsv']
    rfl
  | none =>
    cases hsv' : s'.vnodeOf ino with
    | none => rfl
    | some sv' =>
      obtain ⟨sv, hsv₂, -⟩ := vnodeOf_of_faces h.symm hsv'
      rw [hsv] at hsv₂
      cases hsv₂

theorem refs_of_faces (h : s'.vnodes.map SfsVnode.face = s.vnodes.map SfsVnode.face) (ino : UInt32) :
    s'.refs ino = s.refs ino := by
  unfold refs
  cases hsv : s.vnodeOf ino with
  | some sv =>
    obtain ⟨sv', hsv', hcount⟩ := vnodeOf_of_faces h hsv
    rw [hsv']
    exact hcount
  | none =>
    have hnone : s'.vnodeOf ino = none := by
      rw [← Option.not_isSome_iff_eq_none, isSome_of_faces h ino, hsv]
      nofun
    rw [hnone]

theorem counted_of_faces (h : s'.vnodes.map SfsVnode.face = s.vnodes.map SfsVnode.face)
    (hcounted : ∀ sv ∈ s.vnodes, 0 < sv.vnRefcount) : ∀ sv ∈ s'.vnodes, 0 < sv.vnRefcount := by
  intro sv' hsv'
  have hmem : sv'.face ∈ s.vnodes.map SfsVnode.face := h ▸ List.mem_map_of_mem hsv'
  obtain ⟨sv, hsv, hface⟩ := List.mem_map.mp hmem
  have hcount : sv.vnRefcount = sv'.vnRefcount := congrArg Prod.snd hface
  exact hcount ▸ hcounted sv hsv

theorem SameRoot.live_eq (h : SameRoot s s') (htable : s'.vnodes.map SfsVnode.face = s.vnodes.map SfsVnode.face) :
    s'.Live = s.Live :=
  funext fun ino => propext (h.live (isSome_of_faces htable ino))

/-- The directory stays, and the table is as good as before. -/
theorem Ordered.remake (h : Ordered w s) (hsound : Sound w s'.Live s') (hroot : SameRoot s s')
    (hnodup : (s'.vnodes.map SfsVnode.svIno).Nodup) (hcounted : ∀ sv ∈ s'.vnodes, 0 < sv.vnRefcount)
    (hblocks : s'.sbNblocks = s.sbNblocks)
    (hfile : ∀ ino, s'.Live ino → ino ≠ sfsRootdirIno → (s'.inodeOf ino).sfiType = sfsTypeFile) :
    Ordered w s' := by
  have hentry := hroot.entry
  refine ⟨hsound, hnodup, hcounted, hblocks ▸ h.small, ?_, ?_, ?_, ?_, ?_, ?_, hfile⟩
  · have htype : (s'.inodeOf sfsRootdirIno).sfiType = (s.inodeOf sfsRootdirIno).sfiType :=
      congrArg (fun a => a.2.1) hroot.attrs
    rw [htype]
    exact h.rootType
  · have hcount : (s'.inodeOf sfsRootdirIno).sfiLinkcount = (s.inodeOf sfsRootdirIno).sfiLinkcount :=
      congrArg (fun a => a.2.2) hroot.attrs
    rw [hcount]
    exact h.rootLinks
  · rw [hroot.fileSize]
    exact h.rootSize
  · rw [hroot.fileSize]
    exact h.rootMax
  · intro i hi
    exact h.rootUnnamed i ((hroot.names i _).mp hi)
  · intro i j a b hi hj hname
    rw [hentry, hentry] at hname
    exact h.distinct i j a b ((hroot.names i a).mp hi) ((hroot.names j b).mp hj) hname

/-- The directory and the table stay, and so do the types. -/
theorem Ordered.transport (h : Ordered w s) (hsound : Sound w s.Live s') (hroot : SameRoot s s')
    (htable : s'.vnodes.map SfsVnode.face = s.vnodes.map SfsVnode.face)
    (hblocks : s'.sbNblocks = s.sbNblocks)
    (htypes : ∀ ino, s.Live ino → (s'.inodeOf ino).sfiType = (s.inodeOf ino).sfiType) :
    Ordered w s' := by
  have hlive := hroot.live_eq htable
  refine h.remake (hlive ▸ hsound) hroot ?_ (counted_of_faces htable h.counted) hblocks ?_
  · rw [inos_of_faces htable]
    exact h.nodup
  · intro ino hino hne
    rw [hlive] at hino
    rw [htypes ino hino]
    exact h.file ino hino hne

theorem Linked.transport {owed : UInt32 → ℤ} (h : Linked s owed) (hroot : SameRoot s s')
    (htable : s'.vnodes.map SfsVnode.face = s.vnodes.map SfsVnode.face)
    (hcounts : ∀ ino, s.Live ino → (s'.inodeOf ino).sfiLinkcount = (s.inodeOf ino).sfiLinkcount) :
    Linked s' owed := by
  intro ino hino hne
  rw [hroot.live_eq htable] at hino
  rw [hcounts ino hino, hroot.links]
  exact h ino hino hne

theorem Kept.sameRoot (h : Kept w s.Live s s') : SameRoot s s' :=
  ⟨h.byteAt live_root, h.same.attrs _ live_root⟩

theorem Ordered.kept (h : Ordered w s) (hkept : Kept w s.Live s s') : Ordered w s' :=
  h.transport hkept.sound hkept.sameRoot hkept.same.table hkept.same.fixed.blocks fun ino hino =>
    congrArg (fun a => a.2.1) (hkept.same.attrs ino hino)

theorem Linked.kept {owed : UInt32 → ℤ} (h : Linked s owed) (hkept : Kept w s.Live s s') :
    Linked s' owed :=
  h.transport hkept.sameRoot hkept.same.table fun ino hino =>
    congrArg (fun a => a.2.2) (hkept.same.attrs ino hino)

theorem Wf.kept (h : Wf w s) (hkept : Kept w s.Live s s') : Wf w s' :=
  ⟨h.toOrdered.kept hkept, h.linked.kept hkept⟩

/-! ## `sfs_metaio` -/

/-- A piece of a block is written. -/
structure Wrote (w : World) (live : UInt32 → Prop) (ino : UInt32) (pos : ℕ) (data : List UInt8)
    (s s' : SfsFs) : Prop where
  sound : Sound w live s'
  bytes : ∀ ino', live ino' → s'.byteAt ino' =
    if ino' = ino then overlay (s.byteAt ino) pos data else s.byteAt ino'
  size : s'.fileSize ino = max (s.fileSize ino) (pos + data.length)
  others : ∀ ino', live ino' → ino' ≠ ino → (s'.inodeOf ino').attrs = (s.inodeOf ino').attrs
  type : (s'.inodeOf ino).sfiType = (s.inodeOf ino).sfiType
  linkcount : (s'.inodeOf ino).sfiLinkcount = (s.inodeOf ino).sfiLinkcount
  table : s'.vnodes.map SfsVnode.face = s.vnodes.map SfsVnode.face
  fixed : SameMeta s s'
  dirty : ∀ ino', s.Dirty ino' → s'.Dirty ino'
  inside : pos + data.length ≤ sfsMaxsize

variable {live : UInt32 → Prop} {pos : ℕ} {data : List UInt8}

theorem sfsMetaio_read (hw : w.Writes) (h : Sound w live s) (hsv : s.vnodeOf ino = some sv)
    (hpos : pos < 2 ^ 41) (hlen : pos % 512 + data.length ≤ 512) :
    wp (sfsMetaio w ino pos data .read)
      (fun l s' => Later s s' ∧ l = slice (s.byteAt ino) pos data.length)
      (fun e s' => (∃ n, e = .errno n) ∧ Kept w live s s') s := by
  have hlive := h.live_of_vnodeOf hsv
  have hfb : (UInt32.ofNat (pos / sfsBlocksize)).toNat = pos / 512 := by
    rw [posOf_div, posOf, Nat.mod_eq_of_lt hpos]
  have hsplit : pos / 512 * 512 + pos % 512 = pos := by omega
  unfold sfsMetaio
  rw [wp_bind]
  refine wp_mono ?_ (fun e s' hrefused => hrefused) (sfsBmap_spec hw h hsv _ _)
  intro b s₁ hmap
  rw [hfb] at hmap
  have hlater := hmap.same rfl
  rw [wp_ite]
  constructor
  · rintro rfl
    rw [if_neg (by simp), wp_pure]
    refine ⟨hlater, ?_⟩
    have hhole := hmap.block
    obtain ⟨tick, rfl⟩ := hlater
    symm
    rw [Lib.slice_congr (g := fun _ => 0)]
    · exact Lib.slice_of_const fun _ _ => rfl
    · intro p hp hlt
      have hdiv : p / 512 = pos / 512 := by omega
      have hhole' : s.blockOf ino (p / 512) = 0 := hdiv ▸ hhole
      rw [byteAt, hhole', byteIn, if_pos rfl]
  · intro hne
    obtain ⟨p, -, hpart⟩ := part_of_blockOf hmap.block hne
    have hused := (hpart ▸ hmap.kept.sound.zero_or_used hlive p).resolve_left hne
    rw [wp_bind]
    refine wp_mono ?_ ?_ (sfsReadblock_spec (hmap.kept.sound.lt_device hused))
    · rintro d s₂ ⟨rfl, hlater₂⟩
      rw [wp_pure]
      refine ⟨hlater.trans hlater₂, ?_⟩
      show ((s₁.disk b.toNat).toList.drop (pos % 512)).take data.length = _
      rw [take_drop_toList hlen fun k hk => (byteAt_block hmap.block hne hk).symm, hsplit,
        hmap.kept.byteAt hlive]
    · rintro e s₂ ⟨he, hlater₂⟩
      exact ⟨he, hmap.kept.trans (hmap.kept.sound.kept_later hlater₂)⟩

/-- What the disk holds is right, and the size has still to be set. -/
structure Unsized (w : World) (live : UInt32 → Prop) (ino : UInt32) (pos : ℕ) (data : List UInt8)
    (s s' : SfsFs) : Prop where
  sound : Sound w live s'
  bytes : ∀ ino', live ino' → s'.byteAt ino' =
    if ino' = ino then overlay (s.byteAt ino) pos data else s.byteAt ino'
  attrs : ∀ ino', live ino' → (s'.inodeOf ino').attrs = (s.inodeOf ino').attrs
  table : s'.vnodes.map SfsVnode.face = s.vnodes.map SfsVnode.face
  fixed : SameMeta s s'
  dirty : ∀ ino', s.Dirty ino' → s'.Dirty ino'
  inside : pos + data.length ≤ sfsMaxsize

theorem Unsized.of_write {d : Block} {tick : ℕ} (hkept : Kept w live s s₁) (hlive : live ino)
    (hblock : s₁.blockOf ino (pos / 512) = b) (hne : b ≠ 0)
    (hd : ∀ k (hk : k < 512), d ⟨k, hk⟩ = s₁.byteAt ino (pos / 512 * 512 + k))
    (hlen : pos % 512 + data.length ≤ 512) (hin : pos + data.length ≤ sfsMaxsize)
    (hs' : s' = { s₁ with
      disk := update s₁.disk b.toNat (.ofList (d.toList.take (pos % 512) ++ data ++
        d.toList.drop (pos % 512 + data.length)))
      tick := tick }) : Unsized w live ino pos data s s' := by
  obtain ⟨hsound, hset⟩ := hkept.sound.write_block hlive hblock hne hs'
  have hsplit : pos / 512 * 512 + pos % 512 = pos := by omega
  have hpatch := hset.overlay hlive hlen fun i => by
    rw [ofList_patch d hlen]
    exact Lib.overlay_congr ((getD_toList d i.2).trans (hd i i.2))
  rw [hsplit] at hpatch
  refine ⟨hsound, fun ino' hlive' => ?_, fun ino' hlive' => ?_, hset.table.trans hkept.same.table,
    hkept.same.fixed.trans hset.fixed, fun ino' hdirty => ?_, hin⟩
  · by_cases hino : ino' = ino
    · subst hino
      rw [if_pos rfl, ← hkept.byteAt hlive]
      exact hpatch
    · rw [if_neg hino, ← hkept.byteAt hlive']
      funext q
      rw [hset.bytes ino' hlive', if_neg fun h => hino h.1]
  · exact (hset.attrs ino' hlive').trans (hkept.same.attrs ino' hlive')
  · refine (hkept.same.dirty ino' hdirty).of_vnodes ?_
    rw [hs']

theorem Unsized.stay (h : Unsized w live ino pos data s s') (hlive : live ino)
    (hend : ¬ s.fileSize ino < pos + data.length) : Wrote w live ino pos data s s' := by
  have hattrs := h.attrs ino hlive
  have hsize : s'.fileSize ino = s.fileSize ino := congrArg (fun a => a.1.toNat) hattrs
  refine ⟨h.sound, h.bytes, ?_, fun ino' hlive' _ => h.attrs ino' hlive',
    congrArg (fun a => a.2.1) hattrs, congrArg (fun a => a.2.2) hattrs, h.table, h.fixed, h.dirty,
    h.inside⟩
  rw [hsize, Nat.max_eq_left (Nat.not_lt.mp hend)]

theorem Unsized.grow (h : Unsized w live ino pos data s s') (hlive : live ino)
    (hsv : s'.vnodeOf ino = some sv) (hend : s.fileSize ino < pos + data.length) :
    Wrote w live ino pos data s
      (s'.setInode ino fun d => { d with sfiSize := .ofNat (pos + data.length) }) := by
  have hattrs := h.attrs ino hlive
  have hblocks : ∀ d : SfsDinode, ({ d with sfiSize := .ofNat (pos + data.length) } : SfsDinode).sfiDirect =
      d.sfiDirect ∧ ({ d with sfiSize := .ofNat (pos + data.length) } : SfsDinode).sfiIndirect =
        d.sfiIndirect := fun _ => ⟨rfl, rfl⟩
  have hinode := inodeOf_setInode hsv fun d => { d with sfiSize := .ofNat (pos + data.length) }
  have hself := hinode ino
  rw [if_pos rfl] at hself
  have hfits : (UInt32.ofNat (pos + data.length)).toNat = pos + data.length := by
    refine UInt32.toNat_ofNat_of_lt' (Nat.lt_of_le_of_lt h.inside ?_)
    decide
  refine ⟨h.sound.setAttrs hsv hblocks, fun ino' hlive' => ?_, ?_, fun ino' hlive' hne => ?_, ?_, ?_,
    (faces_setInode _).trans h.table, h.fixed.trans (.setInode s' ino _), fun ino' hdirty => (h.dirty ino' hdirty).setInode _,
    h.inside⟩
  · rw [byteAt_setAttrs hsv hblocks]
    exact h.bytes ino' hlive'
  · rw [Nat.max_eq_right (Nat.le_of_lt hend), fileSize, hself]
    exact hfits
  · rw [hinode, if_neg hne]
    exact h.attrs ino' hlive'
  · rw [hself]
    exact congrArg (fun a => a.2.1) hattrs
  · rw [hself]
    exact congrArg (fun a => a.2.2) hattrs

theorem sfsMetaio_write (hw : w.Writes) (h : Sound w live s) (hsv : s.vnodeOf ino = some sv)
    (hpos : pos < 2 ^ 41) (hlen : pos % 512 + data.length ≤ 512) :
    wp (sfsMetaio w ino pos data .write) (fun _ s' => Wrote w live ino pos data s s')
      (fun e s' => (∃ n, e = .errno n) ∧ Kept w live s s') s := by
  have hlive := h.live_of_vnodeOf hsv
  have hfb : (UInt32.ofNat (pos / sfsBlocksize)).toNat = pos / 512 := by
    rw [posOf_div, posOf, Nat.mod_eq_of_lt hpos]
  unfold sfsMetaio
  rw [wp_bind]
  refine wp_mono ?_ (fun e s' hrefused => hrefused) (sfsBmap_spec hw h hsv _ _)
  intro b s₁ hmap
  rw [hfb] at hmap
  have hne := hmap.got rfl
  obtain ⟨p, -, hpart⟩ := part_of_blockOf hmap.block hne
  have hused := (hpart ▸ hmap.kept.sound.zero_or_used hlive p).resolve_left hne
  have hdevice := hmap.kept.sound.lt_device hused
  rw [if_neg hne, wp_bind]
  refine wp_mono ?_ ?_ (sfsReadblock_spec hdevice)
  · rintro d s₂ ⟨rfl, hlater₂⟩
    have hkept₂ := hmap.kept.trans (hmap.kept.sound.kept_later hlater₂)
    have hblock₂ : s₂.blockOf ino (pos / 512) = b := by
      obtain ⟨tick, rfl⟩ := hlater₂
      exact hmap.block
    have hd : ∀ k (hk : k < 512), s₁.disk b.toNat ⟨k, hk⟩ = s₂.byteAt ino (pos / 512 * 512 + k) := by
      obtain ⟨tick, rfl⟩ := hlater₂
      exact fun k hk => (byteAt_block hblock₂ hne hk).symm
    obtain ⟨tick, hrun⟩ := @sfsWriteblock_spec w s₂ b hw hdevice
      (.ofList ((s₁.disk b.toNat).toList.take (pos % 512) ++ data ++
        (s₁.disk b.toNat).toList.drop (pos % 512 + data.length)))
    dsimp only
    rw [wp_bind]
    refine (wp_of_ok hrun).mpr ?_
    have hin : pos + data.length ≤ sfsMaxsize := by
      have hlt := hmap.inside
      unfold sfsMaxsize sfsNdirect sfsDbperidb sfsNindirect sfsBlocksize
      omega
    have hunsized := @Unsized.of_write w s _ s₂ ino b live pos data (s₁.disk b.toNat) tick hkept₂ hlive hblock₂ hne hd hlen hin rfl
    obtain ⟨sv', hsv', -⟩ := vnodeOf_of_faces hunsized.table hsv
    have hsize : sv'.svI.sfiSize.toNat = s.fileSize ino := by
      rw [← inodeOf_loaded hsv', fileSize]
      exact congrArg (fun a => a.1.toNat) (hunsized.attrs ino hlive)
    rw [wp_bind, wp_of_ok (vnode_ok hsv'), hsize, wp_ite]
    constructor
    · intro hend
      rw [wp_bind, wp_of_ok (changeInode_ok _), wp_pure]
      exact hunsized.grow hlive hsv' hend
    · intro hend
      rw [wp_pure]
      exact hunsized.stay hlive hend
  · rintro e s₂ ⟨he, hlater₂⟩
    exact ⟨he, hmap.kept.trans (hmap.kept.sound.kept_later hlater₂)⟩

end UnionCollegeCode.OS161.Sfs
