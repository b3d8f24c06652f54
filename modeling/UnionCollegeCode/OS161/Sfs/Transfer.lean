import UnionCollegeCode.Lib.ByteRange
import UnionCollegeCode.OS161.Sfs.Io
import UnionCollegeCode.OS161.Sfs.Mapping

/-!
# What `sfs_io` moves

As far as it gets, a read hands out the bytes of the file, and a write puts its own over them and
touches no other file.

An offset counts only modulo `2 ^ 41`: past that, the number of the block starts from `0` again.
-/

set_option autoImplicit false

namespace UnionCollegeCode.OS161.Sfs

open Function (update)
open Lib (overlay slice)
open Lib.EState
open SfsFs

variable {w : World} {live : UInt32 → Prop} {s s' : SfsFs} {ino b : UInt32} {sv : SfsVnode}

/-! ## A block of data changes -/

theorem part_of_blockOf {fileblock : ℕ} (hb : s.blockOf ino fileblock = b) (hne : b ≠ 0) :
    ∃ p, partOf fileblock = some p ∧ s.part ino p = b := by
  unfold blockOf at hb
  cases hp : partOf fileblock with
  | none =>
    rw [hp] at hb
    exact absurd hb.symm hne
  | some p =>
    rw [hp] at hb
    exact ⟨p, rfl, hb⟩

/-- A block of a file is written. -/
structure BlockSet (live : UInt32 → Prop) (ino : UInt32) (fileblock : ℕ) (data : Block)
    (s s' : SfsFs) : Prop where
  bytes : ∀ ino', live ino' → ∀ pos, s'.byteAt ino' pos =
    if ino' = ino ∧ pos / 512 = fileblock then data ⟨pos % 512, Nat.mod_lt _ (by decide)⟩
    else s.byteAt ino' pos
  attrs : ∀ ino', live ino' → (s'.inodeOf ino').attrs = (s.inodeOf ino').attrs
  table : s'.vnodes.map SfsVnode.face = s.vnodes.map SfsVnode.face
  fixed : SameMeta s s'

theorem Sound.write_block (h : Sound w live s) (hlive : live ino) {fileblock : ℕ}
    (hb : s.blockOf ino fileblock = b) (hne : b ≠ 0) {data : Block} {tick : ℕ}
    (hs' : s' = { s with disk := update s.disk b.toNat data, tick := tick }) :
    Sound w live s' ∧ BlockSet live ino fileblock data s s' := by
  obtain ⟨p₀, hp₀, hpart₀⟩ := part_of_blockOf hb hne
  have hother := h.holder_alone hlive hpart₀ hne
  have hdisk : s'.disk = update s.disk b.toNat data := by rw [hs']
  have hvnodes : s'.vnodes = s.vnodes := by rw [hs']
  have hdata₀ := isData_partOf hp₀
  have hinode : ∀ ino', live ino' → s'.inodeOf ino' = s.inodeOf ino' := by
    intro ino' hlive'
    refine inodeOf_of_write hvnodes hdisk (.inr (hother ino' hlive' .self ?_))
    intro heq
    cases heq
    exact hdata₀
  have hpart : ∀ ino', live ino' → ∀ p, s'.part ino' p = s.part ino' p := by
    intro ino' hlive' p
    refine part_congr (hinode ino' hlive') (fun _ => ?_) p
    rw [hdisk, Function.update_of_ne]
    refine fun heq => hother ino' hlive' .indirect ?_ (UInt32.toNat_inj.mp heq)
    intro heq
    cases heq
    exact hdata₀
  have hsynced : Synced s' := h.synced.of_write hvnodes hdisk fun sv hsv => by
    refine hother sv.svIno (h.loaded sv hsv) .self fun heq => ?_
    cases heq
    exact hdata₀
  refine ⟨⟨h.accounted.congr ?_ fun _ => ?_, ?_, ?_, ?_, ?_, ?_, hsynced, h.zero⟩, ?_, ?_, ?_, ?_⟩
  · rintro ⟨ino', p⟩ v
    unfold Holds
    refine and_congr_right fun hlive' => ?_
    rw [hpart ino' hlive']
  · rw [hs']
    rfl
  · rw [hs']
    exact h.closed
  · rw [hs']
    exact h.bits
  · rw [hs']
    exact h.reserved
  · rw [hvnodes]
    exact h.loaded
  · rw [hs']
    exact h.device
  · intro ino' hlive' pos
    cases hp : partOf (pos / 512) with
    | none =>
      rw [if_neg]
      · simp only [byteAt, blockOf, hp, byteIn, if_true]
      · rintro ⟨-, rfl⟩
        rw [hp₀] at hp
        cases hp
    | some p =>
      rw [byteAt, byteAt, blockOf_of_part hp, blockOf_of_part hp, hpart ino' hlive', byteIn, byteIn]
      by_cases hslot : (ino', p) = (ino, p₀)
      · cases hslot
        rw [hpart₀, if_neg hne, hdisk, Function.update_self, if_pos ⟨rfl, partOf_inj hp hp₀⟩]
      · have hfar : ¬ (ino' = ino ∧ pos / 512 = fileblock) := by
          rintro ⟨rfl, rfl⟩
          rw [hp₀] at hp
          cases hp
          exact hslot rfl
        rw [if_neg hfar, hdisk, Function.update_of_ne]
        exact fun heq => hother ino' hlive' p hslot (UInt32.toNat_inj.mp heq)
  · intro ino' hlive'
    rw [hinode ino' hlive']
  · rw [hvnodes]
  · have hused : s.Used b := hpart₀ ▸ (h.zero_or_used hlive p₀).resolve_left (hpart₀ ▸ hne)
    exact .of_write hused.1 (hs' ▸ rfl) (hs' ▸ rfl) hdisk (hs' ▸ fun h => ⟨h, rfl⟩)

/-! ## Offsets and bytes of blocks -/

/-- The place in the file that an offset leads to. -/
def posOf (offset : ℕ) : ℕ := offset % 2 ^ 41

def sfsMaxsize : ℕ := (sfsNdirect + sfsDbperidb * sfsNindirect) * sfsBlocksize

theorem posOf_div (offset : ℕ) : (UInt32.ofNat (offset / sfsBlocksize)).toNat = posOf offset / 512 := by
  rw [UInt32.toNat_ofNat']
  exact (Nat.mod_mul_right_div_self offset 512 (2 ^ 32)).symm

theorem posOf_mod (offset : ℕ) : posOf offset % 512 = offset % 512 :=
  Nat.mod_mul_right_mod offset 512 (2 ^ 32)

theorem posOf_add {offset n : ℕ} (h : posOf offset + n ≤ sfsMaxsize) :
    posOf (offset + n) = posOf offset + n := by
  have hmax : sfsMaxsize < 2 ^ 41 := by decide
  unfold posOf at *
  omega

theorem getD_toList (d : Block) {i : ℕ} (h : i < 512) : d.toList.getD i 0 = d ⟨i, h⟩ :=
  congrFun (Block.ofList_toList d) ⟨i, h⟩

/-- A block with some of its bytes replaced. -/
theorem ofList_patch (d : Block) {moved : List UInt8} {skip : ℕ} (hlen : skip + moved.length ≤ 512)
    (i : Fin 512) :
    Block.ofList (d.toList.take skip ++ moved ++ d.toList.drop (skip + moved.length)) i =
      overlay (d.toList.getD · 0) skip moved i.1 := by
  have hmax : max 512 (skip + moved.length) = 512 := Nat.max_eq_left hlen
  have hwhole : slice (d.toList.getD · 0) 0 512 = d.toList := by
    rw [Lib.slice_getD (by simp), List.drop_zero, Block.take_toList]
  have hsplice : slice (overlay (d.toList.getD · 0) skip moved) 0 (max 512 (skip + moved.length)) =
      Lib.splice 0 (slice (d.toList.getD · 0) 0 512) skip moved :=
    Lib.slice_overlay_eq_splice fun p hp => List.getD_eq_default _ _ (by rwa [Block.length_toList])
  have hgap : skip - d.toList.length = 0 := Nat.sub_eq_zero_of_le (by
    rw [Block.length_toList]
    omega)
  rw [hwhole, hmax, Lib.splice, hgap, List.replicate_zero, List.append_nil] at hsplice
  rw [← hsplice, Block.ofList, List.getD, Lib.getElem?_slice, if_pos i.2, Nat.zero_add, Option.getD_some]

theorem byteAt_block {fileblock k : ℕ} (hb : s.blockOf ino fileblock = b) (hne : b ≠ 0) (hk : k < 512) :
    s.byteAt ino (fileblock * 512 + k) = s.disk b.toNat ⟨k, hk⟩ := by
  have hdiv : (fileblock * 512 + k) / 512 = fileblock := by omega
  have hmod : (fileblock * 512 + k) % 512 = k := by omega
  rw [byteAt, hdiv, hb, byteIn, if_neg hne]
  simp only [hmod]

theorem BlockSet.overlay {fileblock skip : ℕ} {data : Block} {moved : List UInt8}
    (h : BlockSet live ino fileblock data s s') (hlive : live ino) (hlen : skip + moved.length ≤ 512)
    (hdata : ∀ i : Fin 512,
      data i = Lib.overlay (fun k => s.byteAt ino (fileblock * 512 + k)) skip moved i.1) :
    s'.byteAt ino = Lib.overlay (s.byteAt ino) (fileblock * 512 + skip) moved := by
  funext pos
  rw [h.bytes ino hlive]
  split
  · rename_i hblock
    have hpos : fileblock * 512 + pos % 512 = pos := by
      rw [← hblock.2]
      omega
    rw [hdata, Lib.overlay_shift, hpos]
  · rename_i hother
    have hne : pos / 512 ≠ fileblock := fun heq => hother ⟨rfl, heq⟩
    rcases Nat.lt_or_gt_of_ne hne with hlt | hgt
    · rw [Lib.overlay_of_lt (by omega)]
    · rw [Lib.overlay_of_le (by omega)]

/-! ## Transfers -/

/-- A transfer `n` bytes later, when `f` is what there is to be read. -/
def SfsUio.moved (u : SfsUio) (f : ℕ → UInt8) (n : ℕ) : SfsUio :=
  match u.uioRw with
  | .read => u.gave (slice f (posOf u.uioOffset) n)
  | .write => u.took n

section Moved

variable (u : SfsUio) (f : ℕ → UInt8) (m n : ℕ)

@[simp] theorem moved_uioRw : (u.moved f n).uioRw = u.uioRw := by
  unfold SfsUio.moved
  split <;> rfl

@[simp] theorem moved_user : (u.moved f n).user = u.user := by
  unfold SfsUio.moved
  split <;> rfl

@[simp] theorem moved_uioOffset : (u.moved f n).uioOffset = u.uioOffset + n := by
  unfold SfsUio.moved
  split
  · simp [SfsUio.gave]
  · rfl

@[simp] theorem moved_uioResid : (u.moved f n).uioResid = u.uioResid - n := by
  unfold SfsUio.moved
  split
  · simp [SfsUio.gave]
  · rfl

@[simp] theorem moved_iovLen : (u.moved f n).iovLen = u.iovLen - n := by
  unfold SfsUio.moved
  split
  · simp [SfsUio.gave]
  · rfl

theorem moved_bytes_of_write (h : u.uioRw = .write) : (u.moved f n).bytes = u.bytes.drop n := by
  rw [SfsUio.moved, h]
  rfl

@[simp] theorem moved_zero : u.moved f 0 = u := by
  unfold SfsUio.moved
  split <;> simp [SfsUio.gave, SfsUio.took]

end Moved

theorem moved_moved {u : SfsUio} {f g : ℕ → UInt8} {m n : ℕ} (hg : u.uioRw = .read → g = f)
    (hpos : posOf (u.uioOffset + m) = posOf u.uioOffset + m) :
    (u.moved f m).moved g n = u.moved f (m + n) := by
  unfold SfsUio.moved
  cases hrw : u.uioRw with
  | read =>
    simp only [SfsUio.gave, hrw, hg hrw, Lib.length_slice, hpos, Lib.slice_add, List.length_append,
      List.append_assoc, Nat.add_assoc, Nat.sub_sub]
  | write =>
    simp only [SfsUio.took, hrw, List.drop_drop, Nat.add_assoc, Nat.sub_sub]

/-- `n` bytes have been moved. -/
structure Did (w : World) (live : UInt32 → Prop) (ino : UInt32) (n : ℕ) (t t' : SfsFs × SfsUio) :
    Prop where
  sound : Sound w live t'.1
  uio : t'.2 = t.2.moved (t.1.byteAt ino) n
  bytes : ∀ ino', live ino' → t'.1.byteAt ino' =
    if ino' = ino ∧ t.2.uioRw = .write then
      overlay (t.1.byteAt ino) (posOf t.2.uioOffset) (t.2.bytes.take n)
    else t.1.byteAt ino'
  attrs : ∀ ino', live ino' → (t'.1.inodeOf ino').attrs = (t.1.inodeOf ino').attrs
  table : t'.1.vnodes.map SfsVnode.face = t.1.vnodes.map SfsVnode.face
  fixed : SameMeta t.1 t'.1
  inside : n ≠ 0 → posOf t.2.uioOffset + n ≤ sfsMaxsize

/-- What a transfer of `n` bytes needs. -/
structure Ready (w : World) (live : UInt32 → Prop) (ino : UInt32) (n : ℕ) (t : SfsFs × SfsUio) :
    Prop where
  sound : Sound w live t.1
  loaded : ∃ sv, t.1.vnodeOf ino = some sv
  small : t.1.sbNblocks.toNat ≤ 2 ^ 23
  fits : t.2.Fits n
  full : t.2.uioRw = .write → t.2.bytes.length = t.2.iovLen

variable {m n : ℕ} {t t₁ t₂ : SfsFs × SfsUio}

theorem Ready.isLive (h : Ready w live ino n t) : live ino :=
  h.loaded.elim fun _ hsv => h.sound.live_of_vnodeOf hsv

theorem Kept.did (h : Kept w live s s') (u : SfsUio) : Did w live ino 0 (s, u) (s', u) := by
  refine ⟨h.sound, (moved_zero ..).symm, fun ino' hlive' => ?_, h.same.attrs, h.same.table,
    h.same.fixed, fun hne => absurd rfl hne⟩
  have hsame : s'.byteAt ino' = s.byteAt ino' := funext (h.same.bytes ino' hlive')
  rw [List.take_zero, Lib.overlay_nil]
  split
  · rename_i heq
    rw [← heq.1, hsame]
  · exact hsame

theorem Did.trans (h : Did w live ino m t t₁) (h' : Did w live ino n t₁ t₂) (hlive : live ino)
    (hfull : t.2.uioRw = .write → m ≤ t.2.bytes.length) : Did w live ino (m + n) t t₂ := by
  have hpos : posOf (t.2.uioOffset + m) = posOf t.2.uioOffset + m := by
    by_cases hm : m = 0
    · rw [hm]
      rfl
    · exact posOf_add (h.inside hm)
  have hrw : t₁.2.uioRw = t.2.uioRw := by rw [h.uio, moved_uioRw]
  refine ⟨h'.sound, ?_, fun ino' hlive' => ?_, fun ino' hlive' => ?_, h'.table.trans h.table,
    h.fixed.trans h'.fixed, fun hne => ?_⟩
  · rw [h'.uio, h.uio, moved_moved _ hpos]
    intro hread
    rw [h.bytes ino hlive, if_neg]
    rintro ⟨-, hwrite⟩
    rw [hread] at hwrite
    cases hwrite
  · rw [h'.bytes ino' hlive', hrw]
    split
    · rename_i heq
      rw [h.bytes ino hlive, if_pos ⟨rfl, heq.2⟩, h.uio, moved_uioOffset,
        moved_bytes_of_write _ _ _ heq.2, hpos, List.take_add]
      have hlen : (t.2.bytes.take m).length = m := List.length_take_of_le (hfull heq.2)
      rw [← Lib.overlay_append, hlen]
    · rename_i hne
      rw [h.bytes ino' hlive', if_neg hne]
  · exact (h'.attrs ino' hlive').trans (h.attrs ino' hlive')
  · by_cases hn : n = 0
    · subst hn
      exact h.inside hne
    · have hin := h'.inside hn
      rw [h.uio, moved_uioOffset, hpos] at hin
      omega

theorem Ready.of_did (h : Ready w live ino (m + n) t) (hdid : Did w live ino m t t₁) :
    Ready w live ino n t₁ := by
  obtain ⟨sv, hsv⟩ := h.loaded
  obtain ⟨sv', hsv', -⟩ := vnodeOf_of_faces hdid.table hsv
  refine ⟨hdid.sound, ⟨sv', hsv'⟩, ?_, ⟨?_, ?_⟩, fun hwrite => ?_⟩
  · rw [hdid.fixed.blocks]
    exact h.small
  · rw [hdid.uio, moved_iovLen]
    exact Nat.le_sub_of_add_le' h.fits.iov
  · rw [hdid.uio, moved_uioResid]
    exact Nat.le_sub_of_add_le' h.fits.resid
  · rw [hdid.uio, moved_uioRw] at hwrite
    rw [hdid.uio, moved_iovLen, moved_bytes_of_write _ _ _ hwrite, List.length_drop, h.full hwrite]

/-! ## Part of a block -/

variable {u : SfsUio} {fileblock : ℕ}

theorem Kept.byteAt (h : Kept w live s s') (hlive : live ino) : s'.byteAt ino = s.byteAt ino :=
  funext (h.same.bytes ino hlive)

theorem did_read (hkept : Kept w live s s') (hrw : u.uioRw = .read)
    (hin : posOf u.uioOffset + n ≤ sfsMaxsize) :
    Did w live ino n (s, u) (s', u.gave (slice (s.byteAt ino) (posOf u.uioOffset) n)) := by
  refine ⟨hkept.sound, ?_, fun ino' hlive' => ?_, hkept.same.attrs, hkept.same.table,
    hkept.same.fixed, fun _ => hin⟩
  · rw [SfsUio.moved, hrw]
  · rw [if_neg]
    · exact hkept.byteAt hlive'
    · rintro ⟨-, hwrite⟩
      rw [hrw] at hwrite
      cases hwrite

/-- The block of the file, with `n` bytes of the transfer from `skip` on. -/
structure Patch (s : SfsFs) (u : SfsUio) (ino : UInt32) (fileblock skip n : ℕ) (data : Block) :
    Prop where
  pos : posOf u.uioOffset = fileblock * 512 + skip
  taken : (u.bytes.take n).length = n
  short : skip + n ≤ 512
  bytes : ∀ i : Fin 512,
    data i = overlay (fun k => s.byteAt ino (fileblock * 512 + k)) skip (u.bytes.take n) i.1

theorem did_write {s₁ s₂ : SfsFs} {data : Block} {skip tick : ℕ} (hkept : Kept w live s s₁)
    (hlive : live ino) (hrw : u.uioRw = .write) (hblock : s₁.blockOf ino fileblock = b) (hne : b ≠ 0)
    (hpatch : Patch s₁ u ino fileblock skip n data)
    (hs₂ : s₂ = { s₁ with disk := update s₁.disk b.toNat data, tick := tick })
    (hin : posOf u.uioOffset + n ≤ sfsMaxsize) : Did w live ino n (s, u) (s₂, u.took n) := by
  obtain ⟨hsound, hset⟩ := hkept.sound.write_block hlive hblock hne hs₂
  have hover := hset.overlay hlive (hpatch.taken.symm ▸ hpatch.short) hpatch.bytes
  rw [← hpatch.pos] at hover
  refine ⟨hsound, ?_, fun ino' hlive' => ?_, fun ino' hlive' => ?_, hset.table.trans hkept.same.table,
    hkept.same.fixed.trans hset.fixed, fun _ => hin⟩
  · rw [SfsUio.moved, hrw]
  · by_cases hino : ino' = ino
    · subst hino
      rw [if_pos ⟨rfl, hrw⟩, ← hkept.byteAt hlive]
      exact hover
    · rw [if_neg (fun h => hino h.1), ← hkept.byteAt hlive']
      funext pos
      rw [hset.bytes ino' hlive', if_neg (fun h => hino h.1)]
  · exact (hset.attrs ino' hlive').trans (hkept.same.attrs ino' hlive')

/-- The contents of a block that is there or not. -/
theorem fillIobuf_spec (h : Sound w live s) (hlive : live ino) (hb : s.blockOf ino fileblock = b) :
    wp (fillIobuf w b)
      (fun d t' => (∀ k (hk : k < 512), d ⟨k, hk⟩ = s.byteAt ino (fileblock * 512 + k)) ∧
        Later s t'.1 ∧ t'.2 = u)
      (fun e t' => (∃ x, e = .errno x) ∧ Later s t'.1 ∧ t'.2 = u) (s, u) := by
  rw [fillIobuf, wp_ite]
  constructor
  · intro hzero
    refine ⟨fun k hk => ?_, .refl s, rfl⟩
    have hdiv : (fileblock * 512 + k) / 512 = fileblock := by omega
    rw [byteAt, hdiv, hb, byteIn, if_pos hzero]
    rfl
  · intro hne
    obtain ⟨p, -, hpart⟩ := part_of_blockOf hb hne
    have hused := (hpart ▸ h.zero_or_used hlive p).resolve_left hne
    rw [wp_onSfs]
    refine wp_mono ?_ ?_ (sfsReadblock_spec (h.lt_device hused))
    · rintro d s₁ ⟨rfl, hlater⟩
      exact ⟨fun k hk => (byteAt_block hb hne hk).symm, hlater, rfl⟩
    · rintro e s₁ ⟨he, hlater⟩
      exact ⟨he, hlater, rfl⟩

theorem take_drop_toList {d : Block} {skip len : ℕ} {f : ℕ → UInt8} (hlen : skip + len ≤ 512)
    (hd : ∀ k (hk : k < 512), d ⟨k, hk⟩ = f (fileblock * 512 + k)) :
    (d.toList.drop skip).take len = slice f (fileblock * 512 + skip) len := by
  rw [← Lib.slice_getD (z := 0) (by rwa [Block.length_toList])]
  apply List.map_congr_left
  intro i hi
  have hlt : skip + i < 512 := by
    have := List.mem_range.mp hi
    omega
  exact (getD_toList d hlt).trans ((hd _ hlt).trans (congrArg f (Nat.add_assoc ..).symm))

theorem write_back {s₁ : SfsFs} {data : Block} {skip : ℕ} {E : Fail → SfsFs × SfsUio → Prop}
    (hw : w.Writes) (hkept : Kept w live s s₁) (hlive : live ino) (hrw : u.uioRw = .write)
    (hblock : s₁.blockOf ino fileblock = b) (hne : b ≠ 0)
    (hpatch : Patch s₁ u ino fileblock skip n data) (hin : posOf u.uioOffset + n ≤ sfsMaxsize) :
    wp (onSfs (sfsWriteblock w b data)) (fun _ t' => Did w live ino n (s, u) t') E (s₁, u.took n) := by
  obtain ⟨p, -, hpart⟩ := part_of_blockOf hblock hne
  have hused := (hpart ▸ hkept.sound.zero_or_used hlive p).resolve_left hne
  obtain ⟨tick, hrun⟩ := @sfsWriteblock_spec w s₁ b hw (hkept.sound.lt_device hused) data
  rw [wp_onSfs, wp_of_ok hrun]
  exact did_write hkept hlive hrw hblock hne hpatch rfl hin

theorem sfsPartialio_spec (hw : w.Writes) {skip len : ℕ} (h : Ready w live ino len (s, u))
    (hskip : u.uioOffset % 512 = skip) (hlen : skip + len ≤ 512) :
    wp (sfsPartialio w ino skip len) (fun _ t' => Did w live ino len (s, u) t')
      (fun e t' => (∃ x, e = .errno x) ∧ Did w live ino 0 (s, u) t') (s, u) := by
  have hlive := h.isLive
  obtain ⟨sv, hsv⟩ := h.loaded
  have hpos : posOf u.uioOffset / 512 * 512 + skip = posOf u.uioOffset := by
    rw [← hskip, ← posOf_mod]
    omega
  unfold sfsPartialio
  have hfit : ¬ sfsBlocksize < skip + len := Nat.not_lt.mpr hlen
  rw [wp_bind, wp_get]
  dsimp only
  rw [if_neg hfit, wp_bind, wp_onSfs]
  refine wp_mono ?_ ?_ (sfsBmap_spec hw h.sound hsv _ _)
  · intro b s₁ hmap
    rw [posOf_div] at hmap
    have hin : posOf u.uioOffset + len ≤ sfsMaxsize := by
      have hlt := hmap.inside
      unfold sfsMaxsize sfsNdirect sfsDbperidb sfsNindirect sfsBlocksize
      omega
    have hgot : u.uioRw = .write → b ≠ 0 := fun hwrite => hmap.got (decide_eq_true hwrite)
    rw [if_neg, wp_bind]
    · refine wp_mono ?_ ?_ (fillIobuf_spec hmap.kept.sound hlive hmap.block)
      · rintro d ⟨s₂, u₂⟩ ⟨hd, hlater₂, hu₂⟩
        obtain rfl : u = u₂ := hu₂.symm
        have hkept₂ : Kept w live s s₂ := hmap.kept.trans (hmap.kept.sound.kept_later hlater₂)
        have hpiece : ((d.toList.drop skip).take len).length = len := by
          rw [List.length_take, List.length_drop, Block.length_toList]
          omega
        rw [wp_bind]
        cases hrw : u.uioRw with
        | read =>
          refine wp_mono ?_ ?_ (uiomove_read hrw (hpiece.symm ▸ h.fits))
          · rintro _ ⟨s₃, u₃⟩ ⟨hlater₃, rfl⟩
            rw [take_drop_toList hlen hd, hpos, hmap.kept.byteAt hlive]
            exact did_read (hkept₂.trans (hkept₂.sound.kept_later hlater₃)) hrw hin
          · rintro e ⟨s₃, u₃⟩ ⟨rfl, -, hlater₃, hu₃⟩
            obtain rfl : u = u₃ := hu₃.symm
            exact ⟨⟨_, rfl⟩, (hkept₂.trans (hkept₂.sound.kept_later hlater₃)).did _⟩
        | write =>
          refine wp_mono ?_ ?_ (uiomove_write hrw hpiece h.fits)
          · rintro _ ⟨s₃, u₃⟩ ⟨rfl, ⟨tick₃, rfl⟩, rfl, -⟩
            obtain ⟨tick₂, rfl⟩ := hlater₂
            have hkept₃ := hkept₂.trans (hkept₂.sound.kept_later ⟨tick₃, rfl⟩)
            have htaken : (u.bytes.take len).length = len :=
              List.length_take_of_le (h.full hrw ▸ h.fits.iov)
            refine write_back hw hkept₃ hlive hrw hmap.block (hgot hrw) ⟨hpos.symm, htaken, hlen, ?_⟩ hin
            intro i
            have hpatch := @ofList_patch d (u.bytes.take len) skip (htaken.symm ▸ hlen) i
            rw [htaken] at hpatch
            rw [hpatch]
            exact Lib.overlay_congr ((getD_toList d i.2).trans (hd i i.2))
          · rintro e ⟨s₃, u₃⟩ ⟨rfl, -, hlater₃, hu₃⟩
            obtain rfl : u = u₃ := hu₃.symm
            exact ⟨⟨_, rfl⟩, (hkept₂.trans (hkept₂.sound.kept_later hlater₃)).did _⟩
      · rintro e ⟨s₂, u₂⟩ ⟨he, hlater₂, hu₂⟩
        obtain rfl : u = u₂ := hu₂.symm
        exact ⟨he, (hmap.kept.trans (hmap.kept.sound.kept_later hlater₂)).did _⟩
    · rintro ⟨hzero, hnot⟩
      cases hrw : u.uioRw with
      | read => exact hnot hrw
      | write => exact hgot hrw hzero
  · rintro e s₁ ⟨he, hkept⟩
    exact ⟨he, hkept.did u⟩

/-! ## A whole block -/

theorem wp_thenAlways {m out : IoM Unit} {Q : Unit → SfsFs × SfsUio → Prop}
    {E : Fail → SfsFs × SfsUio → Prop}
    (h : wp m (fun _ => wp out Q E) (fun e t' => (∃ x, e = .errno x) ∧ wp out (fun _ => E e) E t') t) :
    wp (thenAlways m out) Q E t := by
  rw [thenAlways, wp_bind, wp_tryCatch]
  refine wp_mono (fun _ _ h => h) ?_ h
  rintro _ t' ⟨⟨x, rfl⟩, hout⟩
  rw [wp_bind]
  exact wp_mono (fun _ _ h => h) (fun _ _ h => h) hout

theorem gave_gave (xs ys : List UInt8) : (u.gave xs).gave ys = u.gave (xs ++ ys) := by
  simp only [SfsUio.gave, List.length_append, List.append_assoc, Nat.add_assoc, Nat.sub_sub]

/-- A fault may leave it half way. -/
theorem zerosLoop_spec (n : ℕ) : ∀ {s u}, u.uioRw = .read → u.Fits n →
    wp (zerosLoop w n) (fun _ t' => Later s t'.1 ∧ t'.2 = u.gave (List.replicate n 0))
      (fun e t' => (∃ x, e = .errno x) ∧ Later s t'.1 ∧ ∃ m ≤ n, t'.2 = u.gave (List.replicate m 0))
      (s, u) := by
  induction n using Nat.strong_induction_on with
  | _ n ih =>
    intro s u hrw hfits
    unfold zerosLoop
    split
    · rename_i hpos
      have hamt : min zerosLength n ≤ n := Nat.min_le_right _ _
      have hless : n - min zerosLength n < n := by
        unfold zerosLength
        omega
      have hlen : (List.replicate (min zerosLength n) (0 : UInt8)).length = min zerosLength n :=
        List.length_replicate
      rw [wp_bind]
      refine wp_mono ?_ ?_ (uiomove_read hrw ⟨hlen.symm ▸ hamt.trans hfits.iov,
        hlen.symm ▸ hamt.trans hfits.resid⟩)
      · rintro _ ⟨s₁, u₁⟩ ⟨hlater, rfl⟩
        have hrest : (u.gave (List.replicate (min zerosLength n) 0)).Fits (n - min zerosLength n) := by
          constructor
          · rw [SfsUio.gave, hlen]
            exact Nat.sub_le_sub_right hfits.iov _
          · rw [SfsUio.gave, hlen]
            exact Nat.sub_le_sub_right hfits.resid _
        refine wp_mono ?_ ?_ (ih _ hless hrw hrest)
        · rintro _ t' ⟨hlater', hmoved⟩
          refine ⟨hlater.trans hlater', ?_⟩
          rw [hmoved, gave_gave, List.replicate_append_replicate, Nat.add_sub_cancel' hamt]
        · rintro e t' ⟨he, hlater', m, hm, hmoved⟩
          refine ⟨he, hlater.trans hlater', min zerosLength n + m, by omega, ?_⟩
          rw [hmoved, gave_gave, List.replicate_append_replicate]
      · rintro e ⟨s₁, u₁⟩ ⟨rfl, -, hlater, rfl⟩
        exact ⟨⟨_, rfl⟩, hlater, 0, Nat.zero_le _, by simp [SfsUio.gave]⟩
    · rename_i hzero
      obtain rfl := Nat.eq_zero_of_not_pos hzero
      exact ⟨.refl s, by simp [SfsUio.gave]⟩

theorem slice_hole (hb : s.blockOf ino fileblock = 0) (hm : m ≤ 512) :
    slice (s.byteAt ino) (fileblock * 512) m = List.replicate m 0 := by
  rw [Lib.slice_congr (g := fun _ => 0)]
  · exact Lib.slice_of_const fun _ _ => rfl
  · intro p hp hlt
    have hdiv : p / 512 = fileblock := by omega
    rw [byteAt, hdiv, hb, byteIn, if_pos rfl]

/-- What `sfs_blockio` makes of the transfer for the time of the access. -/
def SfsUio.onDisk (u : SfsUio) (b : UInt32) : SfsUio :=
  { u with uioOffset := b.toNat * 512, uioResid := 512 }

/-- And back. -/
def SfsUio.backFrom (u₁ u : SfsUio) (b : UInt32) : SfsUio :=
  { u₁ with
    uioOffset := u₁.uioOffset - b.toNat * 512 + u.uioOffset
    uioResid := u₁.uioResid + u.uioResid - 512 }

theorem backFrom_onDisk : (u.onDisk b).backFrom u b = u := by
  simp [SfsUio.backFrom, SfsUio.onDisk]

theorem backFrom_gave {xs : List UInt8} (h : xs.length = 512) :
    ((u.onDisk b).gave xs).backFrom u b = u.gave xs := by
  simp only [SfsUio.backFrom, SfsUio.onDisk, SfsUio.gave, h, SfsUio.mk.injEq, true_and, and_true]
  omega

theorem backFrom_took (h : 512 ≤ u.uioResid) : ((u.onDisk b).took 512).backFrom u b = u.took 512 := by
  simp only [SfsUio.backFrom, SfsUio.onDisk, SfsUio.took, SfsUio.mk.injEq, true_and, and_true]
  omega

variable {s₁ : SfsFs}

/-- The access of `sfs_blockio` to the disk. -/
theorem rwblock_block (hw : w.Writes) (hkept : Kept w live s s₁) (h : Ready w live ino 512 (s, u))
    (hblock : s₁.blockOf ino fileblock = b) (hne : b ≠ 0) (hpos : posOf u.uioOffset = fileblock * 512)
    (hin : posOf u.uioOffset + 512 ≤ sfsMaxsize) :
    wp (sfsRwblock w) (fun _ t' => Did w live ino 512 (s, u) (t'.1, t'.2.backFrom u b))
      (fun e t' => (∃ x, e = .errno x) ∧ Did w live ino 0 (s, u) (t'.1, t'.2.backFrom u b))
      (s₁, u.onDisk b) := by
  have hlive := h.isLive
  obtain ⟨p, -, hpart⟩ := part_of_blockOf hblock hne
  have hused := (hpart ▸ hkept.sound.zero_or_used hlive p).resolve_left hne
  have hsector : (u.onDisk b).AtSector w b.toNat :=
    ⟨rfl, rfl, h.fits.iov, UInt32.lt_iff_toNat_lt.mp (hkept.sound.lt_device hused)⟩
  cases hrw : u.uioRw with
  | read =>
    have hsame : (s₁.disk b.toNat).toList = slice (s.byteAt ino) (posOf u.uioOffset) 512 := by
      have hwhole := @take_drop_toList fileblock (s₁.disk b.toNat) 0 512 (s₁.byteAt ino) (by omega)
        fun k hk => (byteAt_block hblock hne hk).symm
      rw [List.drop_zero, Block.take_toList, Nat.add_zero, ← hpos, hkept.byteAt hlive] at hwhole
      exact hwhole
    refine wp_mono ?_ ?_ (rwblockRetry_read hsector hrw 10 s₁)
    · rintro _ ⟨s₂, u₂⟩ ⟨hlater, rfl⟩
      rw [hsame, backFrom_gave Lib.length_slice]
      exact did_read (hkept.trans (hkept.sound.kept_later hlater)) hrw hin
    · rintro e ⟨s₂, u₂⟩ ⟨he, hlater, rfl⟩
      rw [backFrom_onDisk]
      exact ⟨he.elim (fun h => ⟨_, h⟩) (fun h => ⟨_, h⟩),
        (hkept.trans (hkept.sound.kept_later hlater)).did u⟩
  | write =>
    have htaken : (u.bytes.take 512).length = 512 := List.length_take_of_le (h.full hrw ▸ h.fits.iov)
    refine wp_mono ?_ ?_ (sfsRwblock_write hsector hrw)
    · rintro _ ⟨s₂, u₂⟩ ⟨rfl, ⟨⟨tick, rfl⟩, -⟩ | ⟨-, ⟨tick, hfails⟩, -⟩⟩
      · have hpatch : Patch s₁ u ino fileblock 0 512 (u.onDisk b).sector := by
          refine ⟨?_, htaken, by omega, fun i => ?_⟩
          · rw [Nat.add_zero]
            exact hpos
          · have hi : i.1 < (u.bytes.take 512).length := htaken.symm ▸ i.2
            have hover := @Lib.overlay_add _ (fun k => s₁.byteAt ino (fileblock * 512 + k)) 0
              (u.bytes.take 512) i.1 hi 0
            rw [Nat.zero_add] at hover
            rw [hover]
            rfl
        rw [backFrom_took h.fits.resid]
        exact did_write hkept hlive hrw hblock hne hpatch rfl hin
      · rw [hw tick] at hfails
        cases hfails
    · rintro e ⟨s₂, u₂⟩ ⟨rfl, -, hlater, rfl⟩
      rw [backFrom_onDisk]
      exact ⟨⟨_, rfl⟩, (hkept.trans (hkept.sound.kept_later hlater)).did u⟩

theorem sfsBlockio_spec (hw : w.Writes) (h : Ready w live ino 512 (s, u))
    (haligned : u.uioOffset % 512 = 0) :
    wp (sfsBlockio w ino) (fun _ t' => Did w live ino 512 (s, u) t')
      (fun e t' => (∃ x, e = .errno x) ∧ ∃ m ≤ 512, Did w live ino m (s, u) t') (s, u) := by
  have hlive := h.isLive
  obtain ⟨sv, hsv⟩ := h.loaded
  have hpos : posOf u.uioOffset = posOf u.uioOffset / 512 * 512 := by
    have hmod := posOf_mod u.uioOffset
    omega
  unfold sfsBlockio
  rw [wp_bind, wp_get]
  dsimp only
  rw [wp_bind, wp_onSfs]
  refine wp_mono ?_ ?_ (sfsBmap_spec hw h.sound hsv _ _)
  · intro b s₁ hmap
    rw [posOf_div] at hmap
    have hin : posOf u.uioOffset + 512 ≤ sfsMaxsize := by
      have hlt := hmap.inside
      unfold sfsMaxsize sfsNdirect sfsDbperidb sfsNindirect sfsBlocksize
      omega
    rw [wp_ite]
    constructor
    · rintro rfl
      have hread : u.uioRw = .read := by
        cases hrw : u.uioRw with
        | read => rfl
        | write => exact absurd rfl (hmap.got (decide_eq_true hrw))
      have hhole : ∀ m ≤ 512, List.replicate m 0 = slice (s.byteAt ino) (posOf u.uioOffset) m := by
        intro m hm
        rw [hpos, ← hmap.kept.byteAt hlive, slice_hole hmap.block hm]
      rw [if_neg (not_not.mpr hread), uiomovezeros, wp_bind, wp_get, if_neg (not_not.mpr hread)]
      refine wp_mono ?_ ?_ (zerosLoop_spec 512 hread h.fits)
      · rintro _ ⟨s₂, u₂⟩ ⟨hlater, rfl⟩
        rw [hhole 512 (Nat.le_refl _)]
        exact did_read (hmap.kept.trans (hmap.kept.sound.kept_later hlater)) hread hin
      · rintro e ⟨s₂, u₂⟩ ⟨he, hlater, m, hm, rfl⟩
        rw [hhole m hm]
        exact ⟨he, m, hm, did_read (hmap.kept.trans (hmap.kept.sound.kept_later hlater)) hread
          (by omega)⟩
    · intro hne
      have hresid : ¬ u.uioResid < sfsBlocksize := Nat.not_lt.mpr h.fits.resid
      obtain ⟨p, -, hpart⟩ := part_of_blockOf hmap.block hne
      have hused := (hpart ▸ hmap.kept.sound.zero_or_used hlive p).resolve_left hne
      have hmul : (b * UInt32.ofNat sfsBlocksize).toNat = b.toNat * 512 := by
        have hlt := hused.1.1
        have hblocks := hmap.kept.same.fixed.blocks
        have hsmall := h.small
        dsimp only at hblocks hsmall
        rw [hblocks] at hlt
        rw [UInt32.toNat_mul]
        show b.toNat * 512 % 2 ^ 32 = b.toNat * 512
        omega
      rw [if_neg hresid, hmul, wp_bind, wp_modify]
      refine wp_thenAlways (wp_mono ?_ ?_ (rwblock_block hw hmap.kept h hmap.block hne hpos hin))
      · intro _ t' hdid
        rw [wp_modify]
        exact hdid
      · rintro e t' ⟨he, hdid⟩
        rw [wp_modify]
        exact ⟨he, he, 0, Nat.zero_le _, hdid⟩
  · rintro e s₁ ⟨he, hkept⟩
    exact ⟨he, 0, Nat.zero_le _, hkept.did u⟩

/-! ## The whole region -/

theorem Ready.mono (h : Ready w live ino n t) (hle : m ≤ n) : Ready w live ino m t :=
  ⟨h.sound, h.loaded, h.small, ⟨hle.trans h.fits.iov, hle.trans h.fits.resid⟩, h.full⟩

theorem Ready.bytes_le (h : Ready w live ino n t) (hrw : t.2.uioRw = .write) : n ≤ t.2.bytes.length :=
  h.full hrw ▸ h.fits.iov

/-- An error, some bytes on the way. -/
def Halted (w : World) (live : UInt32 → Prop) (ino : UInt32) (n : ℕ) (t : SfsFs × SfsUio) (e : Fail)
    (t' : SfsFs × SfsUio) : Prop :=
  (∃ x, e = .errno x) ∧ ∃ m ≤ n, Did w live ino m t t'

theorem Halted.of_did {e : Fail} (h : Halted w live ino n t₁ e t₂) (hdid : Did w live ino m t t₁)
    (hready : Ready w live ino (m + n) t) : Halted w live ino (m + n) t e t₂ := by
  obtain ⟨he, k, hk, hdid'⟩ := h
  refine ⟨he, m + k, by omega, hdid.trans hdid' hready.isLive fun hrw => ?_⟩
  exact (Nat.le_add_right m n).trans (hready.bytes_le hrw)

theorem Did.append (h : Did w live ino m t t₁) (h' : Did w live ino n t₁ t₂)
    (hready : Ready w live ino (m + n) t) : Did w live ino (m + n) t t₂ :=
  h.trans h' hready.isLive fun hrw => (Nat.le_add_right m n).trans (hready.bytes_le hrw)

theorem blockLoop_spec (hw : w.Writes) (k : ℕ) : ∀ {t}, Ready w live ino (512 * k) t →
    t.2.uioOffset % 512 = 0 →
    wp (blockLoop w ino k) (fun _ t' => Did w live ino (512 * k) t t')
      (Halted w live ino (512 * k) t) t := by
  induction k with
  | zero =>
    intro t h _
    exact h.sound.kept.did t.2
  | succ k ih =>
    intro t h haligned
    have hsucc : 512 * (k + 1) = 512 + 512 * k := by omega
    rw [hsucc] at h ⊢
    rw [blockLoop, wp_bind]
    refine wp_mono ?_ ?_ (sfsBlockio_spec hw (h.mono (Nat.le_add_right _ _)) haligned)
    · intro _ t₁ hdid
      have haligned₁ : t₁.2.uioOffset % 512 = 0 := by
        have hoff : t₁.2.uioOffset = t.2.uioOffset + 512 := by rw [hdid.uio, moved_uioOffset]
        omega
      refine wp_mono ?_ ?_ (ih (h.of_did hdid) haligned₁)
      · exact fun _ t₂ hdid' => hdid.append hdid' h
      · exact fun e t₂ hhalted => hhalted.of_did hdid h
    · rintro e t₁ ⟨he, m, hm, hdid⟩
      exact ⟨he, m, by omega, hdid⟩

/-- The length of the leading partial block. -/
def SfsUio.lead (u : SfsUio) : ℕ :=
  if u.uioOffset % 512 = 0 then 0 else min (512 - u.uioOffset % 512) u.uioResid

theorem sfsIoLead_spec (hw : w.Writes) (h : Ready w live ino u.uioResid (s, u)) :
    wp (sfsIoLead w ino) (fun _ t' => Did w live ino u.lead (s, u) t')
      (Halted w live ino u.uioResid (s, u)) (s, u) := by
  rw [sfsIoLead, wp_bind, wp_get]
  dsimp only
  rw [wp_ite]
  constructor
  · intro hskip
    have hlead : u.lead = min (512 - u.uioOffset % 512) u.uioResid := if_neg hskip
    rw [hlead]
    refine wp_mono (fun _ _ h => h) ?_ (sfsPartialio_spec hw (h.mono (Nat.min_le_right _ _)) rfl ?_)
    · rintro e t' ⟨he, hdid⟩
      exact ⟨he, 0, Nat.zero_le _, hdid⟩
    · unfold sfsBlocksize
      omega
  · intro haligned
    have hlead : u.lead = 0 := if_pos (not_not.mp haligned)
    rw [wp_pure, hlead]
    exact h.sound.kept.did u

theorem sfsIoParts_spec (hw : w.Writes) (h : Ready w live ino u.uioResid (s, u)) :
    wp (sfsIoParts w ino) (fun _ t' => Did w live ino u.uioResid (s, u) t')
      (Halted w live ino u.uioResid (s, u)) (s, u) := by
  have hlead : u.lead ≤ u.uioResid := by
    unfold SfsUio.lead
    split
    · exact Nat.zero_le _
    · exact Nat.min_le_right _ _
  rw [sfsIoParts, wp_bind]
  refine wp_mono ?_ (fun _ _ h => h) (sfsIoLead_spec hw h)
  rintro _ ⟨s₁, u₁⟩ hdid₁
  have hoff₁ : u₁.uioOffset = u.uioOffset + u.lead :=
    (congrArg SfsUio.uioOffset hdid₁.uio).trans (moved_uioOffset ..)
  have hresid₁ : u₁.uioResid = u.uioResid - u.lead :=
    (congrArg SfsUio.uioResid hdid₁.uio).trans (moved_uioResid ..)
  have hsum : u.uioResid = u.lead + u₁.uioResid := by omega
  have hready := hsum ▸ h
  have hready₁ : Ready w live ino u₁.uioResid (s₁, u₁) := hready.of_did hdid₁
  rw [wp_bind, wp_get, wp_ite]
  constructor
  · intro hzero
    rw [wp_pure, hsum, hzero]
    exact hdid₁
  · intro hmore
    have haligned : u₁.uioOffset % sfsBlocksize = 0 := by
      unfold SfsUio.lead at hoff₁ hresid₁
      unfold sfsBlocksize
      split at hoff₁ <;> rename_i h0
      · omega
      · rw [if_neg h0] at hresid₁
        omega
    rw [if_neg (not_not.mpr haligned), wp_bind]
    have hdiv : 512 * (u₁.uioResid / 512) + u₁.uioResid % 512 = u₁.uioResid := Nat.div_add_mod ..
    have hready₁' : Ready w live ino (512 * (u₁.uioResid / 512) + u₁.uioResid % 512) (s₁, u₁) := by
      rw [hdiv]
      exact hready₁
    refine wp_mono ?_ ?_ (blockLoop_spec hw (u₁.uioResid / 512) (hready₁.mono (by omega)) haligned)
    · rintro _ ⟨s₂, u₂⟩ hdid₂
      have hoff₂ : u₂.uioOffset = u₁.uioOffset + 512 * (u₁.uioResid / 512) :=
        (congrArg SfsUio.uioOffset hdid₂.uio).trans (moved_uioOffset ..)
      have hresid₂ : u₂.uioResid = u₁.uioResid % 512 := by
        have hmoved : u₂.uioResid = u₁.uioResid - 512 * (u₁.uioResid / 512) :=
          (congrArg SfsUio.uioResid hdid₂.uio).trans (moved_uioResid ..)
        omega
      have hready₂ : Ready w live ino (u₁.uioResid % 512) (s₂, u₂) := hready₁'.of_did hdid₂
      have hlow : ¬ sfsBlocksize ≤ u₂.uioResid := by
        unfold sfsBlocksize
        omega
      have hfinish : ∀ {t₃}, Did w live ino (u₁.uioResid % 512) (s₂, u₂) t₃ →
          Did w live ino u.uioResid (s, u) t₃ := by
        intro t₃ hdid₃
        have hrest := hdid₂.append hdid₃ hready₁'
        rw [hdiv] at hrest
        rw [hsum]
        exact hdid₁.append hrest hready
      rw [wp_bind, wp_get]
      dsimp only
      rw [if_neg hlow, wp_ite, hresid₂]
      constructor
      · intro _
        have haligned₂ : u₂.uioOffset % 512 = 0 := by
          unfold sfsBlocksize at haligned
          omega
        refine wp_mono (fun _ _ hdid₃ => hfinish hdid₃) ?_
          (sfsPartialio_spec hw hready₂ haligned₂ (by omega))
        rintro e t₃ ⟨he, hdid₃⟩
        have hhalted : Halted w live ino (u₁.uioResid % 512) (s₂, u₂) e t₃ := ⟨he, 0, Nat.zero_le _, hdid₃⟩
        have hrest := hhalted.of_did hdid₂ hready₁'
        rw [hdiv] at hrest
        rw [hsum]
        exact hrest.of_did hdid₁ hready
      · intro hend
        rw [wp_pure]
        refine hfinish ?_
        rw [Nat.eq_zero_of_not_pos hend]
        exact hready₂.sound.kept.did u₂
    · rintro e t₂ ⟨he, m, hm, hdid₂⟩
      rw [hsum]
      refine Halted.of_did ⟨he, m, by omega, hdid₂⟩ hdid₁ hready

end UnionCollegeCode.OS161.Sfs
