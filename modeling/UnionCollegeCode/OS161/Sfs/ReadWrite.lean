import UnionCollegeCode.OS161.Sfs.Transfer

/-!
# `sfs_read`, `sfs_write`

A file is the list of its bytes, up to its size. A read hands out a piece of the list. A write puts
its bytes over the list, if the offset does not wrap around; what it has not got to is not written.
-/

set_option autoImplicit false

namespace UnionCollegeCode.OS161.Sfs

open Lib (overlay slice)
open Lib.EState
open SfsFs

variable {w : World} {live : UInt32 → Prop} {s s' : SfsFs} {ino : UInt32} {sv : SfsVnode}
  {u u' : SfsUio} {m n r : ℕ}

/-! ## Reading -/

/-- The size of a file, as the kernel has it. -/
def SfsFs.fileSize (s : SfsFs) (ino : UInt32) : ℕ := (s.inodeOf ino).sfiSize.toNat

/-- What a read of the transfer gets if nothing goes wrong. -/
def readable (s : SfsFs) (ino : UInt32) (u : SfsUio) : ℕ := min u.uioResid (s.fileSize ino - u.uioOffset)

/-- The part of the residue past the end of the file is put back. -/
theorem Did.restore (hrw : u.uioRw = .read) (hr : r ≤ u.uioResid) (hm : m ≤ r)
    (h : Did w live ino m (s, { u with uioResid := r }) (s', u')) :
    Did w live ino m (s, u) (s', { u' with uioResid := u'.uioResid + (u.uioResid - r) }) := by
  refine ⟨h.sound, ?_, h.bytes, h.attrs, h.table, h.fixed, h.inside⟩
  have hmoved := h.uio
  dsimp only at hmoved
  rw [hmoved]
  simp only [SfsUio.moved, hrw, SfsUio.gave, Lib.length_slice, SfsUio.mk.injEq, true_and, and_true]
  omega

theorem onSfs_vnode_ok (hsv : s.vnodeOf ino = some sv) :
    (onSfs (vnode ino) : IoM SfsVnode) (s, u) = .ok sv (s, u) := by
  rw [onSfs, zoom, vnode_ok hsv]

theorem sfsIoOut_read (hsv : s.vnodeOf ino = some sv) (hrw : u.uioRw = .read) (origresid extraresid : ℕ) :
    sfsIoOut ino origresid extraresid (s, u) =
      .ok ⟨⟩ (s, { u with uioResid := u.uioResid + extraresid }) := by
  have hnot : ¬ (u.uioResid ≠ origresid ∧ u.uioRw = .write ∧ sv.svI.sfiSize.toNat < u.uioOffset) := by
    rintro ⟨-, hwrite, -⟩
    rw [hrw] at hwrite
    cases hwrite
  rw [sfsIoOut, bind_ok get_ok]
  dsimp only
  rw [bind_ok (onSfs_vnode_ok hsv), if_neg hnot]
  rfl

theorem sfsRead_spec (hw : w.Writes) (h : Ready w live ino u.uioResid (s, u)) (hrw : u.uioRw = .read) :
    wp (sfsRead w ino) (fun _ t' => Did w live ino (readable s ino u) (s, u) t')
      (Halted w live ino (readable s ino u) (s, u)) (s, u) := by
  obtain ⟨sv, hsv⟩ := h.loaded
  have hsize : sv.svI.sfiSize.toNat = s.fileSize ino := by rw [fileSize, inodeOf_loaded hsv]
  rw [sfsRead, wp_bind, wp_get, if_neg (not_not.mpr hrw), sfsIo, wp_bind, wp_get, wp_bind,
    wp_of_ok (onSfs_vnode_ok hsv)]
  dsimp only
  rw [wp_ite, hsize]
  constructor
  · rintro ⟨-, hend⟩
    rw [wp_pure, readable, Nat.sub_eq_zero_of_le hend, Nat.min_zero]
    exact h.sound.kept.did u
  · intro hnot
    have hbefore : u.uioOffset < s.fileSize ino := Nat.not_le.mp fun hle => hnot ⟨hrw, hle⟩
    rw [if_pos hrw, if_neg (by omega), wp_bind, wp_modify]
    have hresid : u.uioResid - (u.uioOffset + u.uioResid - s.fileSize ino) = readable s ino u := by
      unfold readable
      omega
    have hextra : u.uioOffset + u.uioResid - s.fileSize ino = u.uioResid - readable s ino u := by
      unfold readable
      omega
    have hle : readable s ino u ≤ u.uioResid := Nat.min_le_left _ _
    have hready : Ready w live ino (readable s ino u) (s, { u with uioResid := readable s ino u }) :=
      ⟨h.sound, h.loaded, h.small, ⟨hle.trans h.fits.iov, Nat.le_refl _⟩, h.full⟩
    have hout : ∀ {m t'}, m ≤ readable s ino u →
        Did w live ino m (s, { u with uioResid := readable s ino u }) t' →
        ∃ t'', sfsIoOut ino u.uioResid (u.uioOffset + u.uioResid - s.fileSize ino) t' = .ok ⟨⟩ t'' ∧
          Did w live ino m (s, u) t'' := by
      rintro m ⟨s', u'⟩ hm hdid
      obtain ⟨sv', hsv', -⟩ := vnodeOf_of_faces hdid.table hsv
      have hrw' : u'.uioRw = .read := by
        rw [← hrw]
        exact (congrArg SfsUio.uioRw hdid.uio).trans (moved_uioRw ..)
      refine ⟨_, sfsIoOut_read hsv' hrw' _ _, ?_⟩
      rw [hextra]
      exact hdid.restore hrw hle hm
    rw [hresid]
    refine wp_thenAlways (wp_mono ?_ ?_ (sfsIoParts_spec hw hready))
    · intro _ t' hdid
      obtain ⟨t'', hrun, hdid''⟩ := hout (Nat.le_refl _) hdid
      exact (wp_of_ok hrun).mpr hdid''
    · rintro e t' ⟨he, m, hm, hdid⟩
      obtain ⟨t'', hrun, hdid''⟩ := hout hm hdid
      exact ⟨he, (wp_of_ok hrun).mpr ⟨he, m, hm, hdid''⟩⟩

/-! ## Writing -/

/-- `n` bytes have been written. -/
structure Put (w : World) (live : UInt32 → Prop) (ino : UInt32) (n : ℕ) (t t' : SfsFs × SfsUio) :
    Prop where
  sound : Sound w live t'.1
  uio : t'.2 = t.2.took n
  bytes : ∀ ino', live ino' → t'.1.byteAt ino' =
    if ino' = ino then overlay (t.1.byteAt ino) (posOf t.2.uioOffset) (t.2.bytes.take n)
    else t.1.byteAt ino'
  size : t'.1.fileSize ino =
    if n ≠ 0 ∧ t.1.fileSize ino < t.2.uioOffset + n then (t.2.uioOffset + n) % 2 ^ 32
    else t.1.fileSize ino
  others : ∀ ino', live ino' → ino' ≠ ino → (t'.1.inodeOf ino').attrs = (t.1.inodeOf ino').attrs
  type : (t'.1.inodeOf ino).sfiType = (t.1.inodeOf ino).sfiType
  linkcount : (t'.1.inodeOf ino).sfiLinkcount = (t.1.inodeOf ino).sfiLinkcount
  table : t'.1.vnodes.map SfsVnode.face = t.1.vnodes.map SfsVnode.face
  fixed : SameMeta t.1 t'.1
  inside : n ≠ 0 → posOf t.2.uioOffset + n ≤ sfsMaxsize

/-- The size stays as it is. -/
theorem Did.put (h : Did w live ino n (s, u) (s', u')) (hlive : live ino) (hrw : u.uioRw = .write)
    (hend : ¬ (n ≠ 0 ∧ s.fileSize ino < u.uioOffset + n)) :
    Put w live ino n (s, u) (s', u.took n) := by
  have hattrs : (s'.inodeOf ino).attrs = (s.inodeOf ino).attrs := h.attrs ino hlive
  refine ⟨h.sound, rfl, fun ino' hlive' => ?_, ?_, fun ino' hlive' _ => h.attrs ino' hlive', ?_, ?_,
    h.table, h.fixed, h.inside⟩
  · have hdid := h.bytes ino' hlive'
    simp only [hrw, and_true] at hdid
    exact hdid
  · rw [if_neg hend]
    exact congrArg (fun a => a.1.toNat) hattrs
  · exact congrArg (fun a => a.2.1) hattrs
  · exact congrArg (fun a => a.2.2) hattrs

/-- The size is set to the end of the write. -/
theorem Did.grow (h : Did w live ino n (s, u) (s', u')) (hlive : live ino) (hrw : u.uioRw = .write)
    (hend : n ≠ 0 ∧ s.fileSize ino < u.uioOffset + n) (hsv : s'.vnodeOf ino = some sv) :
    Put w live ino n (s, u)
      (s'.setInode ino fun d => { d with sfiSize := .ofNat (u.uioOffset + n) }, u.took n) := by
  have hattrs : (s'.inodeOf ino).attrs = (s.inodeOf ino).attrs := h.attrs ino hlive
  have hblocks : ∀ d : SfsDinode, ({ d with sfiSize := .ofNat (u.uioOffset + n) } : SfsDinode).sfiDirect =
      d.sfiDirect ∧ ({ d with sfiSize := .ofNat (u.uioOffset + n) } : SfsDinode).sfiIndirect =
        d.sfiIndirect := fun _ => ⟨rfl, rfl⟩
  have hinode := inodeOf_setInode hsv fun d => { d with sfiSize := .ofNat (u.uioOffset + n) }
  have hself := hinode ino
  rw [if_pos rfl] at hself
  refine ⟨h.sound.setAttrs hsv hblocks, rfl, fun ino' hlive' => ?_, ?_, fun ino' hlive' hne => ?_, ?_,
    ?_, (faces_setInode _).trans h.table, h.fixed.trans (.setInode s' ino _), h.inside⟩
  · have hdid := h.bytes ino' hlive'
    simp only [hrw, and_true] at hdid
    rw [byteAt_setAttrs hsv hblocks]
    exact hdid
  · rw [if_pos hend, fileSize, hself]
    exact UInt32.toNat_ofNat'
  · rw [hinode, if_neg hne]
    exact h.attrs ino' hlive'
  · rw [hself]
    exact congrArg (fun a => a.2.1) hattrs
  · rw [hself]
    exact congrArg (fun a => a.2.2) hattrs

theorem sfsIoOut_write (hlive : live ino) (hrw : u.uioRw = .write) (hn : n ≤ u.uioResid)
    (hsv : s.vnodeOf ino = some sv) (h : Did w live ino n (s, u) (s', u')) :
    ∃ t'', sfsIoOut ino u.uioResid 0 (s', u') = .ok ⟨⟩ t'' ∧ Put w live ino n (s, u) t'' := by
  obtain ⟨sv', hsv', -⟩ := vnodeOf_of_faces h.table hsv
  have hu' : u' = u.took n := by
    have hmoved : u' = u.moved (s.byteAt ino) n := h.uio
    rw [hmoved, SfsUio.moved, hrw]
  have hsize : sv'.svI.sfiSize.toNat = s.fileSize ino := by
    rw [← inodeOf_loaded hsv', fileSize]
    exact congrArg (fun a => a.1.toNat) (h.attrs ino hlive)
  have hcond : (u.took n).uioResid ≠ u.uioResid ∧ (u.took n).uioRw = .write ∧
      s.fileSize ino < (u.took n).uioOffset ↔ n ≠ 0 ∧ s.fileSize ino < u.uioOffset + n := by
    have hresid : (u.took n).uioResid ≠ u.uioResid ↔ n ≠ 0 := by
      show u.uioResid - n ≠ u.uioResid ↔ n ≠ 0
      omega
    rw [hresid]
    exact and_congr_right fun _ => and_iff_right hrw
  rw [sfsIoOut, bind_ok get_ok]
  dsimp only
  rw [bind_ok (onSfs_vnode_ok hsv'), hsize, hu']
  by_cases hend : n ≠ 0 ∧ s.fileSize ino < u.uioOffset + n
  · rw [if_pos (hcond.mpr hend)]
    exact ⟨_, rfl, h.grow hlive hrw hend hsv'⟩
  · rw [if_neg fun h => hend (hcond.mp h)]
    exact ⟨_, rfl, h.put hlive hrw hend⟩

/-- An error, with some bytes written. -/
def PutHalted (w : World) (live : UInt32 → Prop) (ino : UInt32) (n : ℕ) (t : SfsFs × SfsUio) (e : Fail)
    (t' : SfsFs × SfsUio) : Prop :=
  (∃ x, e = .errno x) ∧ ∃ m ≤ n, Put w live ino m t t'

theorem sfsWrite_spec (hw : w.Writes) (h : Ready w live ino u.uioResid (s, u)) (hrw : u.uioRw = .write) :
    wp (sfsWrite w ino) (fun _ t' => Put w live ino u.uioResid (s, u) t')
      (PutHalted w live ino u.uioResid (s, u)) (s, u) := by
  obtain ⟨sv, hsv⟩ := h.loaded
  have hnotread : ¬ u.uioRw = .read := by
    rw [hrw]
    nofun
  rw [sfsWrite, wp_bind, wp_get, if_neg (not_not.mpr hrw), sfsIo, wp_bind, wp_get, wp_bind,
    wp_of_ok (onSfs_vnode_ok hsv)]
  dsimp only
  rw [if_neg (fun h => hnotread h.1), if_neg hnotread, if_neg (fun h => h.1 rfl), wp_bind, wp_modify]
  refine wp_thenAlways (wp_mono ?_ ?_ (sfsIoParts_spec hw h))
  · rintro _ ⟨s', u'⟩ hdid
    obtain ⟨t'', hrun, hput⟩ := sfsIoOut_write h.isLive hrw (Nat.le_refl _) hsv hdid
    exact (wp_of_ok hrun).mpr hput
  · rintro e ⟨s', u'⟩ ⟨he, m, hm, hdid⟩
    obtain ⟨t'', hrun, hput⟩ := sfsIoOut_write h.isLive hrw hm hsv hdid
    exact ⟨he, (wp_of_ok hrun).mpr ⟨he, m, hm, hput⟩⟩

end UnionCollegeCode.OS161.Sfs
