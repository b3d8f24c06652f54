import UnionCollegeCode.OS161.Bitmap
import UnionCollegeCode.OS161.Sfs.Layout

/-!
# `lhd.c`, `sfs_io.c`: blocks to and from the disk

A `World` answers what the file system cannot decide: whether the disk reads or writes a sector,
whether a copy from or to user memory faults, whether `kmalloc` finds room. Each question is put
once, at a tick of its own. A sector that the disk fails to write keeps what it held.

`sfs_rwblock` tries again after an `EIO`. `lhd_io` has emptied the `uio` of a write by then, so the
second attempt has nothing left to write and reports that it is done.
-/

set_option autoImplicit false

namespace UnionCollegeCode.OS161.Sfs

open Function (update)
open Lib.EState

def EFAULT : ℕ := 6
def EINVAL : ℕ := 8
def EIO : ℕ := 32

structure World where
  dBlocks : UInt32
  readFails : ℕ → Bool
  writeFails : ℕ → Bool
  copyFails : ℕ → Bool
  kmallocFails : ℕ → Bool

inductive UioRw
  | read
  | write
  deriving DecidableEq, Repr

/-- A transfer with one `iovec`. `bytes` are those of its buffer that a write has not taken yet, or
those that a read has handed over. -/
structure SfsUio where
  /-- `iov_len`. -/
  iovLen : ℕ
  uioOffset : ℕ
  uioResid : ℕ
  uioRw : UioRw
  /-- `UIO_USERSPACE`. -/
  user : Bool
  bytes : List UInt8
  deriving DecidableEq, Repr

structure SfsVnode where
  svIno : UInt32
  svI : SfsDinode
  svDirty : Bool
  /-- `vn_refcount`. -/
  vnRefcount : ℕ

/-- A mounted volume and its disk. -/
structure SfsFs where
  sb : SfsSuperblock
  superdirty : Bool
  freemap : Bitmap
  freemapdirty : Bool
  /-- `sfs_vnodes`. -/
  vnodes : List SfsVnode
  disk : ℕ → Block
  tick : ℕ

/-- `SFS_FS_NBLOCKS`. -/
abbrev SfsFs.sbNblocks (s : SfsFs) : UInt32 := s.sb.sbNblocks

abbrev SfsM (α : Type) := EStateM Fail SfsFs α

/-- Code that has a `uio` in hand. -/
abbrev IoM (α : Type) := EStateM Fail (SfsFs × SfsUio) α

def onSfs {α : Type} (m : SfsM α) : IoM α := zoom Prod.fst (fun t s => (s, t.2)) m

def ask (answer : ℕ → Bool) : SfsM Bool := do
  let s ← get
  set { s with tick := s.tick + 1 }
  return answer s.tick

def Block.toList (b : Block) : List UInt8 := List.ofFn b

def Block.ofList (l : List UInt8) : Block := fun i => l.getD i.1 0

section

variable (w : World)

/-- From or to the region that holds `ptr`: what it holds afterwards. -/
def uiomove (ptr : List UInt8) : IoM (List UInt8) := do
  let (_, u) ← get
  if 0 < ptr.length ∧ 0 < u.uioResid then
    if min u.iovLen ptr.length = 0 then
      throw (.stop (.panic "uiomove: ran out of buffers\n"))
    else
      let size := min u.iovLen ptr.length
      let fault ← if u.user then onSfs (ask w.copyFails) else pure false
      if fault then
        throw (.errno EFAULT)
      else
        let u' := { u with
          iovLen := u.iovLen - size
          uioOffset := u.uioOffset + size
          uioResid := u.uioResid - size }
        match u.uioRw with
        | .read =>
          modify fun t => (t.1, { u' with bytes := u.bytes ++ ptr.take size })
          return ptr.take size ++ (← uiomove (ptr.drop size))
        | .write =>
          modify fun t => (t.1, { u' with bytes := u.bytes.drop size })
          return u.bytes.take size ++ (← uiomove (ptr.drop size))
  else
    return ptr
termination_by ptr.length
decreasing_by
  all_goals
    rw [List.length_drop]
    omega

/-- The loop of `lhd_io` over `n` sectors. -/
def lhdSectors : ℕ → ℕ → IoM Unit
  | _, 0 => pure ()
  | sector, n + 1 => do
    match (← get).2.uioRw with
    | .write =>
      let buf ← uiomove w Block.zero.toList
      if ← onSfs (ask w.writeFails) then
        throw (.errno EIO)
      else
        onSfs (modify fun s => { s with disk := update s.disk sector (.ofList buf) })
    | .read =>
      if ← onSfs (ask w.readFails) then
        throw (.errno EIO)
      else
        let _ ← uiomove w ((← get).1.disk sector).toList
    lhdSectors (sector + 1) n

/-- `lhd_io`. The sector number and the count are `uint32_t`. -/
def devopIo : IoM Unit := do
  let (_, u) ← get
  let sector := u.uioOffset / 512 % 2 ^ 32
  let len := u.uioResid / 512 % 2 ^ 32
  if u.uioOffset % 512 ≠ 0 ∨ u.uioResid % 512 ≠ 0 then
    throw (.errno EINVAL)
  else if w.dBlocks.toNat < (sector + len) % 2 ^ 32 then
    throw (.errno EINVAL)
  else
    lhdSectors w sector len

/-- The end of an attempt that failed. -/
def onIoError (again : IoM Unit) : Fail → IoM Unit
  | .errno e =>
    if e = EINVAL then
      throw (.stop (.panic "sfs: DEVOP_IO returned EINVAL\n"))
    else if e = EIO then
      again
    else
      throw (.errno e)
  | stop => throw stop

/-- `sfs_rwblock` with so many tries left. -/
def rwblockRetry : ℕ → IoM Unit
  | 0 => tryCatch (devopIo w) (onIoError (throw (.errno EIO)))
  | tries + 1 => tryCatch (devopIo w) (onIoError (rwblockRetry tries))

def sfsRwblock : IoM Unit := rwblockRetry w 10

/-- Code with a `uio` of its own, and what is left in it. -/
def withUio {α : Type} (u : SfsUio) (m : IoM α) : SfsM SfsUio := fun s =>
  match m (s, u) with
  | .ok _ (s', u') => .ok u' s'
  | .error e (s', _) => .error e s'

/-- `SFSUIO`. -/
def sfsUio (block : UInt32) (rw : UioRw) (bytes : List UInt8) : SfsUio :=
  ⟨512, block.toNat * 512, 512, rw, false, bytes⟩

def sfsReadblock (block : UInt32) : SfsM Block := do
  let u ← withUio (sfsUio block .read []) (sfsRwblock w)
  return .ofList u.bytes

def sfsWriteblock (block : UInt32) (data : Block) : SfsM Unit := do
  let _ ← withUio (sfsUio block .write data.toList) (sfsRwblock w)

end

/-! ## What the calls of the disk do -/

/-- The same volume, some questions later. -/
def Later (s s' : SfsFs) : Prop := ∃ t, s' = { s with tick := t }

theorem Later.refl (s : SfsFs) : Later s s := ⟨s.tick, rfl⟩

theorem Later.trans {s₁ s₂ s₃ : SfsFs} (h : Later s₁ s₂) (h' : Later s₂ s₃) : Later s₁ s₃ := by
  obtain ⟨t, rfl⟩ := h
  obtain ⟨t', rfl⟩ := h'
  exact ⟨t', rfl⟩

@[simp] theorem Block.length_toList (b : Block) : b.toList.length = 512 := List.length_ofFn

theorem Block.take_toList (b : Block) : b.toList.take 512 = b.toList :=
  List.take_of_length_le (Nat.le_of_eq b.length_toList)

@[simp] theorem Block.ofList_toList (b : Block) : Block.ofList b.toList = b := by
  funext i
  have hlen : i.1 < b.toList.length := by
    rw [Block.length_toList]
    exact i.2
  rw [Block.ofList, List.getD_eq_getElem _ _ hlen]
  exact List.getElem_ofFn hlen

attribute [irreducible] Block.toList

variable {w : World} {s s' : SfsFs} {u u' : SfsUio}

theorem ask_ok (answer : ℕ → Bool) :
    ask answer s = .ok (answer s.tick) { s with tick := s.tick + 1 } := rfl

theorem wp_onSfs {α : Type} {m : SfsM α} {Q : α → SfsFs × SfsUio → Prop}
    {E : Fail → SfsFs × SfsUio → Prop} :
    wp (onSfs m) Q E (s, u) ↔ wp m (fun a s' => Q a (s', u)) (fun e s' => E e (s', u)) s :=
  wp_zoom

theorem wp_ask {answer : ℕ → Bool} {Q : Bool → SfsFs → Prop} {E : Fail → SfsFs → Prop} :
    wp (ask answer) Q E s ↔ Q (answer s.tick) { s with tick := s.tick + 1 } :=
  wp_of_ok (ask_ok answer)

theorem wp_withUio {α : Type} {m : IoM α} {Q : SfsUio → SfsFs → Prop} {E : Fail → SfsFs → Prop} :
    wp (withUio u m) Q E s ↔ wp m (fun _ t => Q t.2 t.1) (fun e t => E e t.1) (s, u) := by
  cases h : m (s, u) with
  | ok a t => rw [wp_of_ok h, wp_of_ok (show withUio u m s = .ok t.2 t.1 by simp [withUio, h])]
  | error e t =>
    rw [wp_of_error h, wp_of_error (show withUio u m s = .error e t.1 by simp [withUio, h])]

/-! ## Moving bytes -/

/-- A write, `n` bytes later. -/
def SfsUio.took (u : SfsUio) (n : ℕ) : SfsUio :=
  { u with
    iovLen := u.iovLen - n
    uioOffset := u.uioOffset + n
    uioResid := u.uioResid - n
    bytes := u.bytes.drop n }

/-- A read that has handed over `bs` as well. -/
def SfsUio.gave (u : SfsUio) (bs : List UInt8) : SfsUio :=
  { u with
    iovLen := u.iovLen - bs.length
    uioOffset := u.uioOffset + bs.length
    uioResid := u.uioResid - bs.length
    bytes := u.bytes ++ bs }

/-- There is room for `n` bytes. -/
structure SfsUio.Fits (u : SfsUio) (n : ℕ) : Prop where
  iov : n ≤ u.iovLen
  resid : n ≤ u.uioResid

theorem uiomove_nil (t : SfsFs × SfsUio) : uiomove w [] t = .ok [] t := by
  unfold uiomove
  rw [bind_ok get_ok]
  rfl

/-- A move that fits is made at once. -/
theorem uiomove_write {ptr : List UInt8} {n : ℕ} (hrw : u.uioRw = .write) (hn : ptr.length = n)
    (hfits : u.Fits n) :
    wp (uiomove w ptr)
      (fun buf t => buf = u.bytes.take n ∧ Later s t.1 ∧ t.2 = u.took n ∧ (u.user = false → t.1 = s))
      (fun e t => e = .errno EFAULT ∧ u.user = true ∧ Later s t.1 ∧ t.2 = u) (s, u) := by
  obtain ⟨iovLen, offset, resid, rw, user, bytes⟩ := u
  obtain ⟨hiov, hresid⟩ := hfits
  dsimp only at hrw hiov hresid
  subst hrw hn
  unfold uiomove
  simp only [wp_bind, wp_get]
  by_cases hpos : 0 < ptr.length
  · rw [if_pos ⟨hpos, Nat.lt_of_lt_of_le hpos hresid⟩, Nat.min_eq_right hiov, if_neg hpos.ne',
      List.drop_length]
    have hend : ∀ t : SfsFs × SfsUio, uiomove w [] t = .ok [] t := uiomove_nil
    cases user with
    | false =>
      simp only [Bool.false_eq_true, if_false, wp_bind, wp_pure, wp_modify, wp_of_ok (hend _),
        List.append_nil]
      exact ⟨trivial, .refl s, rfl, fun _ => trivial⟩
    | true =>
      simp only [if_true, wp_bind, wp_onSfs, wp_ask]
      split
      · exact ⟨rfl, trivial, ⟨_, rfl⟩, rfl⟩
      · simp only [wp_bind, wp_modify, wp_of_ok (hend _), wp_pure, List.append_nil]
        exact ⟨trivial, ⟨_, rfl⟩, rfl, nofun⟩
  · have hnil : ptr = [] := List.eq_nil_of_length_eq_zero (Nat.eq_zero_of_not_pos hpos)
    subst hnil
    exact ⟨rfl, .refl s, rfl, fun _ => rfl⟩

theorem uiomove_read {ptr : List UInt8} (hrw : u.uioRw = .read) (hfits : u.Fits ptr.length) :
    wp (uiomove w ptr)
      (fun _ t => Later s t.1 ∧ t.2 = u.gave ptr)
      (fun e t => e = .errno EFAULT ∧ u.user = true ∧ Later s t.1 ∧ t.2 = u) (s, u) := by
  obtain ⟨iovLen, offset, resid, rw, user, bytes⟩ := u
  obtain ⟨hiov, hresid⟩ := hfits
  dsimp only at hrw hiov hresid
  subst hrw
  unfold uiomove
  simp only [wp_bind, wp_get]
  by_cases hpos : 0 < ptr.length
  · rw [if_pos ⟨hpos, Nat.lt_of_lt_of_le hpos hresid⟩, Nat.min_eq_right hiov, if_neg hpos.ne',
      List.drop_length, List.take_length]
    have hend : ∀ t : SfsFs × SfsUio, uiomove w [] t = .ok [] t := uiomove_nil
    cases user with
    | false =>
      simp only [Bool.false_eq_true, if_false, wp_bind, wp_pure, wp_modify, wp_of_ok (hend _)]
      exact ⟨.refl s, rfl⟩
    | true =>
      simp only [if_true, wp_bind, wp_onSfs, wp_ask]
      split
      · exact ⟨rfl, trivial, ⟨_, rfl⟩, rfl⟩
      · simp only [wp_bind, wp_modify, wp_of_ok (hend _), wp_pure]
        exact ⟨⟨_, rfl⟩, rfl⟩
  · have hnil : ptr = [] := List.eq_nil_of_length_eq_zero (Nat.eq_zero_of_not_pos hpos)
    subst hnil
    refine ⟨.refl s, ?_⟩
    simp [SfsUio.gave]

/-! ## One sector -/

/-- The transfer of one whole sector of the disk. -/
structure SfsUio.AtSector (u : SfsUio) (w : World) (b : ℕ) : Prop where
  offset : u.uioOffset = b * 512
  resid : u.uioResid = 512
  iov : 512 ≤ u.iovLen
  inside : b < w.dBlocks.toNat

variable {b : ℕ}

theorem SfsUio.AtSector.fits (hu : u.AtSector w b) {d : Block} : u.Fits d.toList.length := by
  rw [Block.length_toList]
  exact ⟨hu.iov, Nat.le_of_eq hu.resid.symm⟩

theorem devopIo_sector (hu : u.AtSector w b) :
    devopIo w (s, u) = (do lhdSectors w b 1 : IoM Unit) (s, u) := by
  have hlt := w.dBlocks.toNat_lt
  have hb := hu.inside
  have hsector : b * 512 / 512 % 2 ^ 32 = b := by omega
  have hsum : ¬ w.dBlocks.toNat < (b + 1) % 2 ^ 32 := by omega
  unfold devopIo
  rw [bind_ok get_ok]
  simp only [hu.offset, hu.resid, hsector, show 512 / 512 % 2 ^ 32 = 1 from rfl, hsum, if_false,
    Nat.mul_mod_left, Nat.mod_self, ne_eq, not_true_eq_false, or_self]


/-- A sector is read, or nothing is moved. -/
theorem devopIo_read (hu : u.AtSector w b) (hrw : u.uioRw = .read) :
    wp (devopIo w)
      (fun _ t => Later s t.1 ∧ t.2 = u.gave (s.disk b).toList)
      (fun e t => (e = .errno EIO ∨ e = .errno EFAULT) ∧ Later s t.1 ∧ t.2 = u) (s, u) := by
  rw [wp, devopIo_sector hu]
  show wp (lhdSectors w b 1) _ _ (s, u)
  simp only [lhdSectors, wp_bind, wp_get, hrw, wp_onSfs, wp_ask]
  split
  · exact ⟨.inl rfl, ⟨_, rfl⟩, rfl⟩
  · rw [wp_bind, wp_get, wp_bind]
    refine wp_mono ?_ ?_ (uiomove_read hrw hu.fits)
    · rintro _ t ⟨⟨tick, hlater⟩, hmoved⟩
      rw [wp_pure]
      exact ⟨⟨tick, hlater⟩, hmoved⟩
    · rintro e t ⟨he, _, ⟨tick, hlater⟩, hsame⟩
      exact ⟨.inr he, ⟨tick, hlater⟩, hsame⟩

/-- The sector that a write is about to put down. -/
def SfsUio.sector (u : SfsUio) : Block := .ofList (u.bytes.take 512)

/-- A sector is written, or the disk fails once the bytes are taken, or they cannot be taken. -/
theorem devopIo_write (hu : u.AtSector w b) (hrw : u.uioRw = .write) :
    wp (devopIo w)
      (fun _ t => (∃ tick, t.1 = { s with disk := update s.disk b u.sector, tick := tick }) ∧
        t.2 = u.took 512 ∧ (u.user = false → w.writeFails s.tick = false))
      (fun e t => Later s t.1 ∧ (e = .errno EFAULT ∧ u.user = true ∧ t.2 = u ∨
        e = .errno EIO ∧ (∃ tick, w.writeFails tick = true) ∧ t.2 = u.took 512 ∧
          (u.user = false → w.writeFails s.tick = true))) (s, u) := by
  rw [wp, devopIo_sector hu]
  show wp (lhdSectors w b 1) _ _ (s, u)
  simp only [lhdSectors, wp_bind, wp_get, hrw]
  refine wp_mono ?_ ?_ (uiomove_write hrw Block.zero.length_toList (Block.zero.length_toList ▸ hu.fits))
  · rintro buf ⟨s₁, u₁⟩ ⟨hbuf, ⟨tick, hlater⟩, hmoved, hkernel⟩
    dsimp only at hlater hmoved hkernel
    subst hlater hmoved
    have htick : u.user = false → tick = s.tick := fun h => congrArg SfsFs.tick (hkernel h)
    simp only [wp_onSfs, wp_ask]
    split
    case isTrue hfails =>
      exact ⟨⟨_, rfl⟩, .inr ⟨rfl, ⟨_, hfails⟩, rfl, fun h => htick h ▸ hfails⟩⟩
    case isFalse hworks =>
      simp only [wp_bind, wp_onSfs, wp_modify, wp_pure]
      exact ⟨⟨_, by rw [hbuf, SfsUio.sector]⟩, trivial,
        fun h => htick h ▸ Bool.eq_false_of_not_eq_true hworks⟩
  · rintro e t ⟨he, huser, hlater, hsame⟩
    exact ⟨hlater, .inl ⟨he, huser, hsame⟩⟩

theorem wp_onIoError_errno {again : IoM Unit} {e : ℕ} {t : SfsFs × SfsUio}
    {Q : Unit → SfsFs × SfsUio → Prop} {E : Fail → SfsFs × SfsUio → Prop} (he : e ≠ EINVAL) :
    wp (onIoError again (.errno e)) Q E t ↔
      (e = EIO → wp again Q E t) ∧ (e ≠ EIO → E (.errno e) t) := by
  rw [onIoError, if_neg he, wp_ite, wp_throw]

/-- However often it is tried, a read hands over the sector or nothing. -/
theorem rwblockRetry_read (hu : u.AtSector w b) (hrw : u.uioRw = .read) (tries : ℕ) :
    ∀ s, wp (rwblockRetry w tries)
      (fun _ t => Later s t.1 ∧ t.2 = u.gave (s.disk b).toList)
      (fun e t => (e = .errno EIO ∨ e = .errno EFAULT) ∧ Later s t.1 ∧ t.2 = u) (s, u) := by
  induction tries with
  | zero =>
    intro s
    rw [rwblockRetry, wp_tryCatch]
    refine wp_mono (fun _ _ h => h) ?_ (devopIo_read hu hrw)
    rintro _ t ⟨rfl | rfl, hlater, hsame⟩
    · rw [wp_onIoError_errno (by decide)]
      exact ⟨fun _ => ⟨.inl rfl, hlater, hsame⟩, fun h => absurd rfl h⟩
    · rw [wp_onIoError_errno (by decide)]
      exact ⟨fun h => absurd h (by decide), fun _ => ⟨.inr rfl, hlater, hsame⟩⟩
  | succ tries ih =>
    intro s
    rw [rwblockRetry, wp_tryCatch]
    refine wp_mono (fun _ _ h => h) ?_ (devopIo_read hu hrw)
    rintro _ ⟨s₁, u₁⟩ ⟨rfl | rfl, ⟨tick, rfl⟩, rfl⟩
    · rw [wp_onIoError_errno (by decide)]
      refine ⟨fun _ => wp_mono ?_ ?_ (ih _), fun h => absurd rfl h⟩
      · rintro _ t ⟨hlater, hmoved⟩
        exact ⟨.trans ⟨_, rfl⟩ hlater, hmoved⟩
      · rintro e t ⟨he, hlater, hsame⟩
        exact ⟨he, .trans ⟨_, rfl⟩ hlater, hsame⟩
    · rw [wp_onIoError_errno (by decide)]
      exact ⟨fun h => absurd h (by decide), fun _ => ⟨.inr rfl, ⟨_, rfl⟩, rfl⟩⟩

/-- Once its bytes are taken, a write has nothing to do any more. -/
theorem rwblockRetry_taken (hu : u.AtSector w b) (tries : ℕ) :
    rwblockRetry w tries (s, u.took 512) = .ok () (s, u.took 512) := by
  have hlt := w.dBlocks.toNat_lt
  have hb := hu.inside
  have hdone : devopIo w (s, u.took 512) = .ok () (s, u.took 512) := by
    have hoffset : (u.took 512).uioOffset = (b + 1) * 512 := by
      rw [SfsUio.took, hu.offset, Nat.add_mul, Nat.one_mul]
    have hresid : (u.took 512).uioResid = 0 := by
      rw [SfsUio.took, hu.resid]
    have hsector : (b + 1) * 512 / 512 % 2 ^ 32 = b + 1 := by omega
    have hsum : ¬ w.dBlocks.toNat < (b + 1 + 0) % 2 ^ 32 := by omega
    unfold devopIo
    rw [bind_ok get_ok]
    simp only [hoffset, hresid, hsector, show 0 / 512 % 2 ^ 32 = 0 from rfl, hsum, if_false,
      Nat.mul_mod_left, Nat.zero_mod, ne_eq, not_true_eq_false, or_self]
    rfl
  cases tries with
  | zero => rw [rwblockRetry, tryCatch_ok hdone]
  | succ tries => rw [rwblockRetry, tryCatch_ok hdone]

/-- A write comes to its end as soon as its bytes are taken; whether the sector holds them is decided
by the first attempt. -/
theorem sfsRwblock_write (hu : u.AtSector w b) (hrw : u.uioRw = .write) :
    wp (sfsRwblock w)
      (fun _ t => t.2 = u.took 512 ∧
        ((∃ tick, t.1 = { s with disk := update s.disk b u.sector, tick := tick }) ∧
            (u.user = false → w.writeFails s.tick = false) ∨
          Later s t.1 ∧ (∃ tick, w.writeFails tick = true) ∧
            (u.user = false → w.writeFails s.tick = true)))
      (fun e t => e = .errno EFAULT ∧ u.user = true ∧ Later s t.1 ∧ t.2 = u) (s, u) := by
  rw [sfsRwblock, rwblockRetry, wp_tryCatch]
  refine wp_mono ?_ ?_ (devopIo_write hu hrw)
  · rintro _ t ⟨hdisk, hmoved, hworks⟩
    exact ⟨hmoved, .inl ⟨hdisk, hworks⟩⟩
  · rintro _ ⟨s₁, u₁⟩ ⟨hlater, ⟨rfl, huser, hsame⟩ | ⟨rfl, hfails, rfl, hkernel⟩⟩
    · rw [wp_onIoError_errno (by decide)]
      exact ⟨fun h => absurd h (by decide), fun _ => ⟨rfl, huser, hlater, hsame⟩⟩
    · rw [wp_onIoError_errno (by decide)]
      refine ⟨fun _ => ?_, fun h => absurd rfl h⟩
      rw [wp_of_ok (rwblockRetry_taken hu 9)]
      exact ⟨rfl, .inr ⟨hlater, hfails, hkernel⟩⟩

/-! ## One block -/

variable {block : UInt32}

theorem sfsUio_atSector (h : block < w.dBlocks) (rw : UioRw) (bytes : List UInt8) :
    (sfsUio block rw bytes).AtSector w block.toNat :=
  ⟨rfl, rfl, Nat.le_refl _, UInt32.lt_iff_toNat_lt.mp h⟩

theorem sfsReadblock_spec (h : block < w.dBlocks) :
    wp (sfsReadblock w block) (fun data s' => data = s.disk block.toNat ∧ Later s s')
      (fun e s' => (∃ n, e = .errno n) ∧ Later s s') s := by
  have hu := sfsUio_atSector h .read []
  rw [sfsReadblock, wp_bind, wp_withUio]
  refine wp_mono ?_ ?_ (rwblockRetry_read hu rfl 10 s)
  · rintro _ t ⟨hlater, hmoved⟩
    rw [wp_pure, hmoved]
    exact ⟨Block.ofList_toList _, hlater⟩
  · rintro e t ⟨he, hlater, -⟩
    exact ⟨he.elim (fun h => ⟨_, h⟩) (fun h => ⟨_, h⟩), hlater⟩

/-- `sfs_writeblock` never fails. What decides whether the block holds the data is the first answer
of the disk, and nobody is told. -/
theorem sfsWriteblock_ok (h : block < w.dBlocks) (data : Block) :
    ∃ tick, sfsWriteblock w block data s = .ok () { s with
      disk := if w.writeFails s.tick then s.disk else update s.disk block.toNat data
      tick := tick } := by
  have hu := sfsUio_atSector h .write data.toList
  have hsector : (sfsUio block .write data.toList).sector = data := by
    rw [SfsUio.sector, sfsUio, Block.take_toList, Block.ofList_toList]
  have hspec : wp (sfsWriteblock w block data)
      (fun _ s' => ∃ tick, s' = { s with
        disk := if w.writeFails s.tick then s.disk else update s.disk block.toNat data
        tick := tick }) (fun _ _ => False) s := by
    rw [sfsWriteblock, wp_bind, wp_withUio]
    refine wp_mono ?_ ?_ (sfsRwblock_write hu rfl)
    · rintro _ t ⟨-, ⟨⟨tick, hdisk⟩, hworks⟩ | ⟨⟨tick, hlater⟩, -, hfails⟩⟩
      · rw [wp_pure, hdisk, hsector, hworks rfl]
        exact ⟨tick, rfl⟩
      · rw [wp_pure, hlater, hfails rfl]
        exact ⟨tick, rfl⟩
    · rintro e t ⟨-, huser, -⟩
      exact absurd huser (by simp [sfsUio])
  cases hrun : sfsWriteblock w block data s with
  | ok a s' =>
    obtain ⟨tick, rfl⟩ := (wp_of_ok hrun).mp hspec
    exact ⟨tick, rfl⟩
  | error e s' => exact ((wp_of_error hrun).mp hspec).elim

/-- The disk writes what it is told to. -/
def World.Writes (w : World) : Prop := ∀ t, w.writeFails t = false

theorem sfsWriteblock_spec (hw : w.Writes) (h : block < w.dBlocks) (data : Block) :
    ∃ tick, sfsWriteblock w block data s =
      .ok () { s with disk := update s.disk block.toNat data, tick := tick } := by
  obtain ⟨tick, hrun⟩ := sfsWriteblock_ok h data
  rw [hw s.tick] at hrun
  exact ⟨tick, hrun⟩

end UnionCollegeCode.OS161.Sfs
