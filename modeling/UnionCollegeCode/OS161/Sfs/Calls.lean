import UnionCollegeCode.OS161.Sfs.Files
import UnionCollegeCode.OS161.Sfs.Sync
import UnionCollegeCode.OS161.Sfs.Vnops

/-!
# Every call does what it may

A call goes by the table of the vnode's kind, `sfs_dirops` or `sfs_fileops`. Whichever it is, the volume
stays in good order, and the directory and the files are as the call leaves them.
-/

set_option autoImplicit false

namespace UnionCollegeCode.OS161.Sfs

open Function (update)
open Lib.EState
open SfsFs

def EISDIR : ℕ := 18

/-- An entry of `sfs_dirops` that `sfs_fileops` does not have. -/
def onDir {α : Type} (v : UInt32) (m : SfsM α) : SfsM α := do
  let sv ← vnode v
  if sv.svI.sfiType = sfsTypeDir then
    m
  else
    throw (.errno ENOTDIR)

/-- An entry of `sfs_fileops` that `sfs_dirops` does not have. -/
def onFile {α : Type} (v : UInt32) (m : SfsM α) : SfsM α := do
  let sv ← vnode v
  if sv.svI.sfiType = sfsTypeDir then
    throw (.errno EISDIR)
  else
    m

namespace Call

def exec (w : World) : Call → SfsM Reply
  | getroot => do return .vnode (← sfsGetroot w)
  | incref v => do
    vnodeIncref v
    return .done
  | decref v => do
    vnodeDecref w v
    return .done
  | lookup v path => onDir v do return .vnode (← sfsLookup w v path)
  | lookparent v path buflen => onDir v do return .vnode (← sfsLookparent v path buflen).1
  | creat v name excl => onDir v do return .vnode (← sfsCreat w v name excl)
  | link v name file => onDir v do
    sfsLink w v name file
    return .done
  | remove v name => onDir v do
    sfsRemove w v name
    return .done
  | rename v n₁ v' n₂ => onDir v do
    sfsRename w v n₁ v' n₂
    return .done
  | read v u => onFile v do return .moved (← withUio u (sfsRead w v))
  | write v u => onFile v do return .moved (← withUio u (sfsWrite w v))
  | truncate v len => onFile v do
    sfsTruncate w v len
    return .done
  | fsync v => do
    sfsFsync w v
    return .done
  | sync => do
    sfsSync w
    return .done

end Call

variable {w : World} {s s' s₁ : SfsFs} {a v : UInt32} {sv : SfsVnode} {c : Call} {r : Reply}
  {held : Held} {names : List UInt8 → UInt32 → Prop} {want : Held} {e : Fail}
  {leaves : UInt32 → Contents → Contents → Prop}

def SfsFs.contents (s : SfsFs) (ino : UInt32) : Contents := ⟨s.fileSize ino, s.byteAt ino⟩

/-- What its callers see of a volume. -/
def SfsFs.files (s : SfsFs) : Files := ⟨s.Named, s.contents⟩

theorem SameData.contents (h : SameData s s' a) : s'.contents a = s.contents a :=
  Contents.ext h.size h.bytes

/-- The volume after a call. -/
structure Answered (w : World) (s : SfsFs) (leaves : UInt32 → Contents → Contents → Prop)
    (names : List UInt8 → UInt32 → Prop) (want : Held) (s' : SfsFs) : Prop where
  wf : Wf w s'
  named : ∀ n a, s'.Named n a ↔ names n a
  refs : ∀ a, s'.refs a = want a ∨ want a = 0 ∧ s'.refs a = 1 ∧ Lost names a
  file : ∀ a, s.Live a → a ≠ sfsRootdirIno → (0 < want a ∨ ∃ n, names n a) →
    leaves a (s.contents a) (s'.contents a)
  image : Image s → Image s'

/-- What can be said when a call comes back. -/
structure Done (w : World) (s : SfsFs) (c : Call) (r : Reply) (s' : SfsFs) : Prop where
  answered : Answered w s c.Leaves (c.names r s.Named) (c.after r s.refs) s'
  reply : c.Answers r s.files fun v => ¬ s.Live v
  fresh : ∀ v, r = .vnode v → v ≠ sfsRootdirIno → ¬ s.Live v → s'.contents v = .empty

/-- What can be said when it does not, or comes back with an error. -/
def Undone (w : World) (s : SfsFs) (c : Call) (e : Fail) (s' : SfsFs) : Prop :=
  (e = cannotRecover ∧ ∃ v n₁ v' n₂, c = .rename v n₁ v' n₂) ∨
    (∃ n, e = .errno n) ∧ Answered w s c.LeavesPart s.Named s.refs s'

theorem Call.leavesPart_refl (c : Call) (a : UInt32) (f : Contents) : c.LeavesPart a f f := by
  cases c with
  | write v u => exact .inl rfl
  | truncate v len => exact .inl rfl
  | _ => rfl

theorem Served.answered (h : Served w s names want s') (hleaves : ∀ a f, leaves a f f) :
    Answered w s leaves names want s' := by
  refine ⟨h.wf, h.named, h.refs, fun a ha hne hkeep => ?_, fun himage => himage.congr h.fixed⟩
  rw [(h.same a ha hne hkeep).contents]
  exact hleaves a _

theorem Failed.undone (h : Failed w s e s') (c : Call) : Undone w s c e s' :=
  .inr ⟨h.1, h.2.answered c.leavesPart_refl⟩

/-- A call that has found or made no vnode. -/
theorem Answered.done (h : Answered w s c.Leaves (c.names r s.Named) (c.after r s.refs) s')
    (hreply : c.Answers r s.files fun v => ¬ s.Live v) (hr : ∀ v, r = .vnode v → s.Live v) :
    Done w s c r s' := ⟨h, hreply, fun v hv _ hnot => absurd (hr v hv) hnot⟩

theorem live_of_named {n : List UInt8} (h : s.Named n a) : s.Live a := h.elim fun _ hi => live_of_names hi.1

/-! ## Calls by the kind of vnode -/

section Dispatch

variable {α : Type} {m : SfsM α} {Q : α → SfsFs → Prop} {E : Fail → SfsFs → Prop} (h : Wf w s)
  (hv : 0 < s.refs v)

include h hv

theorem wp_onDir (hdir : v = sfsRootdirIno → wp m Q E s) (hfile : E (.errno ENOTDIR) s) :
    wp (onDir v m) Q E s := by
  obtain ⟨sv, hsv⟩ := loaded_of_refs hv
  rw [onDir, wp_bind, wp_of_ok (vnode_ok hsv), wp_ite]
  constructor
  · intro htype
    refine hdir (by_contra fun hne => ?_)
    have hfile := h.file v (live_of_vnodeOf hsv) hne
    rw [inodeOf_loaded hsv, htype] at hfile
    cases hfile
  · exact fun _ => hfile

theorem wp_onFile (hfile : v ≠ sfsRootdirIno → wp m Q E s) (hdir : E (.errno EISDIR) s) :
    wp (onFile v m) Q E s := by
  obtain ⟨sv, hsv⟩ := loaded_of_refs hv
  rw [onFile, wp_bind, wp_of_ok (vnode_ok hsv), wp_ite]
  constructor
  · exact fun _ => hdir
  · intro htype
    refine hfile ?_
    rintro rfl
    refine htype ?_
    rw [← inodeOf_loaded hsv]
    exact h.rootType

end Dispatch

/-! ## Calls on files -/

theorem refs_eq_of_faces (h : s'.vnodes.map SfsVnode.face = s.vnodes.map SfsVnode.face) :
    s'.refs = s.refs := funext (refs_of_faces h)

/-- The directory stays. -/
theorem Intact.answered {keep : UInt32 → Prop} (h : Wf w s) (hintact : Intact w s keep s')
    (hrefs : s'.refs = s.refs) (himage : Image s → Image s')
    (hleaves : ∀ a, s.Live a → leaves a (s.contents a) (s'.contents a)) :
    Answered w s leaves s.Named s.refs s' :=
  ⟨⟨hintact.ordered, hintact.linked h.linked⟩, hintact.root.named, fun a => .inl (congrFun hrefs a),
    fun a ha _ _ => hleaves a ha, himage⟩

theorem Untouched.answered {keep : UInt32 → Prop} (h : Wf w s) (hun : Untouched w s keep s')
    (hrefs : s'.refs = s.refs) (hleaves : ∀ a, s.Live a → leaves a (s.contents a) (s'.contents a)) :
    Answered w s leaves s.Named s.refs s' :=
  hun.toIntact.answered h hrefs (fun himage => himage.congr hun.fixed) hleaves

/-- Nothing has changed. -/
theorem Intact.leaves_all (hintact : Intact w s (fun _ => True) s') (hleaves : ∀ a f, leaves a f f) (a : UInt32)
    (ha : s.Live a) : leaves a (s.contents a) (s'.contents a) := by
  rw [(hintact.same a ha trivial).1.contents]
  exact hleaves a _

/-- One file has changed. -/
theorem Intact.leaves_one {f : Contents → Contents} (hintact : Intact w s (· ≠ v) s')
    (hself : s'.contents v = f (s.contents v)) (a : UInt32) (ha : s.Live a) :
    s'.contents a = if a = v then f (s.contents a) else s.contents a := by
  split
  · rename_i heq
    rw [heq, hself]
  · rename_i hne
    exact (hintact.same a ha hne).1.contents

theorem Ordered.ready (h : Ordered w s) {u : SfsUio} (hsv : s.vnodeOf v = some sv)
    (hiov : u.iovLen = u.uioResid) (hfull : u.uioRw = .write → u.bytes.length = u.iovLen) :
    Ready w s.Live v u.uioResid (s, u) :=
  ⟨h.sound, ⟨sv, hsv⟩, h.small, ⟨Nat.le_of_eq hiov.symm, Nat.le_refl _⟩, hfull⟩

section Transfer

variable {u : SfsUio} {n : ℕ} {t : SfsFs × SfsUio}

theorem Did.untouched (h : Wf w s) (hrw : u.uioRw = .read) (hdid : Did w s.Live v n (s, u) t) :
    Untouched w s (fun _ => True) t.1 := by
  have hbytes : ∀ a, s.Live a → t.1.byteAt a = s.byteAt a := by
    intro a ha
    have hmoved := hdid.bytes a ha
    rw [if_neg] at hmoved
    · exact hmoved
    · rintro ⟨-, hwrite⟩
      rw [show u.uioRw = UioRw.write from hwrite] at hrw
      cases hrw
  exact ⟨h.toOrdered.intact_of hdid.sound trivial (fun a ha _ => hbytes a ha) (fun a ha _ => hdid.attrs a ha)
    (fun a ha => congrArg (fun a => a.2.1) (hdid.attrs a ha))
    (fun a ha => congrArg (fun a => a.2.2) (hdid.attrs a ha)) hdid.table hdid.fixed.blocks, hdid.fixed⟩

theorem Put.untouched (h : Ordered w s) (hne : v ≠ sfsRootdirIno) (hput : Put w s.Live v n (s, u) t) :
    Untouched w s (· ≠ v) t.1 := by
  refine ⟨h.intact_of hput.sound hne.symm (fun a ha hkeep => ?_) hput.others
    (forall_of_others (fun a ha hkeep => congrArg (fun a => a.2.1) (hput.others a ha hkeep)) hput.type)
    (forall_of_others (fun a ha hkeep => congrArg (fun a => a.2.2) (hput.others a ha hkeep)) hput.linkcount)
    hput.table hput.fixed.blocks, hput.fixed⟩
  rw [hput.bytes a ha, if_neg hkeep]

theorem Put.contents (hput : Put w s.Live v n (s, u) t) (hlive : s.Live v) (hn : n ≤ u.bytes.length) :
    t.1.contents v = (s.contents v).write u.uioOffset (u.bytes.take n) := by
  have hlen : (u.bytes.take n).length = n := List.length_take_of_le hn
  have hnil : u.bytes.take n ≠ [] ↔ n ≠ 0 := by
    rw [← List.length_pos_iff, hlen, Nat.pos_iff_ne_zero]
  refine Contents.ext ?_ ?_
  · show t.1.fileSize v = if _ then _ else _
    rw [hput.size, hlen]
    simp only [hnil]
    rfl
  · show t.1.byteAt v = _
    rw [hput.bytes v hlive, if_pos rfl]
    rfl

end Transfer

theorem Shortened.clear {cut : ℕ → Prop} [DecidablePred cut] (h : Shortened s.Live v cut s s') (hlive : s.Live v)
    (hsize : (s'.inodeOf v).sfiSize = (s.inodeOf v).sfiSize) : s'.contents v = (s.contents v).clear cut := by
  refine Contents.ext (congrArg UInt32.toNat hsize) (funext fun p => ?_)
  show s'.byteAt v p = if cut (p / 512) then 0 else s.byteAt v p
  split
  · rename_i hcut
    exact h.zero p hcut
  · rename_i hcut
    exact h.kept v hlive p (.inr hcut)

theorem Shortened.truncate {len : ℤ} (h : Shortened s.Live v (CutBlock (blocklenOf len)) s s') (hlive : s.Live v)
    (hsize : (s'.inodeOf v).sfiSize = .ofInt len) : s'.contents v = (s.contents v).truncate len := by
  refine Contents.ext (congrArg UInt32.toNat hsize) (funext fun p => ?_)
  show s'.byteAt v p = if CutBlock (blocklenOf len) (p / 512) then 0 else s.byteAt v p
  split
  · rename_i hcut
    exact h.zero p hcut
  · rename_i hcut
    exact h.kept v hlive p (.inr hcut)

/-! ## Every call -/

theorem Call.exec_spec (hw : w.Writes) (h : Wf w s) (himage : Image s) (hp : c.Permitted s.refs) :
    wp (c.exec w) (fun r s' => Done w s c r s') (fun e s' => Undone w s c e s') s := by
  have hord := h.toOrdered
  have hundone : ∀ {e s'}, Denied w s e s' → Undone w s c e s' := fun hdenied => (hdenied.failed h).undone c
  cases c with
  | getroot =>
    rw [exec, wp_bind]
    refine wp_mono ?_ (fun e s' hdenied => hundone hdenied) (sfsGetroot_spec hord)
    rintro _ s' ⟨rfl, hloaded⟩
    refine Answered.done (((h.start.loaded hloaded).served fun _ => rfl).answered fun _ _ => rfl) rfl ?_
    rintro v hv
    cases hv
    exact live_root
  | incref v =>
    obtain ⟨sv, hsv⟩ := loaded_of_refs hp
    rw [exec, wp_bind]
    refine wp_mono ?_ (fun e s' hfailed => hfailed.undone _) (vnodeIncref_spec h hsv)
    intro _ s' hserved
    exact Answered.done (hserved.answered fun _ _ => rfl) trivial nofun
  | decref v =>
    rw [exec, wp_bind]
    refine wp_mono ?_ (fun _ _ h => h.elim) (h.start.decref_spec hw hp)
    intro _ s' hserved
    exact Answered.done (hserved.answered fun _ _ => rfl) trivial nofun
  | lookup v path =>
    refine wp_onDir h hp ?_ ((h.failed_now _).undone _)
    rintro rfl
    obtain ⟨sv, hsv⟩ := loaded_of_refs hp
    rw [wp_bind]
    refine wp_mono ?_ (fun e s' hfailed => hfailed.undone _) (sfsLookup_spec hw h hsv path)
    rintro ino s' ⟨hnamed, hserved⟩
    refine Answered.done (hserved.answered fun _ _ => rfl) hnamed ?_
    rintro v hv
    cases hv
    exact live_of_named hnamed
  | lookparent v path buflen =>
    refine wp_onDir h hp ?_ ((h.failed_now _).undone _)
    rintro rfl
    obtain ⟨sv, hsv⟩ := loaded_of_refs hp
    rw [wp_bind]
    refine wp_mono ?_ (fun e s' hfailed => hfailed.undone _) (sfsLookparent_spec h hsv path buflen)
    rintro _ s' ⟨rfl, hfits, hserved⟩
    refine Answered.done (hserved.answered fun _ _ => rfl) ⟨rfl, hfits⟩ ?_
    rintro v hv
    cases hv
    exact live_root
  | creat v name excl =>
    refine wp_onDir h hp ?_ ((h.failed_now _).undone _)
    rintro rfl
    obtain ⟨sv, hsv⟩ := loaded_of_refs hp
    rw [wp_bind]
    refine wp_mono ?_ (fun e s' hfailed => hfailed.undone _) (sfsCreat_spec hw h hsv name excl)
    rintro ino s' hcreated
    cases hcreated with
    | opened hexcl hnamed hserved =>
      have hserved' : Served w s ((creat sfsRootdirIno name excl).names (.vnode ino) s.Named) _ s' :=
        hserved.congr fun n a => by
          refine (or_iff_right_of_imp ?_).symm
          rintro ⟨rfl, rfl⟩
          exact hnamed
      refine Answered.done (hserved'.answered fun _ _ => rfl) (.inl ⟨hexcl, hnamed⟩) ?_
      rintro v hv
      cases hv
      exact live_of_named hnamed
    | made hnew hshort habsent hempty hzero hserved =>
      rw [← Nat.zero_add 1, ← refs_of_not_live hnew] at hserved
      refine ⟨hserved.answered fun _ _ => rfl, .inr ⟨hnew, hshort, habsent⟩, ?_⟩
      rintro v hv - -
      cases hv
      exact Contents.ext hempty (funext hzero)
  | link v name file =>
    obtain ⟨hv, hfile⟩ := hp
    refine wp_onDir h hv ?_ ((h.failed_now _).undone _)
    rintro rfl
    obtain ⟨sv, hsv⟩ := loaded_of_refs hv
    rw [wp_bind]
    refine wp_mono ?_ (fun e s' hfailed => hfailed.undone _) (sfsLink_spec hw h hsv name hfile)
    rintro _ s' ⟨hroot, hshort, habsent, hserved⟩
    exact Answered.done (hserved.answered fun _ _ => rfl) ⟨hroot, hshort, habsent⟩ nofun
  | remove v name =>
    refine wp_onDir h hp ?_ ((h.failed_now _).undone _)
    rintro rfl
    obtain ⟨sv, hsv⟩ := loaded_of_refs hp
    rw [wp_bind]
    refine wp_mono ?_ (fun e s' hfailed => hfailed.undone _) (sfsRemove_spec hw h hsv name)
    rintro _ s' ⟨hnamed, hserved⟩
    exact Answered.done (hserved.answered fun _ _ => rfl) hnamed nofun
  | rename v n₁ v' n₂ =>
    obtain ⟨hv, rfl, -⟩ := hp
    refine wp_onDir h hv ?_ ((h.failed_now _).undone _)
    rintro rfl
    obtain ⟨sv, hsv⟩ := loaded_of_refs hv
    rw [wp_bind]
    refine wp_mono ?_ ?_ (sfsRename_spec hw h hsv n₁ n₂)
    · rintro _ s' hrenamed
      obtain ⟨g, hnamed, hserved⟩ := hrenamed.old
      have hserved' : Served w s ((rename sfsRootdirIno n₁ sfsRootdirIno n₂).names .done s.Named) _ s' :=
        hserved.congr fun n a => by
          refine and_congr_right fun _ => or_congr_left (and_congr_right fun _ => ?_)
          constructor
          · rintro rfl
            exact hnamed
          · rintro ⟨j, hj, hname⟩
            obtain ⟨i, hi, hname'⟩ := hnamed
            obtain rfl := hord.distinct i j g a hi hj (hname'.trans hname.symm)
            exact hj.holds.symm.trans hi.holds
      exact Answered.done (hserved'.answered fun _ _ => rfl) ⟨⟨g, hnamed⟩, hrenamed.short, hrenamed.absent⟩ nofun
    · rintro e s' (rfl | hfailed)
      · exact .inl ⟨rfl, _, _, _, _, rfl⟩
      · exact hfailed.undone _
  | read v u =>
    obtain ⟨hv, hrw, hiov⟩ := hp
    refine wp_onFile h hv (fun hne => ?_) ((h.failed_now _).undone _)
    obtain ⟨sv, hsv⟩ := loaded_of_refs hv
    have hready : Ready w s.Live v u.uioResid (s, u) := hord.ready hsv hiov fun hwrite => by
      rw [hrw] at hwrite
      cases hwrite
    have hanswered : ∀ {n t} {leaves : UInt32 → Contents → Contents → Prop}, (∀ a f, leaves a f f) →
        Did w s.Live v n (s, u) t → Answered w s leaves s.Named s.refs t.1 := by
      intro n t leaves hleaves hdid
      have hun := hdid.untouched h hrw
      exact hun.answered h (refs_eq_of_faces hdid.table) (hun.leaves_all hleaves)
    rw [wp_bind, wp_withUio]
    refine wp_mono ?_ ?_ (sfsRead_spec hw hready hrw)
    · intro _ t hdid
      refine Answered.done (hanswered (fun _ _ => rfl) hdid) ⟨hne, ?_⟩ nofun
      rw [hdid.uio, SfsUio.moved, hrw]
      rfl
    · rintro e t ⟨he, m, -, hdid⟩
      exact .inr ⟨he, hanswered (leavesPart_refl _) hdid⟩
  | write v u =>
    obtain ⟨hv, hrw, hiov, hfull⟩ := hp
    refine wp_onFile h hv (fun hne => ?_) ((h.failed_now _).undone _)
    obtain ⟨sv, hsv⟩ := loaded_of_refs hv
    have hlive := live_of_vnodeOf hsv
    have hlen : u.bytes.length = u.uioResid := hfull.trans hiov
    rw [wp_bind, wp_withUio]
    refine wp_mono ?_ ?_ (sfsWrite_spec hw (hord.ready hsv hiov fun _ => hfull) hrw)
    · intro _ t hput
      have hun := hput.untouched hord hne
      have hself := hput.contents hlive (Nat.le_of_eq hlen.symm)
      rw [List.take_of_length_le (Nat.le_of_eq hlen)] at hself
      exact Answered.done (hun.answered h (refs_eq_of_faces hput.table) (hun.leaves_one (f := (Contents.write · u.uioOffset u.bytes)) hself))
        ⟨hne, hput.uio, hput.inside⟩ nofun
    · rintro e t ⟨he, m, hm, hput⟩
      have hun := hput.untouched hord hne
      have hself := hput.contents hlive (hm.trans (Nat.le_of_eq hlen.symm))
      refine .inr ⟨he, hun.answered h (refs_eq_of_faces hput.table) fun a ha => ?_⟩
      have hone := hun.leaves_one (f := (Contents.write · u.uioOffset (u.bytes.take m))) hself a ha
      by_cases heq : a = v
      · rw [if_pos heq] at hone
        exact .inr ⟨heq, m, hm, hone⟩
      · rw [if_neg heq] at hone
        exact .inl hone
  | truncate v len =>
    refine wp_onFile h hp (fun hne => ?_) ((h.failed_now _).undone _)
    obtain ⟨sv, hsv⟩ := loaded_of_refs hp
    have hlive := live_of_vnodeOf hsv
    rw [sfsTruncate, wp_bind]
    refine wp_mono ?_ ?_ (sfsItrunc_spec hw hord.sound hsv len)
    · rintro _ s' ⟨hsound, hshort, hsize, -⟩
      have hun := hshort.untouched hord hsound hne
      exact Answered.done
        (hun.answered h (refs_eq_of_faces hshort.table)
          (hun.leaves_one (f := (Contents.truncate · len)) (hshort.truncate hlive hsize))) hne nofun
    · rintro e s' ⟨he, hsound, hshort, hsize⟩
      have hun := hshort.untouched hord hsound hne
      refine .inr ⟨he, hun.answered h (refs_eq_of_faces hshort.table) fun a ha => ?_⟩
      have hone := hun.leaves_one (f := (Contents.clear · (DirectPast (blocklenOf len)))) (hshort.clear hlive hsize) a ha
      by_cases heq : a = v
      · rw [if_pos heq] at hone
        exact .inr ⟨heq, hone⟩
      · rw [if_neg heq] at hone
        exact .inl hone
  | fsync v =>
    obtain ⟨sv, hsv⟩ := loaded_of_refs hp
    rw [exec, sfsFsync, wp_bind]
    refine wp_mono ?_ (fun _ _ h => h.elim) (sfsSyncInode_spec hw hord hsv)
    intro _ s' hback
    have hun := hback.untouched
    exact Answered.done (hun.answered h (refs_eq_of_faces hback.table) (hun.leaves_all fun _ _ => rfl)) trivial nofun
  | sync =>
    rw [exec, wp_bind]
    refine wp_mono ?_ (fun _ _ h => h.elim) (sfsSync_spec hw hord himage)
    rintro _ s' ⟨hintact, htable, hclean⟩
    exact Answered.done (hintact.answered h (refs_eq_of_faces htable) (fun _ => hclean.image)
      (hintact.leaves_all fun _ _ => rfl)) trivial nofun

end UnionCollegeCode.OS161.Sfs
