import UnionCollegeCode.OS161.Sfs.Loading

/-!
# How far an operation on the directory has got

Between the steps of an operation a link may be counted that has no name yet, or the other way about.
At the end nothing is owed.
-/

set_option autoImplicit false

namespace UnionCollegeCode.OS161.Sfs

open Function (update)
open Lib.EState
open SfsFs

variable {w : World} {s s' s₁ s₂ : SfsFs} {ino a : UInt32} {sv : SfsVnode} {i : ℕ} {name : CString}
  {owed : UInt32 → ℤ} {names : List UInt8 → UInt32 → Prop} {want : UInt32 → ℕ} {e : Fail}

/-! ## Link counts -/

theorem byteAt_setLinks (hsv : s.vnodeOf ino = some sv) (f : UInt16 → UInt16) (a : UInt32) :
    (s.setInode ino fun d => { d with sfiLinkcount := f d.sfiLinkcount }).byteAt a = s.byteAt a := by
  have hblocks : ∀ d : SfsDinode,
      ({ d with sfiLinkcount := f d.sfiLinkcount } : SfsDinode).sfiDirect = d.sfiDirect ∧
      ({ d with sfiLinkcount := f d.sfiLinkcount } : SfsDinode).sfiIndirect = d.sfiIndirect :=
    fun _ => ⟨rfl, rfl⟩
  exact byteAt_setAttrs hsv hblocks a

theorem sameRoot_setLinks (hsv : s.vnodeOf ino = some sv) (hne : ino ≠ sfsRootdirIno)
    (f : UInt16 → UInt16) :
    SameRoot s (s.setInode ino fun d => { d with sfiLinkcount := f d.sfiLinkcount }) := by
  refine ⟨byteAt_setLinks hsv f _, ?_⟩
  rw [inodeOf_setInode hsv, if_neg hne.symm]

/-- Only the link count of `ino` is another one. -/
structure Relinked (w : World) (s : SfsFs) (owed : UInt32 → ℤ) (s' : SfsFs) : Prop where
  ordered : Ordered w s'
  linked : Linked s' owed
  root : SameRoot s s'
  live : s'.Live = s.Live
  table : s'.vnodes.map SfsVnode.face = s.vnodes.map SfsVnode.face
  same : ∀ a, s.Live a → SameData s s' a
  fixed : SameMeta s s'

theorem Ordered.relink (h : Ordered w s) (hlink : Linked s owed) (hsv : s.vnodeOf ino = some sv)
    (hne : ino ≠ sfsRootdirIno) {f : UInt16 → UInt16} {k : ℤ}
    (hf : ((f sv.svI.sfiLinkcount).toNat : ℤ) = sv.svI.sfiLinkcount.toNat + k)
    (hs' : s' = s.setInode ino fun d => { d with sfiLinkcount := f d.sfiLinkcount }) :
    Relinked w s (update owed ino (owed ino + k)) s' := by
  have hblocks : ∀ d : SfsDinode,
      ({ d with sfiLinkcount := f d.sfiLinkcount } : SfsDinode).sfiDirect = d.sfiDirect ∧
      ({ d with sfiLinkcount := f d.sfiLinkcount } : SfsDinode).sfiIndirect = d.sfiIndirect :=
    fun _ => ⟨rfl, rfl⟩
  have hinode : ∀ a, s'.inodeOf a = if a = ino then
      { s.inodeOf ino with sfiLinkcount := f (s.inodeOf ino).sfiLinkcount } else s.inodeOf a := by
    intro a
    rw [hs']
    exact inodeOf_setInode hsv _ a
  have hbytes : ∀ a, s'.byteAt a = s.byteAt a := fun a => hs' ▸ byteAt_setLinks hsv f a
  have htable : s'.vnodes.map SfsVnode.face = s.vnodes.map SfsVnode.face := by
    rw [hs']
    exact faces_setInode _
  have hroot : SameRoot s s' := hs' ▸ sameRoot_setLinks hsv hne f
  have hlives := hroot.live_eq htable
  have hsound : Sound w s.Live s' := by
    rw [hs']
    exact h.sound.setAttrs hsv hblocks
  refine ⟨?_, ?_, hroot, hlives, htable, fun a _ => ⟨?_, hbytes a⟩, hs' ▸ .setInode s ino _⟩
  · refine h.transport hsound hroot htable (hs' ▸ rfl) fun a _ => ?_
    rw [hinode]
    split
    · rename_i heq
      rw [heq]
    · rfl
  · intro a ha hroot'
    have hold := hlink a (hlives ▸ ha) hroot'
    rw [hroot.links, hinode]
    by_cases heq : a = ino
    · subst heq
      rw [if_pos rfl, Function.update_self]
      rw [inodeOf_loaded hsv] at hold ⊢
      rw [hf, hold]
      omega
    · rw [if_neg heq, Function.update_of_ne heq]
      exact hold
  · rw [fileSize, hinode]
    split
    · rename_i heq
      rw [heq, fileSize]
    · rw [fileSize]

/-- One link more. There is room in the count for it. -/
theorem Linked.count_succ (hlink : Linked s owed) (h : Ordered w s) (howed : owed ino ≤ 0)
    (hsv : s.vnodeOf ino = some sv) (hne : ino ≠ sfsRootdirIno) :
    ((sv.svI.sfiLinkcount + 1).toNat : ℤ) = sv.svI.sfiLinkcount.toNat + 1 := by
  have hcount := hlink ino (live_of_vnodeOf hsv) hne
  have hlt := links_lt h ino
  rw [inodeOf_loaded hsv] at hcount
  have hone : (1 : UInt16).toNat = 1 := rfl
  rw [UInt16.toNat_add, hone]
  omega

/-- One link less, if there is one. -/
theorem count_pred {c : UInt16} (hc : c ≠ 0) : ((c - 1).toNat : ℤ) = c.toNat + (-1) := by
  have hpos : 1 ≤ c.toNat := by
    refine Nat.one_le_iff_ne_zero.mpr fun hzero => hc ?_
    exact UInt16.toNat_inj.mp hzero
  have hone : (1 : UInt16).toNat = 1 := rfl
  have hle : (1 : UInt16) ≤ c := UInt16.le_iff_toNat_le.mpr hpos
  rw [UInt16.toNat_sub_of_le _ _ hle, hone]
  omega

/-- What is dirty already does not get dirtier. -/
theorem modifyVnode_of_dirty (hnodup : (s.vnodes.map SfsVnode.svIno).Nodup) (hdirty : s.Dirty ino)
    (f : SfsDinode → SfsDinode) :
    s.modifyVnode ino (fun sv => { sv with svI := f sv.svI }) = s.setInode ino f := by
  obtain ⟨sv, hsv, hd⟩ := hdirty
  have hsame : ∀ sv' ∈ s.vnodes, (if sv'.svIno = ino then { sv' with svI := f sv'.svI } else sv') =
      if sv'.svIno = ino then sv'.changed f else sv' := by
    intro sv' hsv'
    split
    · rename_i hino
      have hfind := vnodeOf_of_mem hnodup hsv'
      rw [hino, hsv] at hfind
      obtain rfl := Option.some.inj hfind
      rw [SfsVnode.changed, ← hd]
    · rfl
  rw [SfsFs.setInode, modifyVnode, modifyVnode, List.map_congr_left hsame]

/-! ## Stages -/

/-- So far the names are `names` and the references `want`. -/
structure Stage (w : World) (s : SfsFs) (owed : UInt32 → ℤ) (names : List UInt8 → UInt32 → Prop)
    (want : UInt32 → ℕ) (s' : SfsFs) : Prop where
  ordered : Ordered w s'
  linked : Linked s' owed
  named : ∀ n a, s'.Named n a ↔ names n a
  refs : s'.refs = want
  same : ∀ a, s.Live a → a ≠ sfsRootdirIno → SameData s s' a ∧ s'.Live a
  fixed : SameMeta s s'

/-- Nobody can get at a file without a name. -/
def Lost (names : List UInt8 → UInt32 → Prop) (a : UInt32) : Prop :=
  a ≠ sfsRootdirIno ∧ ∀ n, ¬ names n a

/-- The operation is over. A file without a name may have been left in memory, with one reference that
nobody has. -/
structure Served (w : World) (s : SfsFs) (names : List UInt8 → UInt32 → Prop) (want : UInt32 → ℕ)
    (s' : SfsFs) : Prop where
  wf : Wf w s'
  named : ∀ n a, s'.Named n a ↔ names n a
  refs : ∀ a, s'.refs a = want a ∨ want a = 0 ∧ s'.refs a = 1 ∧ Lost names a
  same : ∀ a, s.Live a → a ≠ sfsRootdirIno → (0 < want a ∨ ∃ n, names n a) → SameData s s' a
  fixed : SameMeta s s'

namespace Stage

theorem start (h : Ordered w s) (hlink : Linked s owed) : Stage w s owed s.Named s.refs s :=
  ⟨h, hlink, fun _ _ => .rfl, rfl, fun _ ha _ => ⟨⟨rfl, rfl⟩, ha⟩, .refl s⟩

theorem untouched (h : Stage w s owed names want s₁) (hun : Untouched w s₁ (fun _ => True) s₂) :
    Stage w s owed names s₂.refs s₂ := by
  refine ⟨hun.ordered, hun.linked h.linked, fun n a => (hun.root.named n a).trans (h.named n a), rfl,
    fun a ha hne => ?_, h.fixed.trans hun.fixed⟩
  obtain ⟨hsame, hlive⟩ := h.same a ha hne
  obtain ⟨hsame', hlive'⟩ := hun.same a hlive trivial
  exact ⟨hsame.trans hsame', hlive'⟩

theorem of_refs (h : Stage w s owed names want s') {want' : UInt32 → ℕ} (hrefs : s'.refs = want') :
    Stage w s owed names want' s' := ⟨h.ordered, h.linked, h.named, hrefs, h.same, h.fixed⟩

/-- A step that was refused. -/
theorem denied (h : Stage w s owed names want s₁) (hdenied : Denied w s₁ e s₂) :
    Stage w s owed names want s₂ := by
  have hkept := hdenied.2
  refine (h.untouched (hkept.untouched h.ordered)).of_refs ?_
  rw [← h.refs]
  exact funext (refs_of_faces hkept.same.table)

theorem loaded (h : Stage w s owed names want s₁) (hloaded : Loaded w s₁ ino s₂) :
    Stage w s owed names (update want ino (want ino + 1)) s₂ := by
  refine (h.untouched hloaded.untouched).of_refs ?_
  rw [hloaded.refs, h.refs]

theorem entered (h : Stage w s owed names want s₁) (hin : Entered w s₁ name ino i s₂)
    (hloaded : (s₁.vnodeOf ino).isSome) (hroot : ino ≠ sfsRootdirIno) :
    Stage w s (update owed ino (owed ino - 1)) (fun n a => n = name.1 ∧ a = ino ∨ names n a) want s₂ := by
  have hlive : s₁.Live ino := .inr (.inl hloaded)
  have hlives : s₂.Live = s₁.Live :=
    hin.set.live_eq hin.next (fun a ha => absurd ha (hin.free a)) fun _ => hloaded
  refine ⟨hin.ordered h.ordered hloaded hroot, hin.linked h.ordered h.linked hloaded, fun n a => ?_, ?_,
    fun a ha hne => ?_, h.fixed.trans hin.set.fixed⟩
  · rw [hin.named (h.ordered.sound.ne_noino hlive), h.named]
  · rw [← h.refs]
    exact funext (refs_of_faces hin.set.table)
  · obtain ⟨hsame, ha'⟩ := h.same a ha hne
    have hsize := congrArg (fun a => a.1.toNat) (hin.set.others a ha' hne)
    exact ⟨hsame.trans ⟨hsize, hin.set.bytes a ha' hne⟩, hlives ▸ ha'⟩

theorem removed (h : Stage w s owed names want s₁) (hout : Removed w s₁ i s₂) (hnames : s₁.Names i ino)
    (hname : (s₁.entry i).name = name.1) (hloaded : (s₁.vnodeOf ino).isSome) :
    Stage w s (update owed ino (owed ino + 1)) (fun n a => n ≠ name.1 ∧ names n a) want s₂ := by
  have hlives := hout.live_eq hnames hloaded
  refine ⟨hout.ordered h.ordered hnames hloaded, hout.linked h.ordered h.linked hnames hloaded,
    fun n a => ?_, ?_, fun a ha hne => ?_, h.fixed.trans hout.set.fixed⟩
  · rw [hout.named h.ordered hnames hname, h.named]
  · rw [← h.refs]
    exact funext (refs_of_faces hout.set.table)
  · obtain ⟨hsame, ha'⟩ := h.same a ha hne
    have hsize := congrArg (fun a => a.1.toNat) (hout.set.others a ha' hne)
    exact ⟨hsame.trans ⟨hsize, hout.set.bytes a ha' hne⟩, hlives ▸ ha'⟩

theorem relinked {owed' : UInt32 → ℤ} (h : Stage w s owed names want s₁) (hre : Relinked w s₁ owed' s₂) :
    Stage w s owed' names want s₂ := by
  refine ⟨hre.ordered, hre.linked, fun n a => (hre.root.named n a).trans (h.named n a), ?_,
    fun a ha hne => ?_, h.fixed.trans hre.fixed⟩
  · rw [← h.refs]
    exact funext (refs_of_faces hre.table)
  · obtain ⟨hsame, ha'⟩ := h.same a ha hne
    exact ⟨hsame.trans (hre.same a ha'), hre.live ▸ ha'⟩

theorem owe_nothing (h : Stage w s owed names want s') (howed : ∀ a, owed a = 0) :
    Stage w s (fun _ => 0) names want s' := by
  have hzero : owed = fun _ => 0 := funext howed
  exact hzero ▸ h

/-- A name is put in, and its link is counted. -/
theorem entered_counted (h : Stage w s (fun _ => 0) names want s₁) (hin : Entered w s₁ name ino i s₂)
    (hsv : s₁.vnodeOf ino = some sv) (hroot : ino ≠ sfsRootdirIno)
    (hs' : s' = s₂.setInode ino fun d => { d with sfiLinkcount := d.sfiLinkcount + 1 }) :
    Stage w s (fun _ => 0) (fun n a => n = name.1 ∧ a = ino ∨ names n a) want s' := by
  obtain ⟨sv₂, hsv₂, -⟩ := vnodeOf_of_faces hin.set.table hsv
  have hstage := h.entered hin (hsv ▸ rfl) hroot
  have hcount := hstage.linked.count_succ hstage.ordered (by rw [Function.update_self]; omega) hsv₂ hroot
  have hre := hstage.ordered.relink hstage.linked hsv₂ hroot (f := (· + 1)) hcount hs'
  refine (hstage.relinked hre).owe_nothing fun a => ?_
  by_cases ha : a = ino
  · subst ha
    simp
  · simp [ha]

theorem served (h : Stage w s owed names want s') (howed : ∀ a, owed a = 0) :
    Served w s names want s' := by
  have hzero : owed = fun _ => 0 := funext howed
  exact ⟨⟨h.ordered, hzero ▸ h.linked⟩, h.named, fun a => .inl (congrFun h.refs a),
    fun a ha hne _ => (h.same a ha hne).1, h.fixed⟩

theorem dropped (h : Stage w s owed names want s₁) (howed : ∀ a, owed a = 0)
    (hdropped : Dropped w s₁ ino s₂) (hlive : s₁.Live ino) :
    Served w s names (update want ino (want ino - 1)) s₂ := by
  have hun := hdropped.untouched
  have hzero : owed = fun _ => 0 := funext howed
  have hlink : Linked s₁ fun _ => 0 := hzero ▸ h.linked
  have hnamed : ∀ {a n}, names n a → ∃ i, s₁.Names i a := by
    intro a n hn
    obtain ⟨i, hi, -⟩ := (h.named n a).mpr hn
    exact ⟨i, hi⟩
  have hrootCount := h.ordered.rootLinks
  have hlost : (s₁.inodeOf ino).sfiLinkcount = 0 → ino ≠ sfsRootdirIno ∧ ∀ i, ¬ s₁.Names i ino := by
    intro hcount
    have hne : ino ≠ sfsRootdirIno := by
      rintro rfl
      exact hrootCount hcount
    exact ⟨hne, (hlink.unnamed_iff rfl hlive hne (h.ordered.sound.ne_noino hlive)).mp hcount⟩
  refine ⟨⟨hun.ordered, hun.linked hlink⟩, fun n a => (hun.root.named n a).trans (h.named n a),
    fun a => ?_, fun a ha hne hkeep => ?_, h.fixed.trans hun.fixed⟩
  · rw [← h.refs]
    by_cases heq : a = ino
    · subst heq
      rw [Function.update_self]
      refine hdropped.self.imp_right ?_
      rintro ⟨hone, hone', hcount⟩
      refine ⟨by rw [hone], hone', (hlost hcount).1, fun n hn => ?_⟩
      obtain ⟨i, hi⟩ := hnamed hn
      exact (hlost hcount).2 i hi
    · rw [Function.update_of_ne heq]
      exact .inl (hdropped.others a heq)
  · obtain ⟨hsame, ha'⟩ := h.same a ha hne
    refine hsame.trans (hun.same a ha' ?_).1
    by_cases heq : a = ino
    · subst heq
      right
      rw [Function.update_self] at hkeep
      rcases hkeep with hmany | ⟨n, hn⟩
      · left
        rw [h.refs]
        omega
      · right
        intro hcount
        obtain ⟨i, hi⟩ := hnamed hn
        exact (hlost hcount).2 i hi
    · exact .inl heq

end Stage

end UnionCollegeCode.OS161.Sfs
