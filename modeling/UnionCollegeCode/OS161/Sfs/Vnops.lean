import UnionCollegeCode.OS161.Sfs.Stages

/-!
# What `sfs_creat`, `sfs_link`, `sfs_remove`, `sfs_rename` and `sfs_lookup` do

Each of them does what it says to the names, or says why not and leaves them alone. `sfs_rename` gives
up for good when the disk can neither take out the old name nor the new one.
-/

set_option autoImplicit false

namespace UnionCollegeCode.OS161.Sfs

open Function (update)
open Lib.EState
open SfsFs

variable {w : World} {s s' s₁ s₂ : SfsFs} {ino a : UInt32} {sv : SfsVnode} {i slot : ℕ}
  {name : CString} {owed : UInt32 → ℤ} {names : List UInt8 → UInt32 → Prop} {want : UInt32 → ℕ} {e : Fail}

/-- An error, and nothing has come of it. -/
def Failed (w : World) (s : SfsFs) (e : Fail) (s' : SfsFs) : Prop :=
  (∃ n, e = .errno n) ∧ Served w s s.Named s.refs s'

theorem Wf.start (h : Wf w s) : Stage w s (fun _ => 0) s.Named s.refs s := .start h.toOrdered h.linked

theorem Denied.failed (h : Wf w s) (hdenied : Denied w s e s') : Failed w s e s' :=
  ⟨hdenied.1, (h.start.denied hdenied).served fun _ => rfl⟩

theorem Wf.failed_now (h : Wf w s) (n : ℕ) : Failed w s (.errno n) s :=
  ⟨⟨n, rfl⟩, h.start.served fun _ => rfl⟩

/-! ## A name is looked up -/

/-- The name is in a slot, and its file has been loaded. -/
structure Found (w : World) (s : SfsFs) (name : CString) (ino : UInt32) (slot : ℕ) (s' : SfsFs) : Prop where
  names : s.Names slot ino
  name : (s.entry slot).name = name.1
  loaded : Loaded w s ino s'

theorem Loaded.of_later (h : Ordered w s) (hlater : Later s s₁) (hloaded : Loaded w s₁ ino s') :
    Loaded w s ino s' := by
  have hun := (h.sound.kept_later hlater).untouched h
  refine ⟨(hun.trans hloaded.untouched).mono fun _ _ => ⟨trivial, trivial⟩, ?_⟩
  rw [hloaded.refs]
  obtain ⟨tick, rfl⟩ := hlater
  rfl

theorem Loaded.vnodeOf (h : Loaded w s ino s') : ∃ sv, s'.vnodeOf ino = some sv := by
  refine loaded_of_refs ?_
  rw [h.refs, Function.update_self]
  exact Nat.succ_pos _

/-- What was in the table is still there. -/
theorem Loaded.still (h : Loaded w s ino s') (hsv : s.vnodeOf a = some sv) (hcount : 0 < sv.vnRefcount) :
    ∃ sv', s'.vnodeOf a = some sv' := by
  refine loaded_of_refs ?_
  rw [h.refs]
  by_cases heq : a = ino
  · rw [heq, Function.update_self]
    exact Nat.succ_pos _
  · rw [Function.update_of_ne heq, refs_loaded hsv]
    exact hcount

theorem Ordered.ne_root (h : Ordered w s) (hnames : s.Names i ino) : ino ≠ sfsRootdirIno := by
  rintro rfl
  exact h.rootUnnamed i hnames

/-- A file with a name that nobody is about to count has a link. -/
theorem Linked.count_ne_zero (h : Linked s owed) (howed : owed ino = 0) (hord : Ordered w s)
    (hnames : s.Names i ino) : (s.inodeOf ino).sfiLinkcount ≠ 0 := by
  intro hcount
  exact (h.unnamed_iff howed (live_of_names hnames) (hord.ne_root hnames) hnames.used).mp hcount i hnames

theorem sfsLookonce_spec (hw : w.Writes) (h : Wf w s) (hsv : s.vnodeOf sfsRootdirIno = some sv)
    (name : CString) :
    wp (sfsLookonce w sfsRootdirIno name) (fun r s' => Found w s name r.1 r.2 s') (Denied w s) s := by
  have hord := h.toOrdered
  rw [sfsLookonce, wp_bind]
  refine wp_mono ?_ (fun _ _ h => h) (sfsDirFindname_spec hw hord hsv name)
  rintro r s₁ ⟨hlater, hr⟩
  cases hfound : r.found with
  | none => exact ⟨⟨_, rfl⟩, hord.sound.kept_later hlater⟩
  | some x =>
    obtain ⟨ino, slot⟩ := x
    obtain ⟨hnames, hname⟩ := hr.found ino slot hfound
    have hlive₁ : s₁.Live ino := hlater.live_eq ▸ live_of_names hnames
    dsimp only
    rw [wp_bind]
    refine wp_mono ?_ (fun e s' hdenied => hdenied.of_later hord hlater)
      (sfsLoadvnode_spec (hord.later hlater) hlive₁)
    intro _ s₂ hloaded₁
    have hloaded := hloaded₁.of_later hord hlater
    obtain ⟨sv', hsv'⟩ := hloaded.vnodeOf
    have hlive : s.Live ino := live_of_names hnames
    have hcount : sv'.svI.sfiLinkcount ≠ 0 := by
      rw [← inodeOf_loaded hsv', hloaded.untouched.linkcounts ino (live_of_vnodeOf hsv')]
      exact h.linked.count_ne_zero rfl hord hnames
    rw [wp_bind, wp_of_ok (vnode_ok hsv'), if_neg hcount, wp_pure]
    exact ⟨hnames, hname, hloaded⟩

/-! ## `sfs_lookup`, `sfs_lookparent` -/

theorem sfsLookup_spec (hw : w.Writes) (h : Wf w s) (hsv : s.vnodeOf sfsRootdirIno = some sv)
    (path : CString) :
    wp (sfsLookup w sfsRootdirIno path)
      (fun ino s' => s.Named path.1 ino ∧ Served w s s.Named (update s.refs ino (s.refs ino + 1)) s')
      (Failed w s) s := by
  have htype : sv.svI.sfiType = sfsTypeDir := by
    rw [← inodeOf_loaded hsv]
    exact h.rootType
  rw [sfsLookup, wp_bind, wp_of_ok (vnode_ok hsv), if_neg (not_not.mpr htype), wp_bind]
  refine wp_mono ?_ (fun _ _ hdenied => hdenied.failed h) (sfsLookonce_spec hw h hsv path)
  rintro ⟨ino, slot⟩ s' hfound
  exact ⟨⟨slot, hfound.names, hfound.name⟩, (h.start.loaded hfound.loaded).served fun _ => rfl⟩

theorem vnodeIncref_spec (h : Wf w s) (hsv : s.vnodeOf ino = some sv) :
    wp (vnodeIncref ino) (fun _ s' => Served w s s.Named (update s.refs ino (s.refs ino + 1)) s')
      (Failed w s) s := by
  rw [wp_of_ok (vnodeIncref_ok hsv)]
  obtain ⟨hun, hrefs⟩ := h.toOrdered.recount hsv (f := (· + 1)) (Nat.succ_pos _) rfl
  exact (h.start.loaded ⟨hun, hrefs⟩).served fun _ => rfl

theorem sfsLookparent_spec (h : Wf w s) (hsv : s.vnodeOf sfsRootdirIno = some sv) (path : CString)
    (buflen : ℕ) :
    wp (sfsLookparent sfsRootdirIno path buflen)
      (fun r s' => r = (sfsRootdirIno, path) ∧ path.1.length < buflen ∧
        Served w s s.Named (update s.refs sfsRootdirIno (s.refs sfsRootdirIno + 1)) s')
      (Failed w s) s := by
  have htype : sv.svI.sfiType = sfsTypeDir := by
    rw [← inodeOf_loaded hsv]
    exact h.rootType
  rw [sfsLookparent, wp_bind, wp_of_ok (vnode_ok hsv), if_neg (not_not.mpr htype), wp_ite]
  constructor
  · exact fun _ => h.failed_now _
  · intro hfits
    rw [wp_bind]
    refine wp_mono ?_ (fun _ _ h => h) (vnodeIncref_spec h hsv)
    exact fun _ s' hserved => ⟨rfl, Nat.not_lt.mp hfits, hserved⟩

/-! ## `sfs_creat` -/

/-- A file that was there, or an empty one that was not. -/
inductive Created (w : World) (s : SfsFs) (name : CString) (excl : Bool) (ino : UInt32) (s' : SfsFs) : Prop
  | opened (hexcl : excl = false) (hnamed : s.Named name.1 ino)
      (served : Served w s s.Named (update s.refs ino (s.refs ino + 1)) s')
  | made (hnew : ¬ s.Live ino) (hshort : name.1.length < sfsNamelen) (habsent : ∀ a, ¬ s.Named name.1 a)
      (hempty : s'.fileSize ino = 0) (hzero : ∀ pos, s'.byteAt ino pos = 0)
      (served : Served w s (fun n a => n = name.1 ∧ a = ino ∨ s.Named n a) (update s.refs ino 1) s')

theorem refs_of_not_live (h : ¬ s.Live a) : s.refs a = 0 := by
  by_contra hne
  obtain ⟨sv, hsv⟩ := loaded_of_refs (Nat.pos_of_ne_zero hne)
  exact h (live_of_vnodeOf hsv)

namespace Made

theorem wf (hmade : Made w s ino s') (h : Wf w s) : Wf w s' := by
  refine ⟨hmade.ordered, fun a ha hne => ?_⟩
  rw [hmade.root.links]
  rcases (hmade.live a).mp ha with rfl | ha
  · have hlinks : s.links a = 0 := by
      refine (links_eq_zero (hmade.ordered.sound.ne_noino ha)).mpr fun i hi => ?_
      exact hmade.fresh (live_of_names hi)
    rw [hmade.inode, hlinks]
    rfl
  · rw [hmade.linkcounts a ha]
    exact h.linked a ha hne

theorem stage (hmade : Made w s ino s') (h : Wf w s) :
    Stage w s (fun _ => 0) s.Named (update s.refs ino 1) s' :=
  ⟨hmade.ordered, (hmade.wf h).linked, hmade.root.named, hmade.refs,
    fun a ha _ => ⟨hmade.same a ha, (hmade.live a).mpr (.inr ha)⟩, hmade.fixed⟩

theorem byteAt_eq_zero (hmade : Made w s ino s') (pos : ℕ) : s'.byteAt ino pos = 0 := by
  cases hp : partOf (pos / 512) with
  | none => simp only [byteAt, blockOf, hp, byteIn, if_true]
  | some p =>
    have hpart : s'.part ino p = 0 := by
      cases p with
      | self => exact (isData_partOf hp).elim
      | direct i => rw [part, hmade.inode]
      | indirect => rw [part, hmade.inode]
      | entry j => rw [part, hmade.inode, if_pos rfl]
    rw [byteAt, blockOf_of_part hp, hpart, byteIn, if_pos rfl]

theorem vnodeOf (hmade : Made w s ino s') : ∃ sv, s'.vnodeOf ino = some sv := by
  refine loaded_of_refs ?_
  rw [hmade.refs, Function.update_self]
  exact Nat.succ_pos 0

theorem ne_root (hmade : Made w s ino s') : ino ≠ sfsRootdirIno := by
  rintro rfl
  exact hmade.fresh live_root

end Made

theorem Stage.decref_spec (hw : w.Writes) (hstage : Stage w s (fun _ => 0) names want s₁)
    (hpos : 0 < want ino) :
    wp (vnodeDecref w ino) (fun _ s' => Served w s names (update want ino (want ino - 1)) s')
      (fun _ _ => False) s₁ := by
  rw [← hstage.refs] at hpos
  obtain ⟨sv, hsv⟩ := loaded_of_refs hpos
  refine wp_mono ?_ (fun _ _ h => h) (vnodeDecref_spec hw hstage.ordered hstage.linked rfl hsv)
  exact fun _ s' hdropped => hstage.dropped (fun _ => rfl) hdropped (live_of_vnodeOf hsv)

theorem update_succ_pred (want : UInt32 → ℕ) (ino : UInt32) :
    update (update want ino (want ino + 1)) ino (update want ino (want ino + 1) ino - 1) = want := by
  rw [Function.update_idem, Function.update_self]
  exact Function.update_eq_self ino want

theorem Later.named_eq (h : Later s s₁) : s₁.Named = s.Named :=
  funext fun n => funext fun a => propext (h.sameRoot.named n a)

theorem Later.refs_eq (h : Later s s₁) : s₁.refs = s.refs := by
  obtain ⟨tick, rfl⟩ := h
  rfl

theorem Served.of_later (hlater : Later s s₁) (h : Served w s₁ names want s') : Served w s names want s' := by
  refine ⟨h.wf, h.named, h.refs, fun a ha hne hkeep => ?_, (SameMeta.of_later hlater).trans h.fixed⟩
  obtain ⟨hsize, hbytes⟩ := h.same a (hlater.live_eq.symm ▸ ha) hne hkeep
  obtain ⟨tick, rfl⟩ := hlater
  exact ⟨hsize, hbytes⟩

theorem Failed.of_later (hlater : Later s s₁) (h : Failed w s₁ e s') : Failed w s e s' := by
  obtain ⟨he, hserved⟩ := h
  rw [hlater.named_eq, hlater.refs_eq] at hserved
  exact ⟨he, hserved.of_later hlater⟩

/-- The new inode gets its name, and its link. -/
theorem Made.enter (hmade : Made w s ino s₁) (h : Wf w s) (hin : Entered w s₁ name ino i s₂)
    (hs' : s' = s₂.setInode ino fun d => { d with sfiLinkcount := d.sfiLinkcount + 1 }) (excl : Bool) :
    Created w s name excl ino s' := by
  have hwf := hmade.wf h
  have hroot : ino ≠ sfsRootdirIno := hmade.ne_root
  obtain ⟨sv₁, hsv₁⟩ := hmade.vnodeOf
  have hserved := (hwf.start.entered_counted hin hsv₁ hroot hs').served fun _ => rfl
  have hpos : 0 < s₁.refs ino := by
    rw [hmade.refs, Function.update_self]
    exact Nat.succ_pos 0
  have hdata := hserved.same ino (live_of_vnodeOf hsv₁) hroot (.inl hpos)
  have hnames : s₁.Named = s.Named := funext fun n => funext fun a => propext (hmade.root.named n a)
  have hserved' := hserved
  rw [hnames, hmade.refs] at hserved'
  refine .made hmade.fresh hin.short (fun a ha => ?_) ?_ (fun pos => ?_)
    ⟨hserved'.wf, hserved'.named, hserved'.refs, fun a ha hne hkeep => ?_, hmade.fixed.trans hserved.fixed⟩
  · exact hin.absent a ((hmade.root.named _ a).mpr ha)
  · rw [hdata.size, fileSize, hmade.inode]
    rfl
  · rw [hdata.bytes, hmade.byteAt_eq_zero]
  · exact (hmade.same a ha).trans (hserved'.same a ((hmade.live a).mpr (.inr ha)) hne hkeep)

/-- The new inode does not get its name, and goes. -/
theorem Made.discard (hw : w.Writes) (hmade : Made w s ino s₁) (h : Wf w s) (hdenied : Denied w s₁ e s₂) :
    wp (vnodeDecref w ino) (fun _ s' => Failed w s e s') (fun _ _ => False) s₂ := by
  have hpos : 0 < update s.refs ino 1 ino := by
    rw [Function.update_self]
    exact Nat.succ_pos 0
  refine wp_mono ?_ (fun _ _ h => h) (((hmade.stage h).denied hdenied).decref_spec hw hpos)
  intro _ s' hserved
  rw [Function.update_idem, Function.update_self, Nat.sub_self, ← refs_of_not_live hmade.fresh,
    Function.update_eq_self] at hserved
  exact ⟨hdenied.1, hserved⟩

theorem Created.of_later {excl : Bool} (hlater : Later s s₁) (h : Created w s₁ name excl ino s') :
    Created w s name excl ino s' := by
  have hnames := hlater.named_eq
  have hrefs := hlater.refs_eq
  have hlive := hlater.live_eq
  cases h with
  | opened hexcl hnamed hserved =>
    rw [hnames] at hnamed
    rw [hnames, hrefs] at hserved
    exact .opened hexcl hnamed (hserved.of_later hlater)
  | made hnew hshort habsent hempty hzero hserved =>
    rw [hlive] at hnew
    rw [hnames] at habsent
    rw [hnames, hrefs] at hserved
    exact .made hnew hshort habsent hempty hzero (hserved.of_later hlater)

theorem sfsCreat_spec (hw : w.Writes) (h : Wf w s) (hsv : s.vnodeOf sfsRootdirIno = some sv)
    (name : CString) (excl : Bool) :
    wp (sfsCreat w sfsRootdirIno name excl) (fun ino s' => Created w s name excl ino s') (Failed w s) s := by
  have hord := h.toOrdered
  rw [sfsCreat, wp_bind]
  refine wp_mono ?_ (fun _ _ hdenied => hdenied.failed h) (sfsDirFindname_spec hw hord hsv name)
  rintro r s₁ ⟨hlater, hr⟩
  have hwf₁ : Wf w s₁ := h.kept (hord.sound.kept_later hlater)
  cases hfound : r.found with
  | some x =>
    obtain ⟨ino, slot⟩ := x
    obtain ⟨hnames, hname⟩ := hr.found ino slot hfound
    dsimp only
    rw [wp_ite]
    constructor
    · intro _
      exact (hwf₁.failed_now EEXIST).of_later hlater
    · intro hexcl
      have hlive₁ : s₁.Live ino := hlater.live_eq ▸ live_of_names hnames
      rw [wp_bind]
      refine wp_mono ?_ (fun e s' hdenied => (hdenied.failed hwf₁).of_later hlater)
        (sfsLoadvnode_spec (hord.later hlater) hlive₁)
      intro _ s₂ hloaded
      rw [wp_pure]
      exact .opened (Bool.eq_false_of_not_eq_true hexcl) ⟨slot, hnames, hname⟩
        ((h.start.loaded (hloaded.of_later hord hlater)).served fun _ => rfl)
  | none =>
    dsimp only
    rw [wp_bind]
    refine wp_mono ?_ (fun e s' hdenied => (hdenied.failed hwf₁).of_later hlater)
      (sfsMakeobj_spec hw hwf₁.toOrdered)
    intro ino s₂ hmade
    have hsvRoot : ∃ sv, s₂.vnodeOf sfsRootdirIno = some sv := by
      refine loaded_of_refs ?_
      rw [hmade.refs, Function.update_of_ne hmade.ne_root.symm,
        refs_loaded ((hlater.vnodeOf _).trans hsv)]
      exact hord.counted sv (mem_of_vnodeOf hsv)
    obtain ⟨svRoot, hsvRoot⟩ := hsvRoot
    rw [wp_bind, wp_tryCatch]
    refine wp_mono ?_ ?_ (sfsDirLink_spec hw hmade.ordered hsvRoot name ino)
    · intro i s₃ hin
      rw [wp_bind, wp_of_ok (changeInode_ok _), wp_pure]
      exact (hmade.enter hwf₁ hin rfl excl).of_later hlater
    · rintro _ s₃ ⟨⟨n, rfl⟩, hkept⟩
      dsimp only
      rw [wp_bind]
      refine wp_mono ?_ (fun _ _ h => h.elim) (hmade.discard hw hwf₁ ⟨⟨n, rfl⟩, hkept⟩)
      exact fun _ s' hfailed => hfailed.of_later hlater

/-! ## `sfs_link` -/

theorem sfsLink_spec (hw : w.Writes) (h : Wf w s) (hsv : s.vnodeOf sfsRootdirIno = some sv)
    (name : CString) (hfile : 0 < s.refs ino) :
    wp (sfsLink w sfsRootdirIno name ino)
      (fun _ s' => ino ≠ sfsRootdirIno ∧ name.1.length < sfsNamelen ∧ (∀ a, ¬ s.Named name.1 a) ∧
        Served w s (fun n a => n = name.1 ∧ a = ino ∨ s.Named n a) s.refs s')
      (Failed w s) s := by
  obtain ⟨f, hf⟩ := loaded_of_refs hfile
  rw [sfsLink, wp_bind, wp_of_ok (vnode_ok hf), wp_ite]
  constructor
  · exact fun _ => h.failed_now _
  · intro hnotdir
    have hroot : ino ≠ sfsRootdirIno := by
      rintro rfl
      exact hnotdir ((inodeOf_loaded hf).symm ▸ h.rootType)
    rw [wp_bind]
    refine wp_mono ?_ (fun _ _ hdenied => hdenied.failed h) (sfsDirLink_spec hw h.toOrdered hsv name ino)
    intro i s₁ hin
    rw [wp_of_ok (changeInode_ok _)]
    exact ⟨hroot, hin.short, hin.absent,
      (h.start.entered_counted hin hf hroot rfl).served fun _ => rfl⟩

/-! ## `sfs_remove` -/

theorem dropLink_ok (hsv : s.vnodeOf ino = some sv) (hcount : sv.svI.sfiLinkcount ≠ 0) :
    dropLink ino s =
      .ok ⟨⟩ (s.setInode ino fun d => { d with sfiLinkcount := d.sfiLinkcount - 1 }) := by
  rw [dropLink, bind_ok (vnode_ok hsv), if_neg hcount, changeInode_ok]

/-- A name is taken out, then its link. -/
theorem Stage.removed_counted (hstage : Stage w s (fun _ => 0) names want s₁) (hout : Removed w s₁ i s₂)
    (hnames : s₁.Names i ino) (hname : (s₁.entry i).name = name.1) (hsv : s₁.vnodeOf ino = some sv) :
    ∃ sv₂, s₂.vnodeOf ino = some sv₂ ∧ sv₂.svI.sfiLinkcount ≠ 0 ∧
      Stage w s (fun _ => 0) (fun n a => n ≠ name.1 ∧ names n a) want
        (s₂.setInode ino fun d => { d with sfiLinkcount := d.sfiLinkcount - 1 }) := by
  have hroot := hstage.ordered.ne_root hnames
  obtain ⟨sv₂, hsv₂, -⟩ := vnodeOf_of_faces hout.set.table hsv
  have hstage₂ := hstage.removed hout hnames hname (hsv ▸ rfl)
  have hcount : sv₂.svI.sfiLinkcount ≠ 0 := by
    intro hzero
    have hlinks := hstage₂.linked ino (live_of_vnodeOf hsv₂) hroot
    have hnil : (0 : UInt16).toNat = 0 := rfl
    rw [inodeOf_loaded hsv₂, hzero, Function.update_self] at hlinks
    omega
  have hre := hstage₂.ordered.relink hstage₂.linked hsv₂ hroot (f := (· - 1)) (count_pred hcount) rfl
  refine ⟨sv₂, hsv₂, hcount, (hstage₂.relinked hre).owe_nothing fun a => ?_⟩
  by_cases ha : a = ino
  · subst ha
    simp
  · simp [ha]

theorem sfsRemove_spec (hw : w.Writes) (h : Wf w s) (hsv : s.vnodeOf sfsRootdirIno = some sv)
    (name : CString) :
    wp (sfsRemove w sfsRootdirIno name)
      (fun _ s' => (∃ a, s.Named name.1 a) ∧ Served w s (fun n a => n ≠ name.1 ∧ s.Named n a) s.refs s')
      (Failed w s) s := by
  have hord := h.toOrdered
  have hrootCount := hord.counted sv (mem_of_vnodeOf hsv)
  rw [sfsRemove, wp_bind]
  refine wp_mono ?_ (fun _ _ hdenied => hdenied.failed h) (sfsLookonce_spec hw h hsv name)
  rintro ⟨victim, slot⟩ s₁ hfound
  have hstage := h.start.loaded hfound.loaded
  have hsame := hfound.loaded.untouched.root
  obtain ⟨sv₁, hsv₁⟩ := hfound.loaded.vnodeOf
  obtain ⟨svRoot, hsvRoot⟩ := hfound.loaded.still hsv hrootCount
  have hnames₁ : s₁.Names slot victim := (hsame.names slot victim).mpr hfound.names
  have hname₁ : (s₁.entry slot).name = name.1 := by
    rw [hsame.entry]
    exact hfound.name
  have hpos : 0 < update s.refs victim (s.refs victim + 1) victim := by
    rw [Function.update_self]
    exact Nat.succ_pos _
  have hback := update_succ_pred s.refs victim
  dsimp only
  rw [wp_bind, wp_tryCatch]
  refine wp_mono ?_ ?_ (sfsDirUnlink_spec hw hstage.ordered hsvRoot hnames₁.inside)
  · intro _ s₂ hout
    obtain ⟨sv₂, hsv₂, hcount, hstage₂⟩ := hstage.removed_counted hout hnames₁ hname₁ hsv₁
    rw [wp_bind, wp_of_ok (dropLink_ok hsv₂ hcount)]
    refine wp_mono ?_ (fun _ _ h => h.elim) (hstage₂.decref_spec hw hpos)
    intro _ s' hserved
    rw [hback] at hserved
    exact ⟨⟨victim, slot, hfound.names, hfound.name⟩, hserved⟩
  · rintro _ s₂ ⟨⟨n, rfl⟩, hkept⟩
    have hstage₂ := hstage.denied (⟨⟨n, rfl⟩, hkept⟩ : Denied w s₁ (.errno n) s₂)
    dsimp only
    rw [wp_bind]
    refine wp_mono ?_ (fun _ _ h => h.elim) (hstage₂.decref_spec hw hpos)
    intro _ s' hserved
    rw [hback] at hserved
    exact ⟨⟨n, rfl⟩, hserved⟩

/-! ## `sfs_rename` -/

/-- The panic of `sfs_rename` that the code allows for. -/
def cannotRecover : Fail := .stop (.panic "sfs: rename: Cannot recover\n")

/-- The new name of `g` is taken out again, and its link. -/
theorem renameRecover_spec (hw : w.Writes) (hstage : Stage w s (fun _ => 0) names want s₁)
    (hsv : s₁.vnodeOf sfsRootdirIno = some sv) (hnames : s₁.Names slot ino)
    (hname : (s₁.entry slot).name = name.1) (hdirty : s₁.Dirty ino) (hpos : 0 < want ino) (result : ℕ) :
    wp (renameRecover w sfsRootdirIno ino slot result) (fun _ _ => False)
      (fun e s' => e = cannotRecover ∨ e = .errno result ∧
        Served w s (fun n a => n ≠ name.1 ∧ names n a) (update want ino (want ino - 1)) s') s₁ := by
  have ⟨sv₁, hsv₁, _⟩ := hdirty
  rw [renameRecover, wp_bind, wp_tryCatch]
  refine wp_mono ?_ ?_ (sfsDirUnlink_spec hw hstage.ordered hsv hnames.inside)
  · intro _ s₂ hout
    obtain ⟨sv₂, hsv₂, hcount, hstage₂⟩ := hstage.removed_counted hout hnames hname hsv₁
    have hnodup : (s₂.vnodes.map SfsVnode.svIno).Nodup := by
      rw [inos_of_faces hout.set.table]
      exact hstage.ordered.nodup
    rw [wp_bind, wp_modify, modifyVnode_of_dirty hnodup (hout.set.dirty ino hdirty)
      fun d => { d with sfiLinkcount := d.sfiLinkcount - 1 }, wp_bind]
    refine wp_mono ?_ (fun _ _ h => h.elim) (hstage₂.decref_spec hw hpos)
    exact fun _ s' hserved => .inr ⟨rfl, hserved⟩
  · rintro _ s₂ ⟨⟨n, rfl⟩, -⟩
    exact .inl rfl

/-- A name is another one now. -/
structure Renamed (w : World) (s : SfsFs) (n₁ n₂ : CString) (s' : SfsFs) : Prop where
  old : ∃ g, s.Named n₁.1 g ∧
    Served w s (fun n a => n ≠ n₁.1 ∧ (n = n₂.1 ∧ a = g ∨ s.Named n a)) s.refs s'
  short : n₂.1.length < sfsNamelen
  absent : ∀ a, ¬ s.Named n₂.1 a

theorem SfsFs.Dirty.setInode_self (hsv : s.vnodeOf ino = some sv) (f : SfsDinode → SfsDinode) :
    (s.setInode ino f).Dirty ino :=
  ⟨sv.changed f, vnodeOf_modifyVnode_self (SfsVnode.changed_ino f) hsv, rfl⟩

theorem Served.congr {names' : List UInt8 → UInt32 → Prop} (h : Served w s names want s')
    (hnames : ∀ n a, names n a ↔ names' n a) : Served w s names' want s' := by
  have heq : names = names' := funext fun n => funext fun a => propext (hnames n a)
  exact heq ▸ h

theorem sfsRename_spec (hw : w.Writes) (h : Wf w s) (hsv : s.vnodeOf sfsRootdirIno = some sv)
    (n₁ n₂ : CString) :
    wp (sfsRename w sfsRootdirIno n₁ sfsRootdirIno n₂) (fun _ s' => Renamed w s n₁ n₂ s')
      (fun e s' => e = cannotRecover ∨ Failed w s e s') s := by
  have hord := h.toOrdered
  have hrootCount := hord.counted sv (mem_of_vnodeOf hsv)
  rw [sfsRename, if_neg (not_not.mpr rfl), if_neg (not_not.mpr rfl), wp_bind]
  refine wp_mono ?_ (fun _ _ hdenied => .inr (hdenied.failed h)) (sfsLookonce_spec hw h hsv n₁)
  rintro ⟨g, slot₁⟩ s₁ hfound
  have hnamed : s.Named n₁.1 g := ⟨slot₁, hfound.names, hfound.name⟩
  have hroot := hord.ne_root hfound.names
  have hstage := h.start.loaded hfound.loaded
  have hsame := hfound.loaded.untouched.root
  obtain ⟨sv₁, hsv₁⟩ := hfound.loaded.vnodeOf
  obtain ⟨svRoot, hsvRoot⟩ := hfound.loaded.still hsv hrootCount
  have hpos : 0 < update s.refs g (s.refs g + 1) g := by
    rw [Function.update_self]
    exact Nat.succ_pos _
  have hback := update_succ_pred s.refs g
  have htype : sv₁.svI.sfiType = sfsTypeFile := by
    rw [← inodeOf_loaded hsv₁]
    exact hstage.ordered.file g (live_of_vnodeOf hsv₁) hroot
  dsimp only
  rw [wp_bind, wp_of_ok (vnode_ok hsv₁), if_neg (not_not.mpr htype), wp_bind, wp_tryCatch]
  refine wp_mono ?_ ?_ (sfsDirLink_spec hw hstage.ordered hsvRoot n₂ g)
  · intro slot₂ s₂ hin
    obtain ⟨sv₂, hsv₂, -⟩ := vnodeOf_of_faces hin.set.table hsv₁
    obtain ⟨svRoot₂, hsvRoot₂, -⟩ := vnodeOf_of_faces hin.set.table hsvRoot
    have hstage₃ := hstage.entered_counted hin hsv₁ hroot rfl
    have hlinked := sameRoot_setLinks hsv₂ hroot (· + 1)
    have hdirty₃ := SfsFs.Dirty.setInode_self hsv₂ fun d => { d with sfiLinkcount := d.sfiLinkcount + 1 }
    rw [wp_bind, wp_of_ok (changeInode_ok _)]
    generalize hs₃ : (s₂.setInode g fun d => { d with sfiLinkcount := d.sfiLinkcount + 1 }) = s₃ at *
    have htable₃ : s₃.vnodes.map SfsVnode.face = s₂.vnodes.map SfsVnode.face := by
      rw [← hs₃]
      exact faces_setInode _
    obtain ⟨svRoot₃, hsvRoot₃, -⟩ := vnodeOf_of_faces htable₃ hsvRoot₂
    obtain ⟨sv₃, hsv₃, -⟩ := vnodeOf_of_faces htable₃ hsv₂
    -- the new name is in its slot, and the old one is in a slot of its own
    have hnew : s₃.Names slot₂ g ∧ (s₃.entry slot₂).name = n₂.1 := by
      refine ⟨(hlinked.names _ _).mpr ((hin.set.names hin.next _ _).mpr ?_), ?_⟩
      · rw [if_pos rfl]
        exact ⟨rfl, hfound.names.used⟩
      · rw [hlinked.entry, hin.set.entry, if_pos rfl]
        exact SfsDirentry.name_ofName n₂.2 hin.short
    have hold : s₃.Names slot₁ g ∧ (s₃.entry slot₁).name = n₁.1 := by
      have hnames₁ : s₁.Names slot₁ g := (hsame.names slot₁ g).mpr hfound.names
      have hne : slot₁ ≠ slot₂ := by
        rintro rfl
        exact hin.free g hnames₁
      refine ⟨(hlinked.names _ _).mpr ((hin.set.names hin.next _ _).mpr ?_), ?_⟩
      · rwa [if_neg hne]
      · rw [hlinked.entry, hin.set.entry, if_neg hne, hsame.entry]
        exact hfound.name
    rw [wp_bind, wp_tryCatch]
    refine wp_mono ?_ ?_ (sfsDirUnlink_spec hw hstage₃.ordered hsvRoot₃ hold.1.inside)
    · intro _ s₄ hout
      obtain ⟨sv₄, hsv₄, hcount, hstage₄⟩ := hstage₃.removed_counted hout hold.1 hold.2 hsv₃
      rw [wp_bind, wp_of_ok (dropLink_ok hsv₄ hcount)]
      refine wp_mono ?_ (fun _ _ h => h.elim) (hstage₄.decref_spec hw hpos)
      intro _ s' hserved
      rw [hback] at hserved
      exact ⟨⟨g, hnamed, hserved⟩, hin.short, fun a ha => hin.absent a ((hsame.named _ a).mpr ha)⟩
    · rintro _ s₄ ⟨⟨n, rfl⟩, hkept⟩
      have hdenied : Denied w s₃ (.errno n) s₄ := ⟨⟨n, rfl⟩, hkept⟩
      have hstage₄ := hstage₃.denied hdenied
      obtain ⟨svRoot₄, hsvRoot₄, -⟩ := vnodeOf_of_faces hkept.same.table hsvRoot₃
      have hroot₄ := hkept.sameRoot
      have hname₄ : (s₄.entry slot₂).name = n₂.1 := by
        rw [hroot₄.entry]
        exact hnew.2
      refine wp_mono (fun _ _ h => h.elim) ?_ (renameRecover_spec hw hstage₄ hsvRoot₄
        ((hroot₄.names _ _).mpr hnew.1) hname₄ (hkept.same.dirty g hdirty₃) hpos n)
      rintro e s' (rfl | ⟨rfl, hserved⟩)
      · exact .inl rfl
      · refine .inr ⟨⟨n, rfl⟩, ?_⟩
        rw [hback] at hserved
        refine hserved.congr fun m a => ?_
        constructor
        · rintro ⟨hne, ⟨rfl, -⟩ | hm⟩
          · exact absurd rfl hne
          · exact hm
        · intro hm
          refine ⟨?_, .inr hm⟩
          rintro rfl
          exact hin.absent a ((hsame.named _ a).mpr hm)
  · rintro _ s₂ ⟨⟨n, rfl⟩, hkept⟩
    have hstage₂ := hstage.denied (⟨⟨n, rfl⟩, hkept⟩ : Denied w s₁ (.errno n) s₂)
    dsimp only
    rw [wp_bind]
    refine wp_mono ?_ (fun _ _ h => h.elim) (hstage₂.decref_spec hw hpos)
    intro _ s' hserved
    rw [hback] at hserved
    exact .inr ⟨⟨n, rfl⟩, hserved⟩

end UnionCollegeCode.OS161.Sfs
