import UnionCollegeCode.OS161.Sfs.Vnodes

/-!
# What `vnode_decref` does

The last reference takes the vnode out of the table. A file that has no name goes with it: its
blocks, and then its inode. When its indirect block cannot be read it stays, for good.
-/

set_option autoImplicit false

namespace UnionCollegeCode.OS161.Sfs

open Function (update)
open Lib.EState
open SfsFs

variable {w : World} {s s' s₀ s₁ s₂ : SfsFs} {ino a : UInt32} {sv : SfsVnode} {owed : UInt32 → ℤ}

/-! ## A vnode leaves the table -/

theorem removeVnode_ok (hsv : s.vnodeOf ino = some sv) (hcount : sv.vnRefcount = 1) :
    removeVnode ino s =
      .ok ⟨⟩ { s with vnodes := Lib.KeyedList.remove SfsVnode.svIno s.vnodes ino } := by
  have hnot : ¬ sv.vnRefcount ≠ 1 := not_not.mpr hcount
  rw [removeVnode, bind_ok get_ok]
  simp only [hsv]
  rw [bind_ok modify_ok, if_neg hnot]
  rfl

section Remove

variable (hnodup : (s.vnodes.map SfsVnode.svIno).Nodup)
  (hvnodes : s'.vnodes = Lib.KeyedList.remove SfsVnode.svIno s.vnodes ino)

include hnodup hvnodes

theorem vnodeOf_remove (a : UInt32) : s'.vnodeOf a = if a = ino then none else s.vnodeOf a := by
  rw [vnodeOf, hvnodes]
  split
  · rename_i heq
    rw [heq]
    exact Lib.KeyedList.lookup_remove_self hnodup
  · rename_i hne
    exact Lib.KeyedList.lookup_remove_of_ne hne

theorem refs_remove : s'.refs = update s.refs ino 0 := by
  funext a
  rw [refs, vnodeOf_remove hnodup hvnodes]
  by_cases ha : a = ino
  · rw [if_pos ha, ha, Function.update_self]
  · rw [if_neg ha, Function.update_of_ne ha, refs]

theorem inodeOf_remove (hdisk : s'.disk = s.disk)
    (honDisk : SfsDinode.decode (s.disk ino.toNat) = s.inodeOf ino) (a : UInt32) :
    s'.inodeOf a = s.inodeOf a := by
  rw [inodeOf, vnodeOf_remove hnodup hvnodes, hdisk]
  by_cases ha : a = ino
  · rw [if_pos ha, ha]
    exact honDisk
  · rw [if_neg ha, inodeOf]

end Remove

/-- The inode is still there: it has a name, or it is the root. -/
theorem Ordered.forget (h : Ordered w s) (honDisk : SfsDinode.decode (s.disk ino.toNat) = s.inodeOf ino)
    (hstay : ino = sfsRootdirIno ∨ ∃ i, s.Names i ino)
    (hs' : s' = { s with vnodes := Lib.KeyedList.remove SfsVnode.svIno s.vnodes ino }) :
    Untouched w s (fun _ => True) s' ∧ s'.refs = update s.refs ino 0 := by
  have hvnodes : s'.vnodes = Lib.KeyedList.remove SfsVnode.svIno s.vnodes ino := hs' ▸ rfl
  have hvnodeOf := vnodeOf_remove h.nodup hvnodes
  have hinode := inodeOf_remove h.nodup hvnodes (hs' ▸ rfl) honDisk
  have hroot : SameRoot s s' := ⟨byteAt_of_inode (hs' ▸ rfl) (hinode _), congrArg SfsDinode.attrs (hinode _)⟩
  have hmem : ∀ {sv}, sv ∈ s'.vnodes → sv ∈ s.vnodes := by
    intro sv hsv
    rw [hvnodes] at hsv
    exact Lib.KeyedList.mem_of_mem_remove hsv
  have hfixed : SameMeta s s' := hs' ▸ ⟨rfl, rfl, fun _ _ => rfl, fun h => ⟨h, rfl⟩⟩
  refine ⟨⟨Retabled.intact ⟨hs' ▸ rfl, hs' ▸ .refl h.sound.closed, hfixed.blocks, fun a _ => hinode a, ?_,
    fun sv hsv => h.counted sv (hmem hsv), ?_, fun a ha => ?_, fun a ha => ?_⟩ h, hfixed⟩,
    refs_remove h.nodup hvnodes⟩
  · rw [hvnodes]
    exact Lib.KeyedList.nodup_remove h.nodup
  · intro sv hsv hclean
    rw [hs']
    exact h.sound.synced sv (hmem hsv) hclean
  · rw [hvnodeOf] at ha
    split at ha
    · cases ha
    · exact .inr (.inl ha)
  · by_cases heq : a = ino
    · subst heq
      rcases hstay with rfl | ⟨i, hi⟩
      · exact live_root
      · exact live_of_names ((hroot.names i _).mpr hi)
    · rw [SfsFs.Live, hvnodeOf, if_neg heq]
      exact .inr (.inl ha)

/-- The inode has no name and no blocks, and its own block is given back. -/
theorem Ordered.erase (h : Ordered w s) (hlive : s.Live ino) (hne : ino ≠ sfsRootdirIno)
    (hunnamed : ∀ i, ¬ s.Names i ino) (hparts : ∀ p : Part, p ≠ .self → s.part ino p = 0)
    (honDisk : SfsDinode.decode (s.disk ino.toNat) = s.inodeOf ino)
    (hs' : s' = { s with
      freemap := s.freemap.unmark ino.toNat
      freemapdirty := true
      vnodes := Lib.KeyedList.remove SfsVnode.svIno s.vnodes ino }) :
    Untouched w s (· ≠ ino) s' ∧ s'.refs = update s.refs ino 0 := by
  have hzero := h.sound.ne_noino hlive
  have hused : s.Used ino := (h.sound.zero_or_used hlive .self).resolve_left hzero
  have hother := h.sound.holder_alone hlive (q := .self) rfl hzero
  have hdisk : s'.disk = s.disk := hs' ▸ rfl
  have hmap : s'.freemap = s.freemap.unmark ino.toNat := hs' ▸ rfl
  have hvnodes : s'.vnodes = Lib.KeyedList.remove SfsVnode.svIno s.vnodes ino := hs' ▸ rfl
  have hblocks : s'.sbNblocks = s.sbNblocks := hs' ▸ rfl
  have hvnodeOf := vnodeOf_remove h.nodup hvnodes
  have hinode := inodeOf_remove h.nodup hvnodes hdisk honDisk
  have hpart : ∀ a p, s'.part a p = s.part a p := fun a p => part_of_inode hdisk (hinode a) p
  have hroot : SameRoot s s' := ⟨byteAt_of_inode hdisk (hinode _), congrArg SfsDinode.attrs (hinode _)⟩
  have hmem : ∀ {sv}, sv ∈ s'.vnodes → sv ∈ s.vnodes := by
    intro sv hsv
    rw [hvnodes] at hsv
    exact Lib.KeyedList.mem_of_mem_remove hsv
  have hnodup : (s'.vnodes.map SfsVnode.svIno).Nodup := by
    rw [hvnodes]
    exact Lib.KeyedList.nodup_remove h.nodup
  have hlives : ∀ a, s'.Live a ↔ a ≠ ino ∧ s.Live a := by
    intro a
    unfold SfsFs.Live
    simp only [hvnodeOf, hroot.names]
    by_cases heq : a = ino
    · subst heq
      simp [hne, hunnamed]
    · simp [heq]
  have hset : ∀ i, s'.freemap.isSet i ↔ ino.toNat ≠ i ∧ s.freemap.isSet i := by
    intro i
    rw [hmap, Bitmap.isSet_unmark, ne_comm]
  have hord : ∀ {i}, ¬ Ordinary s.sbNblocks.toNat i → ino.toNat ≠ i := by
    rintro i hnot rfl
    exact hnot hused.1
  have hsound : Sound w s'.Live s' := by
    refine ⟨(h.sound.accounted.give (· = ino)).congr ?_ ?_, ?_, ?_, ?_, fun sv hsv => ?_, ?_, ?_, ?_⟩
    · rintro ⟨a, p⟩ v
      unfold Holds
      rw [hlives, hpart]
      constructor
      · rintro ⟨⟨ha, hlive'⟩, hv, hv'⟩
        refine ⟨?_, hlive', hv, hv'⟩
        rintro rfl
        exact hother a hlive' p (by simp [ha]) hv
      · rintro ⟨hv, hlive', hp, hv'⟩
        refine ⟨⟨?_, hlive'⟩, hp, hv'⟩
        rintro rfl
        by_cases hself : p = .self
        · subst hself
          exact hv hp.symm
        · exact hv' (hp.symm.trans (hparts p hself))
    · intro v
      unfold Used
      rw [hset, hblocks]
      constructor
      · rintro ⟨hv, hfree, hv'⟩
        exact ⟨fun heq => hfree (heq ▸ rfl), hv, hv'⟩
      · rintro ⟨hfree, hv, hv'⟩
        exact ⟨hv, fun heq => hfree (UInt32.toNat_inj.mp heq).symm, hv'⟩
    · intro i hi hi'
      rw [hmap] at hi hi'
      refine (hset i).mpr ⟨hord fun hnot => ?_, h.sound.closed i hi hi'⟩
      exact absurd (Nat.lt_of_lt_of_le hnot.1 h.sound.nbits) (Nat.not_lt.mpr hi)
    · rw [hmap, hblocks]
      exact h.sound.bits
    · rw [hblocks]
      intro i hi hnot
      rw [hmap] at hi
      exact (hset i).mpr ⟨hord hnot, h.sound.reserved i hi hnot⟩
    · refine (hlives _).mpr ⟨?_, h.sound.loaded sv (hmem hsv)⟩
      rintro heq
      have hsome := isSome_of_mem hsv
      rw [hvnodeOf, if_pos heq] at hsome
      cases hsome
    · rw [hblocks]
      exact h.sound.device
    · intro sv hsv hclean
      rw [hdisk]
      exact h.sound.synced sv (hmem hsv) hclean
    · exact fun hlive' => h.sound.zero ((hlives 0).mp hlive').2
  refine ⟨⟨⟨?_, hroot, fun a ha => ((hlives a).mp ha).2, fun a _ => by rw [hinode a],
    fun a ha hkeep => ?_⟩, hs' ▸ ⟨rfl, rfl, fun _ _ => rfl, nofun⟩⟩, refs_remove h.nodup hvnodes⟩
  · refine h.remake hsound hroot hnodup (fun sv hsv => h.counted sv (hmem hsv)) hblocks fun a ha ha' => ?_
    rw [hinode a]
    exact h.file a ((hlives a).mp ha).2 ha'
  · refine ⟨⟨?_, byteAt_of_inode hdisk (hinode a)⟩, (hlives a).mpr ⟨hkeep, ha⟩⟩
    rw [fileSize, hinode a, fileSize]

/-! ## `sfs_reclaim` -/

/-- What is said of the others and of `ino` itself covers all. -/
theorem forall_of_others {f : SfsDinode → UInt16} (hothers : ∀ a, s.Live a → a ≠ ino →
    f (s'.inodeOf a) = f (s.inodeOf a)) (hself : f (s'.inodeOf ino) = f (s.inodeOf ino)) (a : UInt32)
    (ha : s.Live a) : f (s'.inodeOf a) = f (s.inodeOf a) := by
  by_cases heq : a = ino
  · rw [heq, hself]
  · exact hothers a ha heq

theorem Shortened.untouched {cut : ℕ → Prop} (h : Ordered w s) (hsound : Sound w s.Live s')
    (hshort : Shortened s.Live ino cut s s') (hne : ino ≠ sfsRootdirIno) :
    Untouched w s (· ≠ ino) s' :=
  ⟨h.intact_of hsound hne.symm (fun a ha hkeep => funext fun pos => hshort.kept a ha pos (.inl hkeep))
    hshort.others
    (forall_of_others (fun a ha hkeep => congrArg (fun a => a.2.1) (hshort.others a ha hkeep)) hshort.type)
    (forall_of_others (fun a ha hkeep => congrArg (fun a => a.2.2) (hshort.others a ha hkeep))
      hshort.linkcount)
    hshort.table hshort.fixed.blocks, hshort.fixed⟩

/-- A vnode has lost a reference, and the files that are spared are as they were. -/
structure Dropped (w : World) (s : SfsFs) (ino : UInt32) (s' : SfsFs) : Prop where
  untouched : Untouched w s
    (fun a => a ≠ ino ∨ 1 < s.refs ino ∨ (s.inodeOf ino).sfiLinkcount ≠ 0) s'
  others : ∀ a, a ≠ ino → s'.refs a = s.refs a
  self : s'.refs ino = s.refs ino - 1 ∨
    s.refs ino = 1 ∧ s'.refs ino = 1 ∧ (s.inodeOf ino).sfiLinkcount = 0

/-- Where no link is owed for it, an inode without links is one without a name. -/
theorem Linked.unnamed_iff (h : Linked s owed) (howed : owed ino = 0) (hlive : s.Live ino)
    (hne : ino ≠ sfsRootdirIno) (hino : ino ≠ sfsNoino) :
    (s.inodeOf ino).sfiLinkcount = 0 ↔ ∀ i, ¬ s.Names i ino := by
  have hlinks := h ino hlive hne
  have hzero : (0 : UInt16).toNat = 0 := rfl
  rw [← links_eq_zero hino, ← UInt16.toNat_inj]
  omega

/-- The inode leaves memory when it is on disk as it is in memory. -/
theorem WrittenBack.forget (hback : WrittenBack w s ino s₁) (hsv : s₁.vnodeOf ino = some sv)
    (hcount : sv.vnRefcount = 1) (hstay : ino = sfsRootdirIno ∨ ∃ i, s.Names i ino) :
    wp (removeVnode ino) (fun _ s' => Untouched w s (fun _ => True) s' ∧ s'.refs = update s.refs ino 0)
      (fun _ _ => False) s₁ := by
  have hun := hback.untouched
  have honDisk : SfsDinode.decode (s₁.disk ino.toNat) = s₁.inodeOf ino := by
    rw [hback.onDisk, hback.inodes ino (hun.live ino (live_of_vnodeOf hsv))]
  have hstay₁ : ino = sfsRootdirIno ∨ ∃ i, s₁.Names i ino :=
    hstay.imp_right fun ⟨i, hi⟩ => ⟨i, (hun.root.names i ino).mpr hi⟩
  rw [wp_of_ok (removeVnode_ok hsv hcount)]
  obtain ⟨hkeep, hrefs⟩ := hun.ordered.forget honDisk hstay₁ rfl
  refine ⟨(hun.trans hkeep).mono fun _ _ => ⟨trivial, trivial⟩, ?_⟩
  rw [hrefs]
  congr 1
  exact funext (refs_of_faces hback.table)

theorem eraseFile_spec (hw : w.Writes) (h : Ordered w s) (hsv : s.vnodeOf ino = some sv) :
    wp (eraseFile w ino)
      (fun _ s' => if (s.inodeOf ino).sfiLinkcount = 0 then
          Sound w s.Live s' ∧ Shortened s.Live ino (fun _ => True) s s' ∧
            ∀ p : Part, p ≠ .self → s'.part ino p = 0
        else s' = s)
      (fun e s' => (∃ n, e = .errno n) ∧ (s.inodeOf ino).sfiLinkcount = 0 ∧ Sound w s.Live s' ∧
        ∃ cut, Shortened s.Live ino cut s s') s := by
  have hinode := inodeOf_loaded hsv
  rw [eraseFile, wp_bind, wp_of_ok (vnode_ok hsv), hinode, wp_ite]
  constructor
  · intro hcount
    simp only [if_pos hcount]
    refine wp_mono ?_ ?_ (sfsItrunc_spec hw h.sound hsv 0)
    · rintro _ s' ⟨hsound, hshort, -, hparts⟩
      have hall : ∀ b, CutBlock (blocklenOf 0) b := by
        intro b
        have hnone : blocklenOf 0 = 0 := by decide
        rw [CutBlock, DirectPast, hnone]
        unfold sfsNdirect
        omega
      have hcut : CutBlock (blocklenOf 0) = fun _ => True := funext fun b => propext (iff_true_intro (hall b))
      exact ⟨hsound, hcut ▸ hshort, hparts (by decide)⟩
    · rintro e s' ⟨he, hsound, hshort, -⟩
      exact ⟨he, hcount, hsound, _, hshort⟩
  · intro hcount
    rw [wp_pure, if_neg hcount]

theorem sfsReclaim_spec (hw : w.Writes) (h : Ordered w s) (hlink : Linked s owed) (howed : owed ino = 0)
    (hsv : s.vnodeOf ino = some sv) (hone : sv.vnRefcount = 1) :
    wp (sfsReclaim w ino) (fun _ s' => Dropped w s ino s')
      (fun e s' => (∃ n, e = .errno n) ∧ Dropped w s ino s') s := by
  have hlive : s.Live ino := live_of_vnodeOf hsv
  have hino := h.sound.ne_noino hlive
  have hrefs : s.refs ino = 1 := (refs_loaded hsv).trans hone
  have hinode := inodeOf_loaded hsv
  rw [sfsReclaim, wp_bind, wp_of_ok (vnode_ok hsv), if_neg (not_not.mpr hone), wp_bind]
  refine wp_mono ?_ ?_ (eraseFile_spec hw h hsv)
  · intro _ s₁ hcase
    split at hcase
    · rename_i hcount
      have hne : ino ≠ sfsRootdirIno := by
        rintro rfl
        exact h.rootLinks hcount
      obtain ⟨hsound, hshort, hparts⟩ := hcase
      have hun := Shortened.untouched h hsound hshort hne
      obtain ⟨sv₁, hsv₁, hsame₁⟩ := vnodeOf_of_faces hshort.table hsv
      rw [wp_bind]
      refine wp_mono ?_ (fun _ _ h => h.elim) (sfsSyncInode_spec hw hun.ordered hsv₁)
      intro _ s₂ hback
      obtain ⟨sv₂, hsv₂, hsame₂⟩ := vnodeOf_of_faces hback.table hsv₁
      have hlive₁ : s₁.Live ino := live_of_vnodeOf hsv₁
      have hlive₂ : s₂.Live ino := live_of_vnodeOf hsv₂
      have hinode₂ : s₂.inodeOf ino = s₁.inodeOf ino := hback.inodes ino hlive₁
      have hcount₂ : sv₂.svI.sfiLinkcount = 0 := by
        rw [← inodeOf_loaded hsv₂, hinode₂, hshort.linkcount, hcount]
      have hused : s₂.Used ino :=
        (hback.untouched.ordered.sound.zero_or_used hlive₂ .self).resolve_left hino
      have hfree : discardInode ino s₂ =
          .ok ⟨⟩ { s₂ with freemap := s₂.freemap.unmark ino.toNat, freemapdirty := true } := by
        rw [discardInode, bind_ok (vnode_ok hsv₂), if_pos hcount₂, vnodeOf_ino hsv₂]
        exact sfsBfree_ok hused.2 (hback.untouched.ordered.sound.lt_nbits hused)
      have hcount₃ : sv₂.vnRefcount = 1 := by rw [hsame₂, hsame₁, hone]
      have hremove : removeVnode ino { s₂ with freemap := s₂.freemap.unmark ino.toNat, freemapdirty := true } =
          .ok ⟨⟩ _ := removeVnode_ok hsv₂ hcount₃
      have hunnamed : ∀ i, ¬ s₂.Names i ino := by
        intro i hi
        refine (hlink.unnamed_iff howed hlive hne hino).mp hcount i ?_
        exact (hun.root.names i ino).mp ((hback.untouched.root.names i ino).mp hi)
      have honDisk : SfsDinode.decode (s₂.disk ino.toNat) = s₂.inodeOf ino := by
        rw [hback.onDisk, hinode₂]
      obtain ⟨hgone, hrefs'⟩ := hback.untouched.ordered.erase hlive₂ hne hunnamed
        (fun p hp => (hback.parts ino hlive₁ p).trans (hparts p hp)) honDisk rfl
      have hrefs₂ : s₂.refs = s.refs :=
        funext fun a => (refs_of_faces hback.table a).trans (refs_of_faces hshort.table a)
      rw [wp_bind, wp_of_ok hfree, wp_of_ok hremove]
      refine ⟨((hun.trans hback.untouched).trans hgone).mono ?_, fun a ha => ?_, .inl ?_⟩
      · rintro a (ha | hmany | hcount')
        · exact ⟨⟨ha, trivial⟩, ha⟩
        · omega
        · exact absurd hcount hcount'
      · rw [hrefs', Function.update_of_ne ha, hrefs₂]
      · rw [hrefs', Function.update_self, hrefs]
    · rename_i hcount
      subst hcase
      rw [wp_bind]
      refine wp_mono ?_ (fun _ _ h => h.elim) (sfsSyncInode_spec hw h hsv)
      intro _ s₂ hback
      obtain ⟨sv₂, hsv₂, hsame₂⟩ := vnodeOf_of_faces hback.table hsv
      have hcount₂ : sv₂.svI.sfiLinkcount ≠ 0 := by
        rw [← inodeOf_loaded hsv₂, hback.inodes ino hlive]
        exact hcount
      have hfree : discardInode ino s₂ = .ok ⟨⟩ s₂ := by
        rw [discardInode, bind_ok (vnode_ok hsv₂), if_neg hcount₂]
        rfl
      have hstay : ino = sfsRootdirIno ∨ ∃ i, s₁.Names i ino := by
        by_cases hroot : ino = sfsRootdirIno
        · exact .inl hroot
        · refine .inr (by_contra fun hnone => hcount ?_)
          exact (hlink.unnamed_iff howed hlive hroot hino).mpr fun i hi => hnone ⟨i, hi⟩
      rw [wp_bind, wp_of_ok hfree]
      refine wp_mono ?_ (fun _ _ h => h.elim) (hback.forget hsv₂ (hsame₂.trans hone) hstay)
      rintro _ s' ⟨hun, hrefs'⟩
      refine ⟨hun.mono fun _ _ => trivial, fun a ha => ?_, .inl ?_⟩
      · rw [hrefs', Function.update_of_ne ha]
      · rw [hrefs', Function.update_self, hrefs]
  · rintro e s' ⟨he, hcount, hsound, cut, hshort⟩
    have hne : ino ≠ sfsRootdirIno := by
      rintro rfl
      exact h.rootLinks hcount
    have hun := Shortened.untouched h hsound hshort hne
    refine ⟨he, hun.mono ?_, fun a _ => refs_of_faces hshort.table a, .inr ⟨hrefs, ?_, hcount⟩⟩
    · rintro a (ha | hmany | hcount')
      · exact ha
      · omega
      · exact absurd hcount hcount'
    · rw [refs_of_faces hshort.table, hrefs]

theorem vnodeDecref_spec (hw : w.Writes) (h : Ordered w s) (hlink : Linked s owed) (howed : owed ino = 0)
    (hsv : s.vnodeOf ino = some sv) :
    wp (vnodeDecref w ino) (fun _ s' => Dropped w s ino s') (fun _ _ => False) s := by
  have hpos := h.counted sv (mem_of_vnodeOf hsv)
  have hrefs := refs_loaded hsv
  rw [vnodeDecref, wp_bind, wp_of_ok (vnode_ok hsv), if_neg hpos.ne', wp_ite]
  constructor
  · intro hmany
    obtain ⟨hun, hrefs'⟩ := h.recount hsv (f := (· - 1)) (Nat.sub_pos_of_lt hmany) rfl
    show Dropped w s ino _
    refine ⟨hun.mono fun _ _ => trivial, fun a ha => ?_, .inl ?_⟩
    · rw [hrefs', Function.update_of_ne ha]
    · rw [hrefs', Function.update_self]
  · intro hlast
    have hone : sv.vnRefcount = 1 := by omega
    rw [wp_tryCatch]
    refine wp_mono (fun _ _ h => h) ?_ (sfsReclaim_spec hw h hlink howed hsv hone)
    rintro _ s' ⟨⟨n, rfl⟩, hdropped⟩
    exact hdropped

end UnionCollegeCode.OS161.Sfs
