import UnionCollegeCode.Lib.KeyedList
import UnionCollegeCode.OS161.Sfs.Slots

/-!
# What happens to the table of vnodes

A vnode is put in the table with its inode as it is on disk, and leaves it when the inode has been
written back. Nobody can tell from the files.
-/

set_option autoImplicit false

namespace UnionCollegeCode.OS161.Sfs

open Function (update)
open Lib (KeyedList.lookup KeyedList.remove)
open Lib.EState
open SfsFs

variable {w : World} {s s' s₀ s₁ s₂ : SfsFs} {ino a : UInt32} {sv : SfsVnode} {owed : UInt32 → ℤ}
  {keep keep' : UInt32 → Prop}

/-- The contents of a file. -/
structure SameData (s s' : SfsFs) (ino : UInt32) : Prop where
  size : s'.fileSize ino = s.fileSize ino
  bytes : s'.byteAt ino = s.byteAt ino

theorem SameData.trans (h : SameData s s₁ a) (h' : SameData s₁ s₂ a) : SameData s s₂ a :=
  ⟨h'.size.trans h.size, h'.bytes.trans h.bytes⟩

/-- The directory is as it was, and so are the files to keep. -/
structure Intact (w : World) (s : SfsFs) (keep : UInt32 → Prop) (s' : SfsFs) : Prop where
  ordered : Ordered w s'
  root : SameRoot s s'
  live : ∀ a, s'.Live a → s.Live a
  linkcounts : ∀ a, s'.Live a → (s'.inodeOf a).sfiLinkcount = (s.inodeOf a).sfiLinkcount
  same : ∀ a, s.Live a → keep a → SameData s s' a ∧ s'.Live a

/-- Nor has the superblock or the free map on disk been written. -/
structure Untouched (w : World) (s : SfsFs) (keep : UInt32 → Prop) (s' : SfsFs) : Prop
    extends Intact w s keep s' where
  fixed : SameMeta s s'

/-- The files to keep are as they were, and the others have their type and links. -/
theorem Ordered.intact_of (h : Ordered w s) (hsound : Sound w s.Live s') (hroot : keep sfsRootdirIno)
    (hbytes : ∀ a, s.Live a → keep a → s'.byteAt a = s.byteAt a)
    (hattrs : ∀ a, s.Live a → keep a → (s'.inodeOf a).attrs = (s.inodeOf a).attrs)
    (htypes : ∀ a, s.Live a → (s'.inodeOf a).sfiType = (s.inodeOf a).sfiType)
    (hcounts : ∀ a, s.Live a → (s'.inodeOf a).sfiLinkcount = (s.inodeOf a).sfiLinkcount)
    (htable : s'.vnodes.map SfsVnode.face = s.vnodes.map SfsVnode.face)
    (hblocks : s'.sbNblocks = s.sbNblocks) : Intact w s keep s' := by
  have hsame : SameRoot s s' := ⟨hbytes _ live_root hroot, hattrs _ live_root hroot⟩
  have hlives := hsame.live_eq htable
  refine ⟨h.transport hsound hsame htable hblocks htypes, hsame, fun a ha => hlives ▸ ha,
    fun a ha => hcounts a (hlives ▸ ha), fun a ha hkeep => ?_⟩
  have hsize := congrArg (fun a => a.1.toNat) (hattrs a ha hkeep)
  exact ⟨⟨hsize, hbytes a ha hkeep⟩, hlives.symm ▸ ha⟩

theorem Kept.untouched (h : Ordered w s) (hkept : Kept w s.Live s s') :
    Untouched w s (fun _ => True) s' :=
  ⟨h.intact_of hkept.sound trivial (fun _ ha _ => hkept.byteAt ha) (fun a ha _ => hkept.same.attrs a ha)
    (fun a ha => congrArg (fun a => a.2.1) (hkept.same.attrs a ha))
    (fun a ha => congrArg (fun a => a.2.2) (hkept.same.attrs a ha)) hkept.same.table hkept.same.fixed.blocks,
    hkept.same.fixed⟩

theorem Intact.linked (h : Intact w s keep s') (hlink : Linked s owed) : Linked s' owed := by
  intro a ha hne
  rw [h.linkcounts a ha, h.root.links]
  exact hlink a (h.live a ha) hne

theorem SameRoot.trans (h : SameRoot s s₁) (h' : SameRoot s₁ s₂) : SameRoot s s₂ :=
  ⟨h'.bytes.trans h.bytes, h'.attrs.trans h.attrs⟩

theorem Intact.trans (h : Intact w s keep s₁) (h' : Intact w s₁ keep' s₂) :
    Intact w s (fun a => keep a ∧ keep' a) s₂ := by
  refine ⟨h'.ordered, h.root.trans h'.root, fun a ha => h.live a (h'.live a ha), fun a ha => ?_,
    fun a ha hkeep => ?_⟩
  · exact (h'.linkcounts a ha).trans (h.linkcounts a (h'.live a ha))
  · obtain ⟨hsame, hlive⟩ := h.same a ha hkeep.1
    obtain ⟨hsame', hlive'⟩ := h'.same a hlive hkeep.2
    exact ⟨hsame.trans hsame', hlive'⟩

theorem Intact.mono (h : Intact w s keep s') (hkeep : ∀ a, keep' a → keep a) : Intact w s keep' s' :=
  ⟨h.ordered, h.root, h.live, h.linkcounts, fun a ha hk => h.same a ha (hkeep a hk)⟩

theorem Untouched.trans (h : Untouched w s keep s₁) (h' : Untouched w s₁ keep' s₂) :
    Untouched w s (fun a => keep a ∧ keep' a) s₂ :=
  ⟨h.toIntact.trans h'.toIntact, h.fixed.trans h'.fixed⟩

theorem Untouched.mono (h : Untouched w s keep s') (hkeep : ∀ a, keep' a → keep a) :
    Untouched w s keep' s' := ⟨h.toIntact.mono hkeep, h.fixed⟩

/-! ## The table changes and the inodes stay -/

theorem vnodeOf_of_mem (hnodup : (s.vnodes.map SfsVnode.svIno).Nodup) (hsv : sv ∈ s.vnodes) :
    s.vnodeOf sv.svIno = some sv := Lib.KeyedList.lookup_of_mem hnodup hsv

theorem isSome_of_mem (hsv : sv ∈ s.vnodes) : (s.vnodeOf sv.svIno).isSome :=
  List.find?_isSome.mpr ⟨sv, hsv, by simp⟩

theorem part_of_inode (hdisk : s'.disk = s.disk) (hinode : s'.inodeOf a = s.inodeOf a) (p : Part) :
    s'.part a p = s.part a p := part_congr hinode (fun _ => by rw [hdisk]) p

theorem byteAt_of_inode (hdisk : s'.disk = s.disk) (hinode : s'.inodeOf a = s.inodeOf a) :
    s'.byteAt a = s.byteAt a :=
  funext (byteAt_congr fun p _ => .inl ⟨part_of_inode hdisk hinode p, fun _ => by rw [hdisk]⟩)

/-- The table of `s'` is another one, and that is all that can be told of the disk. -/
structure Retabled (s s' : SfsFs) : Prop where
  disk : s'.disk = s.disk
  map : s.freemap.Same s'.freemap
  blocks : s'.sbNblocks = s.sbNblocks
  inodes : ∀ a, s.Live a → s'.inodeOf a = s.inodeOf a
  nodup : (s'.vnodes.map SfsVnode.svIno).Nodup
  counted : ∀ sv ∈ s'.vnodes, 0 < sv.vnRefcount
  synced : Synced s'
  came : ∀ a, (s'.vnodeOf a).isSome → s.Live a
  went : ∀ a, (s.vnodeOf a).isSome → s'.Live a

namespace Retabled

theorem sameRoot (h : Retabled s s') : SameRoot s s' :=
  ⟨byteAt_of_inode h.disk (h.inodes _ live_root), congrArg SfsDinode.attrs (h.inodes _ live_root)⟩

theorem live_eq (h : Retabled s s') : s'.Live = s.Live := by
  have hnames := h.sameRoot.names
  funext a
  refine propext ⟨?_, ?_⟩
  · rintro (rfl | hloaded | ⟨i, hi⟩)
    · exact live_root
    · exact h.came a hloaded
    · exact live_of_names ((hnames i a).mp hi)
  · rintro (rfl | hloaded | ⟨i, hi⟩)
    · exact live_root
    · exact h.went a hloaded
    · exact live_of_names ((hnames i a).mpr hi)

theorem intact (h : Retabled s s') (hord : Ordered w s) : Intact w s (fun _ => True) s' := by
  have hlive := h.live_eq
  have hsound : Sound w s'.Live s' := by
    rw [hlive]
    refine ⟨hord.sound.accounted.congr ?_ ?_, h.map.closed, ?_, ?_, ?_, ?_, h.synced, hord.sound.zero⟩
    · rintro ⟨a, p⟩ v
      unfold Holds
      refine and_congr_right fun ha => ?_
      rw [part_of_inode h.disk (h.inodes a ha)]
    · intro v
      rw [Used, h.blocks, Used]
      refine and_congr_right fun hordinary => h.map.bits _ ?_
      exact Nat.lt_of_lt_of_le hordinary.1 hord.sound.nbits
    · rw [h.blocks, h.map.nbits]
      exact hord.sound.bits
    · rw [h.blocks, h.map.nbits]
      exact fun i hi hnot => (h.map.bits i hi).mpr (hord.sound.reserved i hi hnot)
    · exact fun sv hsv => h.came _ (isSome_of_mem hsv)
    · rw [h.blocks]
      exact hord.sound.device
  refine ⟨hord.remake hsound h.sameRoot h.nodup h.counted h.blocks ?_, h.sameRoot,
    fun a ha => hlive ▸ ha, fun a ha => ?_, fun a ha _ => ?_⟩
  · intro a ha hne
    rw [hlive] at ha
    rw [h.inodes a ha]
    exact hord.file a ha hne
  · rw [h.inodes a (hlive ▸ ha)]
  · refine ⟨⟨?_, byteAt_of_inode h.disk (h.inodes a ha)⟩, hlive.symm ▸ ha⟩
    rw [fileSize, h.inodes a ha, fileSize]

end Retabled

/-! ## References -/

theorem refs_loaded (h : s.vnodeOf ino = some sv) : s.refs ino = sv.vnRefcount := by
  rw [refs, h]

/-- The number of references to a vnode has changed, but not to nothing. -/
theorem Ordered.recount (h : Ordered w s) (hsv : s.vnodeOf ino = some sv) {f : ℕ → ℕ}
    (hf : 0 < f sv.vnRefcount)
    (hs' : s' = s.modifyVnode ino fun sv => { sv with vnRefcount := f sv.vnRefcount }) :
    Untouched w s (fun _ => True) s' ∧ s'.refs = update s.refs ino (f (s.refs ino)) := by
  have hkey : ∀ sv : SfsVnode, ({ sv with vnRefcount := f sv.vnRefcount } : SfsVnode).svIno = sv.svIno :=
    fun _ => rfl
  have hvnodeOf := fun a => @vnodeOf_modifyVnode s ino _ hkey a
  have hinos : s'.vnodes.map SfsVnode.svIno = s.vnodes.map SfsVnode.svIno := by
    rw [hs', modifyVnode, List.map_map]
    refine List.map_congr_left fun sv _ => ?_
    rw [Function.comp]
    split <;> rfl
  have hloaded : ∀ a, (s'.vnodeOf a).isSome = (s.vnodeOf a).isSome := by
    intro a
    rw [hs', hvnodeOf, Option.isSome_map]
  have hinode : ∀ a, s'.inodeOf a = s.inodeOf a := by
    intro a
    rw [hs', inodeOf, hvnodeOf, inodeOf]
    cases s.vnodeOf a with
    | none => rfl
    | some sv =>
      dsimp only [Option.map]
      split <;> rfl
  have hback : ∀ sv' ∈ s'.vnodes, ∃ sv₀ ∈ s.vnodes,
      sv' = if sv₀.svIno = ino then { sv₀ with vnRefcount := f sv₀.vnRefcount } else sv₀ := by
    intro sv' hsv'
    rw [hs'] at hsv'
    obtain ⟨sv₀, hsv₀, rfl⟩ := List.mem_map.mp hsv'
    exact ⟨sv₀, hsv₀, rfl⟩
  have htable : Retabled s s' := by
    refine ⟨hs' ▸ rfl, hs' ▸ .refl h.sound.closed, hs' ▸ rfl, fun a _ => hinode a, hinos ▸ h.nodup,
      ?_, ?_, ?_, ?_⟩
    · intro sv' hsv'
      obtain ⟨sv₀, hsv₀, rfl⟩ := hback sv' hsv'
      split
      · rename_i hino
        have hsame : s.vnodeOf ino = some sv₀ := hino ▸ vnodeOf_of_mem h.nodup hsv₀
        obtain rfl : sv = sv₀ := Option.some.inj (hsv.symm.trans hsame)
        exact hf
      · exact h.counted sv₀ hsv₀
    · intro sv' hsv' hclean
      obtain ⟨sv₀, hsv₀, rfl⟩ := hback sv' hsv'
      rw [hs']
      split at hclean
      · rename_i hino
        rw [if_pos hino]
        exact h.sound.synced sv₀ hsv₀ hclean
      · rename_i hino
        rw [if_neg hino]
        exact h.sound.synced sv₀ hsv₀ hclean
    · intro a ha
      rw [hloaded] at ha
      exact .inr (.inl ha)
    · intro a ha
      rw [← hloaded] at ha
      exact .inr (.inl ha)
  have hfixed : SameMeta s s' := hs' ▸ ⟨rfl, rfl, fun _ _ => rfl, fun h => ⟨h, rfl⟩⟩
  refine ⟨⟨htable.intact h, hfixed⟩, funext fun a => ?_⟩
  rw [hs', refs, hvnodeOf]
  by_cases ha : a = ino
  · subst ha
    rw [hsv, Function.update_self, refs_loaded hsv]
    dsimp only [Option.map]
    rw [if_pos rfl]
  · rw [Function.update_of_ne ha, refs]
    simp only [if_neg ha, Option.map_id']

/-! ## An inode is written back -/

/-- What the disk says of an inode is what the kernel says. -/
structure WrittenBack (w : World) (s : SfsFs) (ino : UInt32) (s' : SfsFs) : Prop where
  untouched : Untouched w s (fun _ => True) s'
  table : s'.vnodes.map SfsVnode.face = s.vnodes.map SfsVnode.face
  inodes : ∀ a, s.Live a → s'.inodeOf a = s.inodeOf a
  parts : ∀ a, s.Live a → ∀ p, s'.part a p = s.part a p
  onDisk : SfsDinode.decode (s'.disk ino.toNat) = s.inodeOf ino
  dirty : ∀ a, s'.Dirty a → a ≠ ino ∧ s.Dirty a

/-- The disk when the inode has been written. -/
theorem Ordered.write_back (h : Ordered w s) (hsv : s.vnodeOf ino = some sv) {tick : ℕ}
    (hs₁ : s₁ = { s with disk := update s.disk ino.toNat sv.svI.encode, tick := tick })
    (hs' : s' = s₁.modifyVnode ino fun sv => { sv with svDirty := false }) :
    WrittenBack w s ino s' := by
  have hlive : s.Live ino := live_of_vnodeOf hsv
  have hne : ino ≠ 0 := h.sound.ne_noino hlive
  have hother := h.sound.holder_alone hlive (q := .self) rfl hne
  have hkey : ∀ sv : SfsVnode, ({ sv with svDirty := false } : SfsVnode).svIno = sv.svIno := fun _ => rfl
  have hvnodeOf : ∀ a, s'.vnodeOf a =
      (s.vnodeOf a).map fun sv => if a = ino then { sv with svDirty := false } else sv := by
    intro a
    rw [hs', vnodeOf_modifyVnode hkey, hs₁]
    rfl
  have hdisk : s'.disk = update s.disk ino.toNat sv.svI.encode := by
    rw [hs', hs₁]
    rfl
  have htable : s'.vnodes.map SfsVnode.face = s.vnodes.map SfsVnode.face := by
    rw [hs', modifyVnode, hs₁, List.map_map]
    refine List.map_congr_left fun sv _ => ?_
    rw [Function.comp]
    split <;> rfl
  have hfar : ∀ {b : UInt32}, b ≠ ino → s'.disk b.toNat = s.disk b.toNat := by
    intro b hb
    rw [hdisk, Function.update_of_ne]
    exact fun heq => hb (UInt32.toNat_inj.mp heq)
  have hinodes : ∀ a, s'.inodeOf a = s.inodeOf a := by
    intro a
    rw [inodeOf, hvnodeOf, inodeOf]
    cases hsv' : s.vnodeOf a with
    | none =>
      have ha : a ≠ ino := by
        rintro rfl
        rw [hsv] at hsv'
        cases hsv'
      exact congrArg SfsDinode.decode (hfar ha)
    | some sv' =>
      dsimp only [Option.map]
      split <;> rfl
  have hparts : ∀ a, s.Live a → ∀ p, s'.part a p = s.part a p := by
    intro a ha p
    exact part_congr (hinodes a) (fun _ => hfar (hother a ha .indirect (by simp))) p
  have hsynced : Synced s' := by
    intro sv' hsv' hclean
    rw [hs', modifyVnode, hs₁] at hsv'
    obtain ⟨sv₀, hsv₀, rfl⟩ := List.mem_map.mp hsv'
    have hsame := vnodeOf_of_mem h.nodup hsv₀
    by_cases hino : sv₀.svIno = ino
    · rw [hino, hsv] at hsame
      obtain rfl := Option.some.inj hsame
      rw [if_pos hino]
      show SfsDinode.decode (s'.disk sv.svIno.toNat) = sv.svI
      rw [hino, hdisk, Function.update_self, SfsDinode.decode_encode]
    · rw [if_neg hino] at hclean ⊢
      rw [hfar hino]
      exact h.sound.synced sv₀ hsv₀ hclean
  have hsound : Sound w s.Live s' := by
    refine ⟨h.sound.accounted.congr ?_ fun v => ?_, ?_, ?_, ?_, ?_, ?_, hsynced, h.sound.zero⟩
    · rintro ⟨a, p⟩ v
      unfold Holds
      refine and_congr_right fun ha => ?_
      rw [hparts a ha]
    all_goals rw [hs', hs₁]
    · exact Iff.rfl
    · exact h.sound.closed
    · exact h.sound.bits
    · exact h.sound.reserved
    · intro sv' hsv'
      obtain ⟨sv₀, hsv₀, rfl⟩ := List.mem_map.mp hsv'
      have hkeep : (if sv₀.svIno = ino then { sv₀ with svDirty := false } else sv₀).svIno = sv₀.svIno := by
        split <;> rfl
      rw [hkeep]
      exact h.sound.loaded sv₀ hsv₀
    · exact h.sound.device
  have hbytes : ∀ a, s.Live a → s'.byteAt a = s.byteAt a := by
    intro a ha
    refine funext (byteAt_congr fun p hp => .inl ⟨hparts a ha p, fun _ => hfar (hother a ha p ?_)⟩)
    intro heq
    cases heq
    exact hp
  have hused : s.Used ino := (h.sound.zero_or_used hlive .self).resolve_left hne
  have hfixed : SameMeta s s' := by
    refine .of_write hused.1 ?_ ?_ hdisk ?_
    all_goals rw [hs', hs₁]
    · rfl
    · rfl
    · exact fun h => ⟨h, rfl⟩
  refine ⟨⟨h.intact_of hsound trivial (fun a ha _ => hbytes a ha) (fun a _ _ => by rw [hinodes a])
    (fun a _ => by rw [hinodes a]) (fun a _ => by rw [hinodes a]) htable hfixed.blocks, hfixed⟩, htable,
    fun a _ => hinodes a, hparts, ?_, ?_⟩
  · rw [hdisk, Function.update_self, SfsDinode.decode_encode, inodeOf_loaded hsv]
  · rintro a ⟨sv', hsv', hdirty⟩
    rw [hvnodeOf] at hsv'
    obtain ⟨sv₀, hsv₀, rfl⟩ := Option.map_eq_some_iff.mp hsv'
    split at hdirty
    · cases hdirty
    · rename_i hne'
      exact ⟨hne', sv₀, hsv₀, hdirty⟩

theorem sfsSyncInode_spec (hw : w.Writes) (h : Ordered w s) (hsv : s.vnodeOf ino = some sv) :
    wp (sfsSyncInode w ino) (fun _ s' => WrittenBack w s ino s') (fun _ _ => False) s := by
  have hlive : s.Live ino := live_of_vnodeOf hsv
  have hino := vnodeOf_ino hsv
  rw [sfsSyncInode, wp_bind, wp_of_ok (vnode_ok hsv), wp_ite]
  constructor
  · intro _
    have hused : s.Used ino := (h.sound.zero_or_used hlive .self).resolve_left (h.sound.ne_noino hlive)
    obtain ⟨tick, hrun⟩ := sfsWriteblock_spec hw (h.sound.lt_device hused) sv.svI.encode (s := s)
    rw [hino, wp_bind, wp_of_ok hrun, wp_modify]
    exact h.write_back hsv rfl rfl
  · intro hclean
    have hsame := h.sound.synced sv (mem_of_vnodeOf hsv) (Bool.eq_false_of_not_eq_true hclean)
    rw [wp_pure]
    refine ⟨h.sound.kept.untouched h, rfl, fun _ _ => rfl, fun _ _ _ => rfl, ?_, fun a hdirty => ⟨?_, hdirty⟩⟩
    · rw [inodeOf_loaded hsv, ← hino]
      exact hsame
    · rintro rfl
      obtain ⟨sv', hsv', hdirty⟩ := hdirty
      obtain rfl := Option.some.inj (hsv.symm.trans hsv')
      exact hclean hdirty

end UnionCollegeCode.OS161.Sfs
