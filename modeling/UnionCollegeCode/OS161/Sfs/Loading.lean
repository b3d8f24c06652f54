import UnionCollegeCode.OS161.Sfs.Reclaim

/-!
# What `sfs_loadvnode` and `sfs_makeobj` do

A vnode that is in the table gets one more reference, one that is not is read from the disk. A new
inode is a block that nobody owned, cleared, with a type and no links.
-/

set_option autoImplicit false

namespace UnionCollegeCode.OS161.Sfs

open Function (update)
open Lib.EState
open SfsFs

variable {w : World} {s s' s₁ s₂ : SfsFs} {ino a b : UInt32} {sv : SfsVnode} {t : UInt16}
  {live : UInt32 → Prop}

theorem loaded_of_refs (h : 0 < s.refs ino) : ∃ sv, s.vnodeOf ino = some sv := by
  unfold refs at h
  split at h
  · rename_i sv hsv
    exact ⟨sv, hsv⟩
  · cases h

/-! ## The search of the table -/

theorem vnodeIncref_ok (hsv : s.vnodeOf ino = some sv) :
    vnodeIncref ino s =
      .ok ⟨⟩ (s.modifyVnode ino fun sv => { sv with vnRefcount := sv.vnRefcount + 1 }) := by
  rw [vnodeIncref, bind_ok (vnode_ok hsv)]
  rfl

theorem loadSearch_absent (svs : List SfsVnode) (hused : ∀ sv ∈ svs, s.Used sv.svIno)
    (habsent : ∀ sv ∈ svs, sv.svIno ≠ ino) : loadSearch ino t svs s = .ok false s := by
  induction svs with
  | nil => rfl
  | cons sv svs ih =>
    have hhead : sv.svIno ≠ ino := habsent sv List.mem_cons_self
    rw [loadSearch, bind_ok (sfsBused_ok (hused sv List.mem_cons_self)), if_neg nofun, if_neg hhead]
    exact ih (fun sv hsv => hused sv (List.mem_cons_of_mem _ hsv))
      fun sv hsv => habsent sv (List.mem_cons_of_mem _ hsv)

theorem loadSearch_found (hsv : s.vnodeOf ino = some sv) (svs : List SfsVnode)
    (hused : ∀ sv ∈ svs, s.Used sv.svIno) (hfound : ∃ sv ∈ svs, sv.svIno = ino) :
    loadSearch ino sfsTypeInval svs s =
      .ok true (s.modifyVnode ino fun sv => { sv with vnRefcount := sv.vnRefcount + 1 }) := by
  induction svs with
  | nil =>
    obtain ⟨_, hmem, -⟩ := hfound
    cases hmem
  | cons sv' svs ih =>
    rw [loadSearch, bind_ok (sfsBused_ok (hused sv' List.mem_cons_self)), if_neg nofun]
    by_cases hhead : sv'.svIno = ino
    · rw [if_pos hhead, if_neg (not_not.mpr rfl), bind_ok (vnodeIncref_ok hsv)]
      rfl
    · obtain ⟨sv₁, hmem, hino⟩ := hfound
      rw [if_neg hhead]
      refine ih (fun sv hsv => hused sv (List.mem_cons_of_mem _ hsv)) ⟨sv₁, ?_, hino⟩
      refine (List.mem_cons.mp hmem).resolve_left ?_
      rintro rfl
      exact hhead hino

theorem Sound.used_of_mem (h : Sound w live s) (hsv : sv ∈ s.vnodes) :
    s.Used sv.svIno := by
  have hlive := h.loaded sv hsv
  exact (h.zero_or_used hlive .self).resolve_left (h.ne_noino hlive)

theorem ne_of_vnodeOf_none (h : s.vnodeOf ino = none) (hsv : sv ∈ s.vnodes) : sv.svIno ≠ ino := by
  rintro rfl
  have hsome := isSome_of_mem hsv
  rw [h] at hsome
  cases hsome

/-! ## A vnode is put in the table -/

section Append

variable {d : SfsDinode} {dirty : Bool} {n : ℕ} (hnone : s.vnodeOf ino = none)
  (hvnodes : s'.vnodes = s.vnodes ++ [⟨ino, d, dirty, n⟩])

include hnone hvnodes

theorem vnodeOf_append (a : UInt32) :
    s'.vnodeOf a = if a = ino then some ⟨ino, d, dirty, n⟩ else s.vnodeOf a := by
  rw [vnodeOf, hvnodes]
  split
  · rename_i heq
    rw [heq]
    exact Lib.KeyedList.lookup_append_self (r := (⟨ino, d, dirty, n⟩ : SfsVnode)) hnone
  · rename_i hne
    exact Lib.KeyedList.lookup_append_of_ne (r := (⟨ino, d, dirty, n⟩ : SfsVnode)) hne

theorem refs_append : s'.refs = update s.refs ino n := by
  funext a
  rw [refs, vnodeOf_append hnone hvnodes]
  by_cases ha : a = ino
  · rw [if_pos ha, ha, Function.update_self]
  · rw [if_neg ha, Function.update_of_ne ha, refs]

theorem nodup_append (hnodup : (s.vnodes.map SfsVnode.svIno).Nodup) :
    (s'.vnodes.map SfsVnode.svIno).Nodup := by
  rw [hvnodes]
  exact Lib.KeyedList.nodup_append hnodup hnone

omit hnone in
theorem counted_append (hn : 0 < n) (hcounted : ∀ sv ∈ s.vnodes, 0 < sv.vnRefcount) :
    ∀ sv ∈ s'.vnodes, 0 < sv.vnRefcount := by
  intro sv hsv
  rw [hvnodes] at hsv
  rcases List.mem_append.mp hsv with hsv | hsv
  · exact hcounted sv hsv
  · rw [List.mem_singleton.mp hsv]
    exact hn

omit hnone in
theorem synced_append (h : Synced s) (hdisk : s'.disk = s.disk)
    (hclean : dirty = false → SfsDinode.decode (s.disk ino.toNat) = d) : Synced s' := by
  intro sv hsv hdirty
  rw [hdisk]
  rw [hvnodes] at hsv
  rcases List.mem_append.mp hsv with hsv | hsv
  · exact h sv hsv hdirty
  · obtain rfl := List.mem_singleton.mp hsv
    exact hclean hdirty

end Append

/-- A vnode has one reference more. -/
structure Loaded (w : World) (s : SfsFs) (ino : UInt32) (s' : SfsFs) : Prop where
  untouched : Untouched w s (fun _ => True) s'
  refs : s'.refs = update s.refs ino (s.refs ino + 1)

theorem Ordered.load (h : Ordered w s) (hnone : s.vnodeOf ino = none) (hlive : s.Live ino) {tick : ℕ}
    (hs' : s' = { s with vnodes := s.vnodes ++ [⟨ino, s.inodeOf ino, false, 1⟩], tick := tick }) :
    Loaded w s ino s' := by
  have hvnodes : s'.vnodes = s.vnodes ++ [⟨ino, s.inodeOf ino, false, 1⟩] := hs' ▸ rfl
  have hdisk : s'.disk = s.disk := hs' ▸ rfl
  have hvnodeOf := vnodeOf_append hnone hvnodes
  have honDisk : s.inodeOf ino = .decode (s.disk ino.toNat) := by rw [inodeOf, hnone]
  have hinode : ∀ a, s'.inodeOf a = s.inodeOf a := by
    intro a
    rw [inodeOf, hvnodeOf, hdisk]
    by_cases ha : a = ino
    · rw [if_pos ha, ha]
    · rw [if_neg ha, inodeOf]
  have hzero : s.refs ino = 0 := by rw [refs, hnone]
  have hfixed : SameMeta s s' := hs' ▸ ⟨rfl, rfl, fun _ _ => rfl, fun h => ⟨h, rfl⟩⟩
  refine ⟨⟨Retabled.intact ⟨hdisk, hs' ▸ .refl h.sound.closed, hfixed.blocks, fun a _ => hinode a,
    nodup_append hnone hvnodes h.nodup, counted_append hvnodes (Nat.lt_succ_self 0) h.counted,
    synced_append hvnodes h.sound.synced hdisk fun _ => honDisk.symm, fun a ha => ?_,
    fun a ha => ?_⟩ h, hfixed⟩, ?_⟩
  · rw [hvnodeOf] at ha
    split at ha
    · rename_i heq
      exact heq ▸ hlive
    · exact .inr (.inl ha)
  · refine .inr (.inl ?_)
    rw [hvnodeOf]
    split
    · rfl
    · exact ha
  · rw [refs_append hnone hvnodes, hzero]

/-- What is read from the disk is put in the table, with the type it is given. -/
theorem loadFresh_spec (hused : s.Used ino) (hdevice : ino < w.dBlocks) {d : SfsDinode} {dirty : Bool}
    (hforce : forceType (.decode (s.disk ino.toNat)) t = pure (d, dirty))
    (htype : d.sfiType = sfsTypeFile ∨ d.sfiType = sfsTypeDir) :
    wp (loadFresh w ino t)
      (fun _ s' => ∃ tick, s' = { s with vnodes := s.vnodes ++ [⟨ino, d, dirty, 1⟩], tick := tick })
      (fun e s' => (∃ n, e = .errno n) ∧ Later s s') s := by
  have hvalid : ¬ (d.sfiType ≠ sfsTypeFile ∧ d.sfiType ≠ sfsTypeDir) :=
    fun hnot => htype.elim hnot.1 hnot.2
  rw [loadFresh, wp_bind, wp_ask, wp_ite]
  constructor
  · exact fun _ => ⟨⟨_, rfl⟩, ⟨_, rfl⟩⟩
  · intro _
    have hused' : ({ s with tick := s.tick + 1 } : SfsFs).Used ino := hused
    rw [wp_bind, wp_of_ok (sfsBused_ok hused'), if_neg nofun, wp_bind]
    refine wp_mono ?_ ?_ (sfsReadblock_spec hdevice)
    · rintro data s₁ ⟨rfl, tick, rfl⟩
      rw [hforce, wp_bind, wp_pure]
      dsimp only
      rw [if_neg hvalid, wp_bind, wp_ask, wp_ite]
      constructor
      · exact fun _ => ⟨⟨_, rfl⟩, ⟨_, rfl⟩⟩
      · intro _
        rw [wp_modify]
        exact ⟨_, rfl⟩
    · rintro e s₁ ⟨he, hlater⟩
      exact ⟨he, .trans ⟨_, rfl⟩ hlater⟩

theorem sfsLoadvnode_spec (h : Ordered w s) (hlive : s.Live ino) :
    wp (sfsLoadvnode w ino sfsTypeInval) (fun _ s' => Loaded w s ino s') (Denied w s) s := by
  have hused : s.Used ino := (h.sound.zero_or_used hlive .self).resolve_left (h.sound.ne_noino hlive)
  have hall : ∀ sv ∈ s.vnodes, s.Used sv.svIno := fun sv hsv => h.sound.used_of_mem hsv
  rw [sfsLoadvnode, wp_bind, wp_get, wp_bind]
  cases hsv : s.vnodeOf ino with
  | some sv =>
    rw [wp_of_ok (loadSearch_found hsv s.vnodes hall ⟨sv, mem_of_vnodeOf hsv, vnodeOf_ino hsv⟩),
      if_pos rfl, wp_pure]
    obtain ⟨hun, hrefs⟩ := h.recount hsv (f := (· + 1)) (Nat.succ_pos _) rfl
    exact ⟨hun, hrefs⟩
  | none =>
    rw [wp_of_ok (loadSearch_absent s.vnodes hall fun sv hsv' => ne_of_vnodeOf_none hsv hsv'),
      if_neg nofun]
    have honDisk : s.inodeOf ino = .decode (s.disk ino.toNat) := by rw [inodeOf, hsv]
    have htype : (s.inodeOf ino).sfiType = sfsTypeFile ∨ (s.inodeOf ino).sfiType = sfsTypeDir := by
      by_cases hroot : ino = sfsRootdirIno
      · rw [hroot]
        exact .inr h.rootType
      · exact .inl (h.file ino hlive hroot)
    have hforce : forceType (.decode (s.disk ino.toNat)) sfsTypeInval = pure (s.inodeOf ino, false) := by
      rw [forceType, if_pos rfl, honDisk]
    refine wp_mono ?_ ?_ (loadFresh_spec hused (h.sound.lt_device hused) hforce htype)
    · rintro _ s' ⟨tick, hs'⟩
      exact h.load hsv hlive hs'
    · rintro e s' ⟨he, hlater⟩
      exact ⟨he, h.sound.kept_later hlater⟩

theorem sfsGetroot_spec (h : Ordered w s) :
    wp (sfsGetroot w) (fun ino s' => ino = sfsRootdirIno ∧ Loaded w s sfsRootdirIno s') (Denied w s) s := by
  rw [sfsGetroot, wp_bind]
  refine wp_mono ?_ (fun _ _ h => h) (sfsLoadvnode_spec h live_root)
  intro _ s' hloaded
  have hpos : 0 < s'.refs sfsRootdirIno := by
    rw [hloaded.refs, Function.update_self]
    exact Nat.succ_pos _
  obtain ⟨sv, hsv⟩ := loaded_of_refs hpos
  have htype : sv.svI.sfiType = sfsTypeDir := by
    rw [← inodeOf_loaded hsv]
    exact hloaded.untouched.ordered.rootType
  rw [wp_bind, wp_of_ok (vnode_ok hsv), if_neg (not_not.mpr htype), wp_pure]
  exact ⟨rfl, hloaded⟩

/-! ## A new inode -/

/-- A block that nobody holds has been written to, and is as free as before. -/
theorem Sound.kept_of_fresh (h : Sound w live s) (hb : Fresh s b) {data : Block} {tick : ℕ}
    {freemap : Bitmap} (hset : ∀ i, freemap.isSet i ↔ s.freemap.isSet i)
    (hnbits : freemap.nbits = s.freemap.nbits)
    (hs' : s' = { s with
      freemap := freemap
      freemapdirty := true
      disk := update s.disk b.toNat data
      tick := tick }) : Kept w live s s' := by
  have hvnodes : s'.vnodes = s.vnodes := hs' ▸ rfl
  have hdisk : s'.disk = update s.disk b.toNat data := hs' ▸ rfl
  have hmap : s'.freemap = freemap := hs' ▸ rfl
  have hblocks : s'.sbNblocks = s.sbNblocks := hs' ▸ rfl
  have hpart : ∀ a, live a → ∀ p, s'.part a p = s.part a p := fun a ha =>
    part_of_write hvnodes hdisk (h.part_ne_fresh hb ha)
  have hfar : ∀ a, live a → ∀ p, s'.disk (s.part a p).toNat = s.disk (s.part a p).toNat := by
    intro a ha p
    rw [hdisk, Function.update_of_ne]
    exact fun heq => h.part_ne_fresh hb ha p (UInt32.toNat_inj.mp heq)
  have hinode : ∀ a, live a → s'.inodeOf a = s.inodeOf a := fun a ha =>
    inodeOf_of_write hvnodes hdisk (.inr (h.part_ne_fresh hb ha .self))
  have hsound : Sound w live s' := by
    refine ⟨h.accounted.congr ?_ fun v => ?_, ?_, ?_, ?_, ?_, ?_, ?_, h.zero⟩
    · rintro ⟨a, p⟩ v
      unfold Holds
      refine and_congr_right fun ha => ?_
      rw [hpart a ha]
    · rw [Used, hmap, hset, hblocks, Used]
    · intro i hi hi'
      rw [hmap] at hi hi' ⊢
      rw [hnbits] at hi hi'
      exact (hset i).mpr (h.closed i hi hi')
    · rw [hmap, hnbits, hblocks]
      exact h.bits
    · intro i hi hnot
      rw [hmap] at hi ⊢
      rw [hnbits] at hi
      rw [hblocks] at hnot
      exact (hset i).mpr (h.reserved i hi hnot)
    · rw [hvnodes]
      exact h.loaded
    · rw [hblocks]
      exact h.device
    · exact h.synced.of_write hvnodes hdisk fun sv hsv => h.part_ne_fresh hb (h.loaded sv hsv) .self
  refine ⟨hsound, fun a ha => ?_, fun a ha => by rw [hinode a ha], by rw [hvnodes],
    .of_write hb.ordinary (hs' ▸ rfl) (hs' ▸ rfl) hdisk ?_, ?_⟩
  · exact byteAt_congr fun p _ => .inl ⟨hpart a ha p, fun _ => hfar a ha p⟩
  · rw [hs']
    intro hclean
    cases hclean
  · exact fun a ha => ha.of_vnodes hvnodes

/-- `ino` is an empty file without a name that was not there before. -/
structure Made (w : World) (s : SfsFs) (ino : UInt32) (s' : SfsFs) : Prop where
  ordered : Ordered w s'
  root : SameRoot s s'
  live : ∀ a, s'.Live a ↔ a = ino ∨ s.Live a
  fresh : ¬ s.Live ino
  refs : s'.refs = update s.refs ino 1
  same : ∀ a, s.Live a → SameData s s' a
  linkcounts : ∀ a, s.Live a → (s'.inodeOf a).sfiLinkcount = (s.inodeOf a).sfiLinkcount
  inode : s'.inodeOf ino = ⟨0, sfsTypeFile, 0, fun _ => 0, 0, fun _ => 0⟩
  fixed : SameMeta s s'

theorem Ordered.make (h : Ordered w s) (hb : Fresh s b) {tick : ℕ}
    (hs' : s' = { s.allot b with
      vnodes := s.vnodes ++ [⟨b, ⟨0, sfsTypeFile, 0, fun _ => 0, 0, fun _ => 0⟩, true, 1⟩]
      tick := tick }) : Made w s b s' := by
  have hnotlive : ¬ s.Live b := fun hlive => h.sound.part_ne_fresh hb hlive .self rfl
  have hnone : s.vnodeOf b = none := by
    rw [← Option.not_isSome_iff_eq_none]
    exact fun hsome => hnotlive (.inr (.inl hsome))
  have hvnodes : s'.vnodes =
      s.vnodes ++ [⟨b, ⟨0, sfsTypeFile, 0, fun _ => 0, 0, fun _ => 0⟩, true, 1⟩] := hs' ▸ rfl
  have hdisk : s'.disk = update s.disk b.toNat Block.zero := hs' ▸ rfl
  have hmap : s'.freemap = s.freemap.mark b.toNat := hs' ▸ rfl
  have hblocks : s'.sbNblocks = s.sbNblocks := hs' ▸ rfl
  have hvnodeOf := vnodeOf_append hnone hvnodes
  have hfar : ∀ {c : UInt32}, c ≠ b → s'.disk c.toNat = s.disk c.toNat := by
    intro c hc
    rw [hdisk, Function.update_of_ne]
    exact fun heq => hc (UInt32.toNat_inj.mp heq)
  have hself : s'.inodeOf b = ⟨0, sfsTypeFile, 0, fun _ => 0, 0, fun _ => 0⟩ := by
    rw [inodeOf, hvnodeOf, if_pos rfl]
  have hinode : ∀ a, s.Live a → s'.inodeOf a = s.inodeOf a := by
    intro a ha
    have hne : a ≠ b := fun heq => hnotlive (heq ▸ ha)
    rw [inodeOf, hvnodeOf, if_neg hne, inodeOf, hfar hne]
  have hpart : ∀ a, s.Live a → ∀ p, s'.part a p = s.part a p := fun a ha p =>
    part_congr (hinode a ha) (fun _ => hfar (h.sound.part_ne_fresh hb ha .indirect)) p
  have hpartSelf : ∀ p, s'.part b p = if p = .self then b else 0 := by
    intro p
    cases p with
    | self => rfl
    | direct i => rw [part, hself, if_neg (by simp)]
    | indirect => rw [part, hself, if_neg (by simp)]
    | entry j => rw [part, hself, if_pos rfl, if_neg (by simp)]
  have hbytes : ∀ a, s.Live a → s'.byteAt a = s.byteAt a := fun a ha =>
    funext (byteAt_congr fun p _ =>
      .inl ⟨hpart a ha p, fun _ => hfar (h.sound.part_ne_fresh hb ha p)⟩)
  have hroot : SameRoot s s' :=
    ⟨hbytes _ live_root, congrArg SfsDinode.attrs (hinode _ live_root)⟩
  have hlives : ∀ a, s'.Live a ↔ a = b ∨ s.Live a := by
    intro a
    unfold SfsFs.Live
    simp only [hvnodeOf, hroot.names]
    by_cases heq : a = b
    · simp [heq]
    · simp [heq]
  have hsound : Sound w s'.Live s' := by
    refine ⟨(h.sound.accounted.take (fun hu => hb.clear hu.2) (b, .self)).congr ?_ ?_, ?_, ?_, ?_, ?_, ?_,
      ?_, ?_⟩
    · rintro ⟨a, p⟩ v
      unfold Holds
      rw [hlives]
      by_cases heq : a = b
      · subst heq
        rw [hpartSelf]
        simp only [hnotlive, or_false, false_and, true_and, Prod.mk.injEq]
        constructor
        · rintro ⟨hp, hv⟩
          split at hp
          · rename_i hslot
            exact ⟨hslot, hp.symm⟩
          · exact absurd hp.symm hv
        · rintro ⟨hslot, rfl⟩
          exact ⟨if_pos hslot, hb.ne_zero⟩
      · have hne : (a, p) ≠ (b, .self) := by simp [heq]
        simp only [heq, hne, false_or, false_and]
        refine and_congr_right fun ha => ?_
        rw [hpart a ha]
    · intro v
      unfold Used
      rw [hmap, hblocks, Bitmap.isSet_mark, UInt32.toNat_inj]
      constructor
      · rintro ⟨hv, rfl | hset⟩
        · exact .inl rfl
        · exact .inr ⟨hv, hset⟩
      · rintro (rfl | ⟨hv, hset⟩)
        · exact ⟨hb.ordinary, .inl rfl⟩
        · exact ⟨hv, .inr hset⟩
    · rw [hmap]
      exact h.sound.closed.mark
    · rw [hmap, hblocks]
      exact h.sound.bits
    · rw [hmap, hblocks]
      intro i hi hnot
      exact Bitmap.isSet_mark.mpr (.inr (h.sound.reserved i hi hnot))
    · intro sv hsv
      have hsome := isSome_of_mem hsv
      exact .inr (.inl hsome)
    · rw [hblocks]
      exact h.sound.device
    · intro sv hsv hclean
      rw [hvnodes] at hsv
      rcases List.mem_append.mp hsv with hsv | hsv
      · rw [hfar fun heq => hnotlive (heq ▸ h.sound.loaded sv hsv)]
        exact h.sound.synced sv hsv hclean
      · rw [List.mem_singleton.mp hsv] at hclean
        cases hclean
    · intro hlive
      rcases (hlives 0).mp hlive with heq | hlive
      · exact hb.ne_zero heq.symm
      · exact h.sound.zero hlive
  refine ⟨h.remake hsound hroot (nodup_append hnone hvnodes h.nodup)
    (counted_append hvnodes (Nat.lt_succ_self 0) h.counted) hblocks fun a ha hne => ?_, hroot, hlives,
    hnotlive, refs_append hnone hvnodes, fun a ha => ⟨?_, hbytes a ha⟩, fun a ha => by rw [hinode a ha],
    hself, .of_write hb.ordinary (hs' ▸ rfl) (hs' ▸ rfl) hdisk ?_⟩
  · rcases (hlives a).mp ha with rfl | ha
    · rw [hself]
    · rw [hinode a ha]
      exact h.file a ha hne
  · rw [fileSize, hinode a ha, fileSize]
  · rw [hs']
    intro hclean
    cases hclean

theorem sfsMakeobj_spec (hw : w.Writes) (h : Ordered w s) :
    wp (sfsMakeobj w sfsTypeFile) (fun ino s' => Made w s ino s') (Denied w s) s := by
  rw [sfsMakeobj, wp_bind]
  refine wp_mono ?_ ?_ (sfsBalloc_spec hw h.sound)
  · rintro b s₁ ⟨hb, hlater⟩
    have hvnodes := vnodes_allot hlater
    have hnot : ¬ s.Live b := fun hlive => h.sound.part_ne_fresh hb hlive .self rfl
    have hmap : s₁.freemap = s.freemap.mark b.toNat := by
      obtain ⟨tick, rfl⟩ := hlater
      rfl
    have hblocks : s₁.sbNblocks = s.sbNblocks := by
      obtain ⟨tick, rfl⟩ := hlater
      rfl
    have hused : s₁.Used b := by
      rw [Used, hmap, hblocks]
      exact ⟨hb.ordinary, Bitmap.isSet_mark.mpr (.inl rfl)⟩
    have hall : ∀ sv ∈ s₁.vnodes, s₁.Used sv.svIno := by
      intro sv hsv
      rw [hvnodes] at hsv
      have hold := h.sound.used_of_mem hsv
      rw [Used, hmap, hblocks]
      exact ⟨hold.1, Bitmap.isSet_mark.mpr (.inr hold.2)⟩
    have habsent : ∀ sv ∈ s₁.vnodes, sv.svIno ≠ b := by
      intro sv hsv heq
      rw [hvnodes] at hsv
      exact hnot (heq ▸ h.sound.loaded sv hsv)
    have hdevice : b < w.dBlocks := UInt32.lt_of_lt_of_le hb.lt_nblocks h.sound.device
    have hforce : forceType (.decode (s₁.disk b.toNat)) sfsTypeFile =
        pure (⟨0, sfsTypeFile, 0, fun _ => 0, 0, fun _ => 0⟩, true) := by
      rw [disk_allot_self hlater, SfsDinode.decode_zero, forceType, if_neg (by decide),
        if_neg (not_not.mpr rfl)]
    rw [wp_bind, wp_tryCatch, sfsLoadvnode, wp_bind, wp_get, wp_bind,
      wp_of_ok (loadSearch_absent s₁.vnodes hall habsent), if_neg (by simp)]
    refine wp_mono ?_ ?_ (loadFresh_spec hused hdevice hforce (.inl rfl))
    · rintro _ s' ⟨tick, hs'⟩
      rw [wp_pure]
      obtain ⟨tick₁, rfl⟩ := hlater
      exact h.make hb hs'
    · rintro _ s₂ ⟨⟨n, rfl⟩, hlater₂⟩
      obtain ⟨tick₂, rfl⟩ := hlater.trans hlater₂
      have hset : ({ s.allot b with tick := tick₂ } : SfsFs).freemap.isSet b.toNat :=
        Bitmap.isSet_mark.mpr (.inl rfl)
      have hlt : b.toNat < ({ s.allot b with tick := tick₂ } : SfsFs).freemap.nbits :=
        Nat.lt_of_lt_of_le hb.ordinary.1 h.sound.nbits
      dsimp only
      rw [wp_bind, wp_of_ok (sfsBfree_ok hset hlt), wp_throw]
      refine ⟨⟨n, rfl⟩, h.sound.kept_of_fresh hb (fun i => ?_) ?_ rfl⟩
      · show ((s.freemap.mark b.toNat).unmark b.toNat).isSet i ↔ _
        rw [Bitmap.isSet_unmark, Bitmap.isSet_mark]
        constructor
        · rintro ⟨hne, heq | hi⟩
          · exact absurd heq hne
          · exact hi
        · intro hi
          refine ⟨?_, .inr hi⟩
          rintro rfl
          exact hb.clear hi
      · rfl
  · rintro e s' ⟨rfl, rfl⟩
    exact ⟨⟨_, rfl⟩, h.sound.kept⟩

end UnionCollegeCode.OS161.Sfs
