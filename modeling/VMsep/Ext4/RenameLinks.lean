import VMsep.Ext4.Rename

/-! What a rename has stored, and that the link counts agree with the entries again. -/

namespace VMsep.Ext4

open Lib Function DirTree

variable {a : RenameArgs} {t : DirTree}

namespace RenameArgs

/-- `..` and the link counts. -/
def relinked (a : RenameArgs) (t : DirTree) : DirTree :=
  let t := a.newInode.elim t t.decCount
  if t.isDir a.oldInode = true then
    let t := { t with dotdot := update t.dotdot a.oldInode a.newDir }
    let t := t.decCount a.oldDir
    a.newInode.elim (t.incCount a.newDir) fun i => t.setNlink i 0
  else t

end RenameArgs

structure RenameArgs.Entries (a : RenameArgs) (t t' : DirTree) (oldDe moved : DirEntry)
    (newDe left : Option DirEntry) (rest : List DirEntry) : Prop where
  moves : t.Moves t' (a.oldDir, a.oldName) (a.newDir, a.newName) oldDe moved newDe left rest
  oldIno : oldDe.ino = a.oldInode
  movedIno : moved.ino = a.oldInode
  newIno : newDe.map DirEntry.ino = a.newInode
  leftIno : left.map DirEntry.ino = a.left

namespace RenameArgs.Entries

variable {t' : DirTree} {oldDe moved : DirEntry} {newDe left : Option DirEntry}
  {rest : List DirEntry} {e : Option DirEntry} {d i x : ℕ} {s : DirTree}

theorem countOf_ino (e : Option DirEntry) (i : ℕ) : countOf (fun e => decide (e.ino = i)) e =
      if e.map DirEntry.ino = some i then 1 else 0 := by
  cases e <;> simp [countOf]

theorem countOf_dir (h : ∀ x ∈ e, x.dir = d) (i : ℕ) :
    countOf (fun e => decide (e.dir = i)) e = if d = i ∧ e.isSome = true then 1 else 0 := by
  cases e with
  | none => simp [countOf]
  | some x =>
    have hx : x.dir = d := h x rfl
    simp [countOf, hx]

theorem countOf_subdir (h : ∀ x ∈ e, x.dir = d) (i : ℕ) :
    countOf (fun e => decide (e.dir = i ∧ t.isDir e.ino = true)) e =
      if d = i ∧ (e.map DirEntry.ino).any t.isDir = true then 1 else 0 := by
  cases e with
  | none => simp [countOf]
  | some x =>
    have hx : x.dir = d := h x rfl
    simp [countOf, hx]

section

variable (h : a.Entries t t' oldDe moved newDe left rest)

include h

theorem dirs : (∀ x ∈ some oldDe, x.dir = a.oldDir) ∧ (∀ x ∈ newDe, x.dir = a.newDir) ∧
      (∀ x ∈ some moved, x.dir = a.newDir) ∧ ∀ x ∈ left, x.dir = a.oldDir :=
  ⟨fun x hx => congrArg Prod.fst (h.moves.before.fst x hx),
    fun x hx => congrArg Prod.fst (h.moves.before.snd x hx),
    fun x hx => congrArg Prod.fst (h.moves.after.snd x hx),
    fun x hx => congrArg Prod.fst (h.moves.after.fst x hx)⟩

theorem refs (i : ℕ) :
    ∃ n, t.refs i = (if a.oldInode = i then 1 else 0) + (if a.newInode = some i then 1 else 0) + n ∧
      t'.refs i = (if a.left = some i then 1 else 0) + (if a.oldInode = i then 1 else 0) + n := by
  obtain ⟨n, h1, h2⟩ := h.moves.refs i
  refine ⟨n, ?_, ?_⟩
  · rw [h1, countOf_ino, countOf_ino, h.newIno, Option.map_some, h.oldIno]
    simp only [Option.some.injEq]
  · rw [h2, countOf_ino, countOf_ino, h.leftIno, Option.map_some, h.movedIno]
    simp only [Option.some.injEq]

theorem subdirs (i : ℕ) :
    ∃ n, t.subdirs i = (if a.oldDir = i ∧ t.isDir a.oldInode = true then 1 else 0) +
        (if a.newDir = i ∧ a.newInode.any t.isDir = true then 1 else 0) + n ∧
      t'.subdirs i = (if a.oldDir = i ∧ a.left.any t.isDir = true then 1 else 0) +
        (if a.newDir = i ∧ t.isDir a.oldInode = true then 1 else 0) + n := by
  obtain ⟨n, h1, h2⟩ := h.moves.subdirs i
  obtain ⟨hold, hnew, hmoved, hleft⟩ := h.dirs
  refine ⟨n, ?_, ?_⟩
  · rw [h1, countOf_subdir hold, countOf_subdir hnew, h.newIno, Option.map_some, h.oldIno]
    rfl
  · rw [h2, countOf_subdir hleft, countOf_subdir hmoved, h.leftIno, Option.map_some, h.movedIno]
    rfl

theorem used (hold : i ≠ a.oldDir) (hnew : i ≠ a.newDir) : t'.used i = t.used i := by
  obtain ⟨n, h1, h2⟩ := h.moves.used i
  obtain ⟨hd1, hd2, hd3, hd4⟩ := h.dirs
  rw [h1, h2, countOf_dir hd1, countOf_dir hd2, countOf_dir hd3, countOf_dir hd4]
  simp only [hold.symm, hnew.symm, false_and, if_false]

theorem parent (hs : s.entries = t'.entries ∧ s.isDir = t'.isDir ∧ s.isDx = t'.isDx)
    (hi : t.isDir i = true) (hold : a.oldInode ≠ i) (hnew : a.newInode ≠ some i)
    (hleft : a.left ≠ some i)
    (hlive : DirTree.LiveDir (t.isDx i) (s.nlink i) (t.refs i) (t'.subdirs i)) :
    s.LinksAgree i := by
  obtain ⟨n, hrefs, hrefs'⟩ := h.refs i
  rw [if_neg hold, if_neg hnew] at hrefs
  rw [if_neg hold, if_neg hleft] at hrefs'
  rw [linksAgree_of_entries hs.1 hs.2.1 hs.2.2, h.moves.isDir, h.moves.isDx, hi,
    agrees_dir, hrefs', ← hrefs]
  exact .inr hlive

theorem bystander (ht : t.Consistent)
    (hs : s.entries = t'.entries ∧ s.isDir = t'.isDir ∧ s.isDx = t'.isDx)
    (hrefs : t'.refs i = t.refs i) (hold : i ≠ a.oldDir) (hnew : i ≠ a.newDir)
    (hnlink : s.nlink i = t.nlink i) : s.LinksAgree i := by
  obtain ⟨m, hsub, hsub'⟩ := h.subdirs i
  rw [if_neg (fun hc => hold hc.1.symm), if_neg (fun hc => hnew hc.1.symm)] at hsub hsub'
  rw [linksAgree_of_entries hs.1 hs.2.1 hs.2.2, h.moves.isDir, h.moves.isDx, hrefs,
    h.used hold hnew, hsub'.trans hsub.symm, hnlink]
  exact ht.links i

end

theorem left_eq (hex : a.exchange = false) :
    a.left = if a.whiteout = true then some a.whiteoutIno else none := by
  simp [RenameArgs.left, hex]

theorem whiteoutIno_refs (ht : t.Consistent) (hv : a.VfsChecked t) : t.refs a.whiteoutIno = 0 := by
  have hlinks := ht.links a.whiteoutIno
  rw [DirTree.LinksAgree, hv.whiteoutIno.1, agrees_file, hv.whiteoutIno.2] at hlinks
  exact hlinks.symm

theorem left_ne (hex : a.exchange = false) (hw : ¬ (a.whiteout = true ∧ i = a.whiteoutIno)) :
    a.left ≠ some i := by
  rw [left_eq hex]
  intro heq
  split_ifs at heq with hwt
  cases heq
  exact hw ⟨hwt, rfl⟩

theorem left_ne_dir (hv : a.VfsChecked t) (hex : a.exchange = false) (hi : t.isDir i = true) :
    a.left ≠ some i ∧ i ≠ a.whiteoutIno := by
  have hne : i ≠ a.whiteoutIno := by
    rintro rfl
    rw [hv.whiteoutIno.1] at hi
    cases hi
  exact ⟨left_ne hex fun hw => hne hw.2, hne⟩

theorem left_any_isDir (hv : a.VfsChecked t) (hex : a.exchange = false) :
    a.left.any t.isDir = false := by
  rw [left_eq hex]
  split_ifs
  · exact hv.whiteoutIno.1
  · rfl

theorem relinked_frame (a : RenameArgs) (t' : DirTree) :
    (a.relinked t').entries = t'.entries ∧ (a.relinked t').isDir = t'.isDir ∧
      (a.relinked t').isDx = t'.isDx := by
  unfold RenameArgs.relinked
  cases a.newInode <;> refine ⟨?_, ?_, ?_⟩ <;> dsimp only [Option.elim] <;> split_ifs <;> rfl

section

variable (h : a.Entries t t' oldDe moved newDe left rest) (ht : t.Consistent)
  (hv : a.VfsChecked t)

include h ht hv

section

variable (hex : a.exchange = false)
  (hnlink : ∀ i, t'.nlink i = if a.whiteout = true ∧ i = a.whiteoutIno then 1 else t.nlink i)

include hex hnlink

theorem untouched (hs : s.entries = t'.entries ∧ s.isDir = t'.isDir ∧ s.isDx = t'.isDx)
    (hold : i ≠ a.oldDir) (hnewDir : i ≠ a.newDir) (hnew : a.newInode ≠ some i)
    (hkeep : s.nlink i = t'.nlink i) : s.LinksAgree i := by
  obtain ⟨n, hrefs, hrefs'⟩ := h.refs i
  rw [if_neg hnew] at hrefs
  by_cases hw : a.whiteout = true ∧ i = a.whiteoutIno
  · -- the entry of the old name is the one reference to the whiteout
    have hzero := whiteoutIno_refs ht hv
    rw [linksAgree_of_entries hs.1 hs.2.1 hs.2.2, hkeep, hnlink i, if_pos hw,
      h.moves.isDir, hw.2, hv.whiteoutIno.1, agrees_file, ← hw.2, hrefs', left_eq hex,
      if_pos hw.1, if_pos (congrArg some hw.2.symm)]
    rw [← hw.2] at hzero
    omega
  · rw [if_neg (left_ne hex hw)] at hrefs'
    exact h.bystander ht hs (by omega) hold hnewDir (by rw [hkeep, hnlink i, if_neg hw])

theorem relinked_file (hfile : t.isDir a.oldInode = false) (i : ℕ) :
    (a.relinked t').LinksAgree i := by
  have hdir' : t'.isDir = t.isDir := h.moves.isDir
  have hs := relinked_frame a t'
  have hrel : a.relinked t' = a.newInode.elim t' t'.decCount := by
    unfold RenameArgs.relinked
    cases hn : a.newInode with
    | none => exact if_neg (by simp [hdir', hfile])
    | some => exact if_neg (by simp [decCount, setNlink, hdir', hfile])
  by_cases hnew : a.newInode = some i
  · -- the file that is replaced loses a reference
    have hi : t.isDir i = false := (hv.kinds hex i hnew).trans hfile
    have hlinks := ht.links i
    have hnwh : ¬ (a.whiteout = true ∧ i = a.whiteoutIno) := by
      rintro ⟨-, rfl⟩
      obtain ⟨n, hrefs, -⟩ := h.refs a.whiteoutIno
      rw [whiteoutIno_refs ht hv, if_pos hnew] at hrefs
      omega
    obtain ⟨n, hrefs, hrefs'⟩ := h.refs i
    rw [if_pos hnew] at hrefs
    rw [if_neg (left_ne hex hnwh)] at hrefs'
    rw [DirTree.LinksAgree, hi, agrees_file] at hlinks
    rw [linksAgree_of_entries hs.1 hs.2.1 hs.2.2, hdir', hi, agrees_file, hrel, hnew,
      Option.elim_some, decCount_nlink, if_pos rfl, hdir', hi, decNlink,
      if_pos (.inl rfl), hnlink i, if_neg hnwh]
    omega
  · have hnlink' : (a.relinked t').nlink i = t'.nlink i := by
      rw [hrel]
      cases hn : a.newInode with
      | none => rfl
      | some =>
        rw [Option.elim_some, decCount_nlink, if_neg]
        rintro rfl
        exact hnew hn
    by_cases hparent : i = a.oldDir ∨ i = a.newDir
    · -- the parents have the subdirectories they had
      have hi : (t.isDir i = true ∧ 0 < t.nlink i) ∧ a.oldInode ≠ i := by
        rcases hparent with rfl | rfl
        · exact ⟨hv.oldDir, hv.oldInode.1⟩
        · exact ⟨hv.newDir, hv.oldInode.2⟩
      obtain ⟨hleft, hwh⟩ := left_ne_dir hv hex hi.1.1
      have hnewdir : a.newInode.any t.isDir = false := by
        cases hn : a.newInode with
        | none => rfl
        | some x => exact (hv.kinds hex x hn).trans hfile
      obtain ⟨m, hsub, hsub'⟩ := h.subdirs i
      simp only [hfile, hnewdir, left_any_isDir hv hex, Bool.false_eq_true, and_false,
        if_false] at hsub hsub'
      refine h.parent hs hi.1.1 hi.2 hnew hleft ?_
      rw [hnlink', hnlink i, if_neg (fun hw => hwh hw.2), hsub', ← hsub]
      exact (ht.links i).live hi.1.1 hi.1.2
    · exact h.untouched ht hv hex hnlink hs (fun hc => hparent (.inl hc))
        (fun hc => hparent (.inr hc)) hnew hnlink'

omit h ht in
theorem nlink_dir (hi : t.isDir i = true) : t'.nlink i = t.nlink i := by
  rw [hnlink i, if_neg fun hw => (left_ne_dir hv hex hi).2 hw.2]

theorem relinked_dir_new (hdir : t.isDir a.oldInode = true) (hnone : a.newInode = none) (i : ℕ) :
    (a.relinked t').LinksAgree i := by
  have hdir' : t'.isDir = t.isDir := h.moves.isDir
  have hdx' : t'.isDx = t.isDx := h.moves.isDx
  have hs := relinked_frame a t'
  have hkeep : ∀ {j}, t.isDir j = true → t'.nlink j = t.nlink j := nlink_dir hv hex hnlink
  have hcount : (a.relinked t').nlink i =
      if i = a.newDir then incNlink (t.isDx a.newDir)
        (if a.newDir = a.oldDir then decNlink true (t.nlink a.oldDir) else t.nlink a.newDir)
      else if i = a.oldDir then decNlink true (t.nlink a.oldDir) else t'.nlink i := by
    have hrel : a.relinked t' =
        (({ t' with dotdot := update t'.dotdot a.oldInode a.newDir } : DirTree).decCount
          a.oldDir).incCount a.newDir := by
      unfold RenameArgs.relinked
      rw [hnone]
      exact if_pos (by rw [Option.elim_none, hdir', hdir])
    rw [hrel, incCount_nlink, decCount_nlink, decCount_nlink]
    simp only [decCount, setNlink, hdir', hdx', hv.oldDir.1, hkeep hv.oldDir.1, hkeep hv.newDir.1]
  have hnew : ∀ j, a.newInode ≠ some j := by simp [hnone]
  obtain ⟨m, hsub, hsub'⟩ := h.subdirs i
  simp only [hdir, hnone, left_any_isDir hv hex, Option.any_none, Bool.false_eq_true, and_false,
    and_true, if_false] at hsub hsub'
  by_cases hnd : i = a.newDir
  · subst hnd
    refine h.parent hs hv.newDir.1 hv.oldInode.2 (hnew _) (left_ne_dir hv hex hv.newDir.1).1 ?_
    have hlive := (ht.links _).live hv.newDir.1 hv.newDir.2
    rw [if_pos rfl] at hsub'
    rw [hcount, if_pos rfl]
    by_cases hsame : a.newDir = a.oldDir
    · -- one subdirectory goes and one comes
      rw [if_pos hsame.symm] at hsub
      rw [if_pos hsame, ← hsame]
      exact ((hlive.dec (show _ = m + 1 by omega)).inc (by omega))
    · rw [if_neg (Ne.symm hsame)] at hsub
      rw [if_neg hsame]
      exact hlive.inc (by omega)
  · rw [if_neg hnd] at hcount
    by_cases hod : i = a.oldDir
    · subst hod
      refine h.parent hs hv.oldDir.1 hv.oldInode.1 (hnew _) (left_ne_dir hv hex hv.oldDir.1).1 ?_
      rw [if_pos rfl] at hsub hcount
      rw [if_neg (Ne.symm hnd)] at hsub'
      rw [hcount]
      exact ((ht.links _).live hv.oldDir.1 hv.oldDir.2).dec (by omega)
    · rw [if_neg hod] at hcount
      exact h.untouched ht hv hex hnlink hs hod hnd (hnew i) hcount

theorem relinked_dir_replaced (hdir : t.isDir a.oldInode = true) (hx : a.newInode = some x)
    (hempty : t.used x = 0) (i : ℕ) : (a.relinked t').LinksAgree i := by
  have hdir' : t'.isDir = t.isDir := h.moves.isDir
  have hxdir : t.isDir x = true := (hv.kinds hex x hx).trans hdir
  have hs := relinked_frame a t'
  have hkeep : ∀ {j}, t.isDir j = true → t'.nlink j = t.nlink j := nlink_dir hv hex hnlink
  obtain ⟨hxold, hxnew⟩ := hv.newInode x hx
  have hcount : (a.relinked t').nlink i =
      if i = x then 0
      else if i = a.oldDir then decNlink true (t.nlink a.oldDir) else t'.nlink i := by
    have hrel : a.relinked t' = (({ t'.decCount x with
        dotdot := update t'.dotdot a.oldInode a.newDir } : DirTree).decCount
          a.oldDir).setNlink x 0 := by
      unfold RenameArgs.relinked
      rw [hx]
      exact if_pos (by rw [Option.elim_some, decCount, setNlink, hdir', hdir])
    rw [hrel, setNlink_nlink, decCount_nlink]
    simp only [decCount, setNlink, update_apply, if_neg hxold.symm, hdir',
      hv.oldDir.1, hkeep hv.oldDir.1]
    by_cases hix : i = x
    · rw [if_pos hix, if_pos hix]
    · simp only [if_neg hix]
  obtain ⟨m, hsub, hsub'⟩ := h.subdirs i
  simp only [hdir, hx, left_any_isDir hv hex, Option.any_some, hxdir, Bool.false_eq_true, and_false,
    and_true, if_false] at hsub hsub'
  by_cases hix : i = x
  · -- the directory that was replaced is empty, and had one reference
    subst hix
    have hlinks := ht.links i
    obtain ⟨n, hrefs, hrefs'⟩ := h.refs i
    rw [if_pos hx] at hrefs
    rw [if_neg (left_ne_dir hv hex hxdir).1, if_neg (hv.distinct i hx).symm] at hrefs'
    rw [DirTree.LinksAgree, hxdir, agrees_dir] at hlinks
    rw [linksAgree_of_entries hs.1 hs.2.1 hs.2.2, hdir', hxdir, agrees_dir, hcount, if_pos rfl]
    refine .inl ⟨rfl, ?_, (h.used hxold hxnew).trans hempty⟩
    rcases hlinks with ⟨-, hzero, -⟩ | ⟨hone, -⟩ <;> omega
  · have hnew : a.newInode ≠ some i := by
      rw [hx]
      intro heq
      cases heq
      exact hix rfl
    rw [if_neg hix] at hcount
    by_cases hod : i = a.oldDir
    · subst hod
      refine h.parent hs hv.oldDir.1 hv.oldInode.1 hnew (left_ne_dir hv hex hv.oldDir.1).1 ?_
      rw [if_pos rfl] at hsub hcount
      rw [hcount]
      refine ((ht.links _).live hv.oldDir.1 hv.oldDir.2).dec ?_
      rw [hsub, hsub']
      split_ifs <;> omega
    · rw [if_neg hod] at hcount
      by_cases hnd : i = a.newDir
      · subst hnd
        refine h.parent hs hv.newDir.1 hv.oldInode.2 hnew (left_ne_dir hv hex hv.newDir.1).1 ?_
        rw [if_neg (Ne.symm hod)] at hsub
        rw [hcount, hkeep hv.newDir.1, show t'.subdirs a.newDir = t.subdirs a.newDir by omega]
        exact (ht.links _).live hv.newDir.1 hv.newDir.2
      · exact h.untouched ht hv hex hnlink hs hod hnd hnew hcount

theorem relinked (hempty : t.isDir a.oldInode = true → ∀ x ∈ a.newInode, t.used x = 0) (i : ℕ) :
    (a.relinked t').LinksAgree i := by
  cases hdir : t.isDir a.oldInode with
  | false => exact h.relinked_file ht hv hex hnlink hdir i
  | true =>
    cases hnew : a.newInode with
    | none => exact h.relinked_dir_new ht hv hex hnlink hdir hnew i
    | some x => exact h.relinked_dir_replaced ht hv hex hnlink hdir hnew (hempty hdir x hnew) i

end

end

end RenameArgs.Entries

end VMsep.Ext4
