import VMsep.Lib.Keyed
import Mathlib.Data.BitVec

/-! The entries of all directories but `.` and `..`, the `..` of each directory and the link counts
of the inodes. -/

namespace VMsep.Ext4

open Lib

structure DirEntry where
  dir : ℕ
  name : String
  ino : ℕ
  fileType : BitVec 8
  deriving DecidableEq

/-- `EXT4_LINK_MAX`. -/
def linkMax : ℕ := 65000

/-- A file system as `ext4_rename` sees it. -/
structure DirTree where
  entries : List DirEntry
  dotdot : ℕ → ℕ
  nlink : ℕ → ℕ
  isDir : ℕ → Bool
  isDx : ℕ → Bool
  typeOf : ℕ → BitVec 8
  hasFiletype : Bool
  hasDirNlink : Bool

def DirEntry.key (e : DirEntry) : ℕ × String := (e.dir, e.name)

namespace DirTree

def findEntry (t : DirTree) (dir : ℕ) (name : String) : Option DirEntry :=
  Keyed.found DirEntry.key (dir, name) t.entries

/-- What `ext4_setent` stores in an entry. -/
def stored (t : DirTree) (ino : ℕ) (fileType : BitVec 8) (e : DirEntry) : DirEntry :=
  { e with ino := ino, fileType := if t.hasFiletype then fileType else e.fileType }

def setEntry (t : DirTree) (dir : ℕ) (name : String) (ino : ℕ) (fileType : BitVec 8) : DirTree :=
  { t with entries := Keyed.replace DirEntry.key (dir, name) (t.stored ino fileType) t.entries }

/-- The entry that `ext4_add_entry` makes. -/
def newEntry (t : DirTree) (dir : ℕ) (name : String) (ino : ℕ) : DirEntry :=
  { dir := dir, name := name, ino := ino, fileType := if t.hasFiletype then t.typeOf ino else 0 }

def addEntry (t : DirTree) (dir : ℕ) (name : String) (ino : ℕ) : DirTree :=
  { t with entries := t.entries ++ [t.newEntry dir name ino] }

def setNlink (t : DirTree) (i n : ℕ) : DirTree := { t with nlink := Function.update t.nlink i n }

def dropNlink (t : DirTree) (i : ℕ) : DirTree := t.setNlink i (t.nlink i - 1)

/-- The link count that `ext4_inc_count` stores. -/
def incNlink (isDx : Bool) (nlink : ℕ) : ℕ :=
  if isDx = true ∧ (nlink + 1 > linkMax ∨ nlink + 1 = 2) then 1 else nlink + 1

def incCount (t : DirTree) (i : ℕ) : DirTree := t.setNlink i (incNlink (t.isDx i) (t.nlink i))

/-- The link count that `ext4_dec_count` leaves. -/
def decNlink (isDir : Bool) (nlink : ℕ) : ℕ :=
  if isDir = false ∨ nlink > 2 then nlink - 1 else nlink

def decCount (t : DirTree) (i : ℕ) : DirTree := t.setNlink i (decNlink (t.isDir i) (t.nlink i))

def emptyDir (t : DirTree) (i : ℕ) : Bool := t.entries.all fun e => e.dir ≠ i

def refs (t : DirTree) (i : ℕ) : ℕ := t.entries.countP fun e => e.ino = i

def used (t : DirTree) (i : ℕ) : ℕ := t.entries.countP fun e => e.dir = i

def subdirs (t : DirTree) (i : ℕ) : ℕ := t.entries.countP fun e => e.dir = i ∧ t.isDir e.ino = true

/-- A directory has one link for itself, one in its parent and one for each subdirectory; 1 stands
for more than can be counted. -/
def LiveDir (isDx : Bool) (nlink refs subdirs : ℕ) : Prop :=
  refs ≤ 1 ∧ (nlink = 1 ∧ isDx = true ∨ nlink = 2 + subdirs)

/-- The link count is the number of entries; that of a directory that was removed is 0. -/
def Agrees (isDir isDx : Bool) (nlink refs used subdirs : ℕ) : Prop :=
  if isDir = true then (nlink = 0 ∧ refs = 0 ∧ used = 0) ∨ LiveDir isDx nlink refs subdirs
  else nlink = refs

def LinksAgree (t : DirTree) (i : ℕ) : Prop :=
  Agrees (t.isDir i) (t.isDx i) (t.nlink i) (t.refs i) (t.used i) (t.subdirs i)

section

variable {t : DirTree} {dx : Bool} {nlink refs used subdirs subdirs' i : ℕ}

theorem linksAgree_of_entries {t' : DirTree} (hentries : t'.entries = t.entries)
    (hdir : t'.isDir = t.isDir) (hdx : t'.isDx = t.isDx) (i : ℕ) : t'.LinksAgree i ↔
      Agrees (t.isDir i) (t.isDx i) (t'.nlink i) (t.refs i) (t.used i) (t.subdirs i) := by
  simp only [LinksAgree, refs, used, subdirs, hentries, hdir, hdx]

structure Consistent (t : DirTree) : Prop where
  names : Keyed.Distinct DirEntry.key t.entries
  links : ∀ i, t.LinksAgree i

theorem agrees_file : Agrees false dx nlink refs used subdirs ↔ nlink = refs := by
  simp [Agrees]

theorem agrees_dir : Agrees true dx nlink refs used subdirs ↔
      (nlink = 0 ∧ refs = 0 ∧ used = 0) ∨ LiveDir dx nlink refs subdirs := by
  simp [Agrees]

theorem LinksAgree.live (h : t.LinksAgree i) (hdir : t.isDir i = true) (hlive : 0 < t.nlink i) :
    LiveDir (t.isDx i) (t.nlink i) (t.refs i) (t.subdirs i) := by
  rw [LinksAgree, hdir, agrees_dir] at h
  rcases h with ⟨hzero, -⟩ | h
  · omega
  · exact h

theorem LiveDir.inc (h : LiveDir dx nlink refs subdirs) (hone : subdirs' = subdirs + 1) :
    LiveDir dx (incNlink dx nlink) refs subdirs' := by
  refine ⟨h.1, ?_⟩
  unfold incNlink
  by_cases hmany : dx = true ∧ (nlink + 1 > linkMax ∨ nlink + 1 = 2)
  · rw [if_pos hmany]
    exact .inl ⟨rfl, hmany.1⟩
  rw [if_neg hmany]
  rcases h.2 with ⟨hn, hdx⟩ | hn
  · exact absurd ⟨hdx, .inr (by omega)⟩ hmany
  · exact .inr (by omega)

theorem LiveDir.dec (h : LiveDir dx nlink refs subdirs) (hone : subdirs = subdirs' + 1) :
    LiveDir dx (decNlink true nlink) refs subdirs' := by
  refine ⟨h.1, ?_⟩
  unfold decNlink
  rcases h.2 with ⟨hn, hdx⟩ | hn
  · rw [if_neg (by simp; omega)]
    exact .inl ⟨hn, hdx⟩
  · rw [if_pos (by right; omega)]
    exact .inr (by omega)

end

theorem setNlink_nlink (t : DirTree) (i n j : ℕ) :
    (t.setNlink i n).nlink j = if j = i then n else t.nlink j := by
  simp only [setNlink, Function.update_apply]

theorem decCount_nlink (t : DirTree) (i j : ℕ) :
    (t.decCount i).nlink j = if j = i then decNlink (t.isDir i) (t.nlink i) else t.nlink j :=
  setNlink_nlink _ _ _ _

theorem incCount_nlink (t : DirTree) (i j : ℕ) :
    (t.incCount i).nlink j = if j = i then incNlink (t.isDx i) (t.nlink i) else t.nlink j :=
  setNlink_nlink _ _ _ _

section

variable {t : DirTree} {dir dir' ino : ℕ} {name name' : String} {fileType : BitVec 8}

end

/-- What becomes of the entries in a rename: the entry of the old name and that of the new name, if
there is one, give way to an entry of the new name and perhaps one of the old name. -/
structure Moves (t t' : DirTree) (old new : ℕ × String) (oldDe moved : DirEntry)
    (newDe left : Option DirEntry) (rest : List DirEntry) : Prop where
  before : Keyed.Parts DirEntry.key old new t.entries (some oldDe) newDe rest
  after : Keyed.Parts DirEntry.key old new t'.entries left (some moved) rest
  isDir : t'.isDir = t.isDir
  isDx : t'.isDx = t.isDx

def countOf (p : DirEntry → Bool) (e : Option DirEntry) : ℕ := if e.any p then 1 else 0

variable {t t' : DirTree} {old new : ℕ × String} {oldDe moved : DirEntry}
  {newDe left : Option DirEntry} {rest : List DirEntry} {x y : Option DirEntry} {name : String}
  {k : ℕ × String}

theorem countP_parts (p : DirEntry → Bool) {l : List DirEntry}
    (h : Keyed.Parts DirEntry.key old new l x y rest) :
    l.countP p = countOf p x + countOf p y + rest.countP p := by
  have hopt : ∀ z : Option DirEntry, z.toList.countP p = countOf p z := by
    intro z
    cases z with
    | none => rfl
    | some e =>
      unfold countOf
      cases hp : p e <;> simp [hp]
  rw [h.perm.countP_eq, List.countP_append, List.countP_append, hopt, hopt]
  omega

section

variable (h : t.Moves t' old new oldDe moved newDe left rest)

include h

theorem Moves.refs (i : ℕ) :
    ∃ n, t.refs i = countOf (·.ino = i) (some oldDe) + countOf (·.ino = i) newDe + n ∧
      t'.refs i = countOf (·.ino = i) left + countOf (·.ino = i) (some moved) + n :=
  ⟨_, countP_parts _ h.before, countP_parts _ h.after⟩

theorem Moves.used (i : ℕ) :
    ∃ n, t.used i = countOf (·.dir = i) (some oldDe) + countOf (·.dir = i) newDe + n ∧
      t'.used i = countOf (·.dir = i) left + countOf (·.dir = i) (some moved) + n :=
  ⟨_, countP_parts _ h.before, countP_parts _ h.after⟩

theorem Moves.subdirs (i : ℕ) :
    ∃ n, t.subdirs i = countOf (fun e => e.dir = i ∧ t.isDir e.ino = true) (some oldDe) +
        countOf (fun e => e.dir = i ∧ t.isDir e.ino = true) newDe + n ∧
      t'.subdirs i = countOf (fun e => e.dir = i ∧ t.isDir e.ino = true) left +
        countOf (fun e => e.dir = i ∧ t.isDir e.ino = true) (some moved) + n := by
  refine ⟨_, countP_parts _ h.before, ?_⟩
  unfold DirTree.subdirs
  rw [h.isDir]
  exact countP_parts _ h.after

end

end DirTree

end VMsep.Ext4
