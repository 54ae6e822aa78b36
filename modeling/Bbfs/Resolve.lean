import Bbfs.Files

/-!
# Directory streams, reading and path resolution

`lookup` scans a directory through `fopendir` and `my_readdir`;
`find_real_ino` walks the segments of a path from inode 2 without following
links; `find_ino` follows one final link through a buffer of 50 bytes. The
second half gives each of them in closed form over the table as a function of
the handle: the value they return, and the keys they may insert.
-/

set_option autoImplicit false

namespace Bbfs.Resolve
open Bbfs.InsertingMap Bbfs.Strings Bbfs.Files

structure MyDir where
  fh : ℕ
  index : ℕ
  deriving DecidableEq, Repr

def fopendir (fh : ℕ) (s : Fs) : Option MyDir × Fs :=
  let s := s.touch fh
  if (s.file fh).isDir = false then (none, s) else (some ⟨fh,0⟩, s)

/-- What `my_readdir` yields: the null pointer, an entry, or the address of
an element that the vector does not have. -/
inductive DirRead where
  | null
  | dirent (d : Dirent)
  | outside
  deriving DecidableEq, Repr

/-- The address returned lies in a copy of the vector that the return destroys.
The entry is read here as if that copy were intact. -/
def myReaddir (dirp : MyDir) (s : Fs) : DirRead × MyDir × Fs :=
  let s := s.touch dirp.fh
  let v := (s.file dirp.fh).dentries
  let tmp := dirp.index
  let read := if tmp = v.length then .null else
    match v[tmp]? with
    | some d => .dirent d
    | none => .outside
  (read, { dirp with index := tmp+1 }, s)

def lookupLoop (name : Str) : ℕ → MyDir → Fs → ℕ × Fs
  | 0, _, s => (0, s)
  | fuel+1, dirp, s =>
    match myReaddir dirp s with
    | (.dirent dp, dirp, s) => if dp.dName = name then (dp.dIno, s) else lookupLoop name fuel dirp s
    | (_, _, s) => (0, s)

/-- The stream ends after one read for each entry and one more. -/
def lookup (name : Str) (fh : ℕ) (s : Fs) : ℕ × Fs :=
  match fopendir fh s with
  | (none, s) => (0, s)
  | (some dirp, s) => lookupLoop name ((s.file fh).dentries.length+1) dirp s

def findRealLoop : List Str → ℕ → Fs → ℕ × Fs
  | [], fh, s => (fh, s)
  | it::v, fh, s =>
    if it = [] then findRealLoop v fh s
    else if fh ∉ s.entry then (0, s)
    else if (s.file fh).isDir then
      match lookup it fh s with
      | (fh, s) => findRealLoop v fh s
    else (0, s)

/-- A path that does not start with a slash is walked from the root as well:
the working directory is prefixed only to the copy used in messages. -/
def findRealIno (path : Str) (s : Fs) : ℕ × Fs := findRealLoop (segments path) 2 s

/-- What a read reports: the error value, an exception thrown by `substr`, or
a returned length with the C string left in the buffer. -/
inductive ReadOut where
  | failed
  | threw
  | stored (ret : ℤ) (buf : Str)
  deriving DecidableEq, Repr

def myPread (fh : ℕ) (size : ℕ) (offset : ℤ) (s : Fs) : ReadOut × Fs :=
  let s := s.touch fh
  let data := (s.file fh).data
  if (s.file fh).isDir then (.failed, s) else
  let fileLen := toInt32 data.length
  if fileLen < offset then (.failed, s)
  else if data.length < toU64 offset then (.threw, s)
  else if toU64 fileLen < toU64 (offset+size-1) then
    (.stored (toInt32 (fileLen-offset)) (cstr (data.drop (toU64 offset))), s)
  else (.stored (toInt32 size) (cstr ((data.drop (toU64 offset)).take size)), s)

def myReadlink (path : Str) (size : ℕ) (s : Fs) : ReadOut × Fs :=
  match findRealIno path s with
  | (fh, s) =>
    if fh = 0 then (.failed, s) else
    let s := s.touch fh
    if (s.file fh).isLnk = false then (.failed, s) else
    match myPread fh size 0 s with
    | (.stored ret link, s) => if ret = anErr then (.failed, s) else (.stored ok link, s)
    | (out, s) => (out, s)

def findIno (path : Str) (s : Fs) : ℕ × Fs :=
  match findRealIno path s with
  | (fh, s) =>
    let s := s.touch fh
    if (s.file fh).isLnk then
      match myReadlink path 50 s with
      | (.stored _ link, s) => findRealIno link s
      | (_, s) => (errIno, s)
    else (fh, s)

def nameIn (v : View) (name : Str) (fh : ℕ) : ℕ :=
  if (v fh).isDir then ((v fh).dentries.find? (fun d => d.dName == name)).elim 0 Dirent.dIno else 0

def walk (v : View) : ℕ → List Str → ℕ
  | fh, [] => fh
  | fh, it::segs =>
    if it = [] then walk v fh segs
    else if (v fh).isDir then walk v (nameIn v it fh) segs else 0

/-- The string `find_ino` reads out of a link, when `my_pread` succeeds. -/
def linkText (f : File) : Option Str :=
  if toInt32 f.data.length < 0 then none
  else if toU64 (toInt32 f.data.length) < 49 then some (cstr f.data)
  else some (cstr (f.data.take 50))

def real (v : View) (path : Str) : ℕ := walk v 2 (segments path)

def follow (v : View) (fh : ℕ) : ℕ :=
  if (v fh).isLnk then
    if fh = 0 then errIno else (linkText (v fh)).elim errIno (real v)
  else fh

def resolve (v : View) (path : Str) : ℕ := follow v (real v path)

theorem lookupLoop_eq (name : Str) (fh : ℕ) (s : Fs) (hs : fh ∈ s.entry)
    (fuel index : ℕ) (h : (s.file fh).dentries.length+1 ≤ fuel+index)
    (hi : index ≤ (s.file fh).dentries.length) :
    lookupLoop name fuel ⟨fh,index⟩ s =
      ((((s.file fh).dentries.drop index).find? (fun d => d.dName == name)).elim 0 Dirent.dIno,
        s) := by
  induction fuel generalizing index with
  | zero => omega
  | succ fuel ih =>
    rw [lookupLoop]
    simp only [myReaddir, Fs.touch_of_mem hs]
    by_cases he : index = (s.file fh).dentries.length
    · simp [he]
    · have hlt : index < (s.file fh).dentries.length := by omega
      simp only [he, if_false, List.getElem?_eq_getElem hlt]
      rw [List.drop_eq_getElem_cons hlt, List.find?_cons]
      by_cases hn : ((s.file fh).dentries[index]).dName = name
      · rw [if_pos hn, beq_iff_eq.mpr hn]
        rfl
      · rw [if_neg hn, ih (index+1) (by omega) (by omega), beq_eq_false_iff_ne.mpr hn]

theorem lookup_eq (name : Str) (fh : ℕ) (s : Fs) :
    lookup name fh s = (nameIn s.file name fh, s.touch fh) := by
  have hm : fh ∈ (s.touch fh).entry := mem_touch.mpr (Or.inl rfl)
  unfold lookup fopendir nameIn
  by_cases hd : (s.file fh).isDir = true
  · simp only [Fs.touch_file, hd, Bool.true_eq_false, if_false, if_true]
    have hl := lookupLoop_eq name fh (s.touch fh) hm ((s.file fh).dentries.length+1) 0
      (by simp) (Nat.zero_le _)
    rw [hl]
    simp
  · simp [hd]

theorem findRealLoop_eq (segs : List Str) (fh : ℕ) (s : Fs) :
    findRealLoop segs fh s = (walk s.file fh segs, s) := by
  induction segs generalizing fh with
  | nil => rfl
  | cons it segs ih =>
    rw [findRealLoop, walk]
    by_cases he : it = []
    · simp only [he, if_true, ih]
    by_cases hm : fh ∈ s.entry
    · simp only [he, if_false, hm, not_true_eq_false, lookup_eq, Fs.touch_of_mem hm, ih]
      split_ifs <;> rfl
    · have hd : (s.file fh).isDir = false := by
        rw [Fs.file, read_of_notMem hm, File.default_isDir]
      simp [he, hm, hd]

theorem findRealIno_eq (path : Str) (s : Fs) : findRealIno path s = (real s.file path, s) :=
  findRealLoop_eq (segments path) 2 s

theorem toU64_zero : toU64 0 = 0 := rfl

theorem toInt32_range (x : ℤ) : -2^31 ≤ toInt32 x ∧ toInt32 x < 2^31 := by
  have hl := Int.le_bmod (x := x) (m := 2^32) (by decide)
  have hr := Int.bmod_lt (x := x) (m := 2^32) (by decide)
  simp only [toInt32]
  omega

theorem toInt32_of_range {x : ℤ} (h0 : 0 ≤ x) (h1 : x < 2^31) : toInt32 x = x := by
  rw [toInt32]
  exact Int.bmod_eq_of_le (by omega) (by omega)

theorem myPread_link {fh : ℕ} {s : Fs} (hl : (s.file fh).isLnk = true) :
    ∃ ret, ret ≠ anErr ∧ myPread fh 50 0 s =
      ((linkText (s.file fh)).elim .failed (fun t => .stored ret t), s.touch fh) := by
  have hd : (s.file fh).isDir = false := isDir_of_isLnk hl
  have hr := toInt32_range (s.file fh).data.length
  have hu : toU64 (0+((50:ℕ):ℤ)-1) = 49 := rfl
  have h50 : toInt32 50 ≠ anErr := by decide
  simp only [myPread, Fs.touch_file, hd, Bool.false_eq_true, if_false, linkText, toU64_zero,
    Nat.not_lt_zero, hu, List.drop_zero]
  by_cases hneg : toInt32 (s.file fh).data.length < 0
  · exact ⟨0,by decide,by simp [hneg]⟩
  · simp only [hneg, if_false]
    by_cases h49 : toU64 (toInt32 (s.file fh).data.length) < 49
    · refine ⟨toInt32 (toInt32 (s.file fh).data.length),?_,by simp [h49]⟩
      rw [toInt32_of_range (by omega) hr.2, anErr]
      omega
    · exact ⟨toInt32 50,h50,by simp [h49]⟩

theorem myReadlink_eq (path : Str) (s : Fs) (h0 : real s.file path ≠ 0)
    (hl : (s.file (real s.file path)).isLnk = true) :
    ∃ ret, myReadlink path 50 s =
      ((linkText (s.file (real s.file path))).elim .failed (fun t => .stored ret t),
        s.touch (real s.file path)) := by
  have ht : (s.touch (real s.file path)).touch (real s.file path) = s.touch (real s.file path) :=
    Fs.touch_of_mem (mem_touch.mpr (Or.inl rfl))
  obtain ⟨ret,hret,hread⟩ := myPread_link (s := s.touch (real s.file path))
    (by rw [Fs.touch_file]; exact hl)
  refine ⟨ok,?_⟩
  simp only [myReadlink, findRealIno_eq, h0, if_false, Fs.touch_file, hl, Bool.true_eq_false,
    hread, ht]
  cases linkText (s.file (real s.file path)) with
  | none => rfl
  | some t => simp [hret]

/-- `find_ino` returns the resolved handle and inserts at most the key it
found before following a link. -/
theorem findIno_eq (path : Str) (s : Fs) :
    findIno path s = (resolve s.file path, s.touch (real s.file path)) := by
  have ht : (s.touch (real s.file path)).touch (real s.file path) = s.touch (real s.file path) :=
    Fs.touch_of_mem (mem_touch.mpr (Or.inl rfl))
  simp only [findIno, findRealIno_eq, Fs.touch_file, resolve, follow]
  by_cases hl : (s.file (real s.file path)).isLnk = true
  · simp only [hl, if_true]
    by_cases h0 : real s.file path = 0
    · simp [myReadlink, findRealIno_eq, h0]
    · obtain ⟨ret,hr⟩ := myReadlink_eq path (s.touch (real s.file path))
        (by simpa using h0) (by simpa using hl)
      simp only [Fs.touch_file, ht] at hr
      rw [hr, if_neg h0]
      cases hx : linkText (s.file (real s.file path)) with
      | none => simp
      | some t => simp
  · simp [hl]

end Bbfs.Resolve
