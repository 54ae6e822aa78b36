import Bbfs.FreedCopy
import Bbfs.Listing

/-!
# What `ls` prints

`ls` describes a file, or every entry of a directory, by `describe_file`. Neither
returns a value on every branch and no caller looks at one, so here they have
lines only. A user or a group without a name is printed by its number. Every
path is looked up anew, and each lookup reads copies of its own.
-/

set_option autoImplicit false

namespace Bbfs.Describe
open Bbfs.Strings Bbfs.Files Bbfs.Resolve Bbfs.Calls Bbfs.Session Bbfs.Walks Bbfs.Effects
open Bbfs.Numbers Bbfs.Tree Bbfs.Placement Bbfs.Dangling Bbfs.Names Bbfs.Quiet Bbfs.Listing
open Bbfs.FreedCopy (Copies Spares intact nameLeft walkLeft narrow)

structure Description where
  line : Line
  plus : Char
  target : Option Str
  deriving DecidableEq

def letterOf (m : Mode) : Char := if S_ISDIR m then 'd' else if S_ISLNK m then 'l' else '-'

def ownerName (name : Option Str) (id : ℕ) : Str := name.getD (Nat.toDigits 10 id)

def describeFile (host : Host) (m : ℕ → Copies) (fuel : ℕ) (pathname : Str) (s : Fs) :
    Option (Option Description × Fs) :=
  match FreedCopy.myLstat (m 0) fuel pathname s with
  | none => none
  | some ((_, none), s) => some (none, s)
  | some ((err, some st), s) =>
    if err ≠ 0 then some (none, s) else
    match FreedCopy.findIno (fun k => m (k+1)) fuel pathname s with
    | none => none
    | some (fh, s) =>
      if fh = 0 then some (none, s) else
      let s := s.touch fh
      -- the file that a link leads to
      let plus := if (s.file fh).xattr.keys.card ≠ 0 then '+' else ' '
      match Splitting.split pathname slash fuel with
      | none => none
      | some v =>
        let out := line host (letterOf st.stMode) st
          (ownerName (host.getpwuid st.stUid) st.stUid)
          (ownerName (host.getgrgid st.stGid) st.stGid) (v.getLastD [])
        if S_ISLNK st.stMode then
          match FreedCopy.findRealIno (m 4) fuel pathname s with
          | none => none
          | some (fh, s) => some (some ⟨out,plus,some ((s.touch fh).file fh).data⟩, s.touch fh)
        else some (some ⟨out,plus,none⟩, s)

def lsLoop (host : Host) (m : ℕ → ℕ → Copies) (fuel : ℕ) (path : Str) :
    List Dirent → Fs → Option (List Description × Fs)
  | [], s => some ([], s)
  | it::v, s =>
    match describeFile host (m 0) fuel (path++slash++it.dName) s with
    | none => none
    | some (out, s) =>
      (lsLoop host (fun i => m (i+1)) fuel path v s).map (fun outs => (out.toList++outs.1, outs.2))

def ls (host : Host) (m : ℕ → ℕ → Copies) (fuel : ℕ) (path : Str) (s : Fs) :
    Option (List Description × Fs) :=
  match FreedCopy.findRealIno (m 0 0) fuel path s with
  | none => none
  | some (fh, s) =>
    if fh = 0 then some ([], s) else
    let s := s.touch fh
    if (s.file fh).isDir = false then
      (describeFile host (m 1) fuel path s).map (fun out => (out.1.toList, out.2))
    else lsLoop host (fun i => m (i+1)) fuel path (s.file fh).dentries s

variable {host : Host} {v : View} {s : Fs} {path : Str} {d : Dirent} {m : Mode}

def columnBits : List (ℕ × Char) :=
  [(8,'r'),(7,'w'),(6,'x'),(5,'r'),(4,'w'),(3,'x'),(2,'r'),(1,'w'),(0,'x')]

theorem columns_eq (m : Mode) :
    columns m = columnBits.map (fun b => column m (BitVec.twoPow 32 b.1) b.2) := rfl

def readColumns (cs : List Char) : Mode :=
  (List.zipWith (fun b c => if c = '-' then 0#32 else BitVec.twoPow 32 b.1) columnBits cs).foldr
    (· ||| ·) 0#32

theorem read_column (m : Mode) (b : ℕ × Char) (hc : b.2 ≠ '-') :
    (if column m (BitVec.twoPow 32 b.1) b.2 = '-' then 0#32 else BitVec.twoPow 32 b.1) =
      m &&& BitVec.twoPow 32 b.1 := by
  rw [column, BitVec.and_twoPow]
  split_ifs <;> simp_all

theorem foldr_and (m : Mode) (bs : List (ℕ × Char)) :
    (bs.map (fun b => m &&& BitVec.twoPow 32 b.1)).foldr (· ||| ·) 0#32 =
      m &&& (bs.map (fun b => BitVec.twoPow 32 b.1)).foldr (· ||| ·) 0#32 := by
  induction bs with
  | nil => simp
  | cons b bs ih => rw [List.map_cons, List.foldr_cons, ih, List.map_cons, List.foldr_cons,
      BitVec.and_or_distrib_left]

theorem readColumns_columns (m : Mode) : readColumns (columns m) = m &&& 0o777#32 := by
  have hread : ∀ b ∈ columnBits,
      (if column m (BitVec.twoPow 32 b.1) b.2 = '-' then 0#32 else BitVec.twoPow 32 b.1) =
        m &&& BitVec.twoPow 32 b.1 :=
    fun b hb => read_column m b (by
      revert b
      decide)
  rw [readColumns, columns_eq, List.zipWith_map_right, List.zipWith_self,
    List.map_congr_left hread, foldr_and]
  rfl

structure Tells (host : Host) (v : View) (d : Dirent) (out : Description) : Prop where
  ino : out.line.ino = d.dIno
  name : out.line.name = d.dName
  dir : out.line.letter = 'd' ↔ (v d.dIno).isDir = true
  lnk : out.line.letter = 'l' ↔ (v d.dIno).isLnk = true
  perm : readColumns out.line.mode = (v d.dIno).metadata.stMode &&& 0o777#32
  nlink : out.line.nlink = toInt32 (v d.dIno).metadata.stNlink
  size : out.line.size = (v d.dIno).metadata.stSize
  plus : out.plus = '+' ↔ (v (follow v d.dIno)).xattr.keys ≠ ∅
  target : out.target = if (v d.dIno).isLnk then some (v d.dIno).data else none

theorem letterOf_dir (f : File) : letterOf f.metadata.stMode = 'd' ↔ f.isDir = true := by
  rw [letterOf, File.isDir]
  split_ifs <;> simp_all

theorem letterOf_lnk (f : File) : letterOf f.metadata.stMode = 'l' ↔ f.isLnk = true := by
  have hx := (type_exclusive f).1
  rw [File.isDir, File.isLnk] at hx
  rw [letterOf, File.isLnk]
  split_ifs with hd hl
  · simp [(hx hd).2]
  · simp [hl]
  · simp [hl]

def description (host : Host) (v : View) (d : Dirent) : Description where
  line := line host (letterOf (v d.dIno).metadata.stMode) (v d.dIno).metadata
    (ownerName (host.getpwuid (v d.dIno).metadata.stUid) (v d.dIno).metadata.stUid)
    (ownerName (host.getgrgid (v d.dIno).metadata.stGid) (v d.dIno).metadata.stGid) d.dName
  plus := if (v (follow v d.dIno)).xattr.keys.card ≠ 0 then '+' else ' '
  target := if (v d.dIno).isLnk then some (v d.dIno).data else none

theorem tells_description (host : Host) (hm : (v d.dIno).metadata.stIno = d.dIno) :
    Tells host v d (description host v d) where
  ino := hm
  name := rfl
  dir := letterOf_dir (v d.dIno)
  lnk := letterOf_lnk (v d.dIno)
  perm := readColumns_columns (v d.dIno).metadata.stMode
  nlink := by rw [description, line]
  size := rfl
  plus := by
    by_cases hc : (v (follow v d.dIno)).xattr.keys = ∅ <;> simp [description, hc]
  target := rfl

theorem find?_or_lost {left : ℕ → Dirent → Dirent} {name : Str}
    (hl : ∀ i d, left i d = d ∨ d.dName = dot ∧ (left i d).dName = []) (h0 : name ≠ [])
    {l : List Dirent} (hnd : (l.map Dirent.dName).Nodup) :
    (l.mapIdx left).find? (fun d => d.dName == name) = l.find? (fun d => d.dName == name) ∨
      (l.mapIdx left).find? (fun d => d.dName == name) = none := by
  induction l generalizing left with
  | nil => exact Or.inl rfl
  | cons d l ih =>
    rw [List.map_cons, List.nodup_cons] at hnd
    have hrest := ih (fun i => hl (i+1)) hnd.2
    rw [List.mapIdx_cons, List.find?_cons, List.find?_cons]
    rcases hl 0 d with hsame | ⟨-,hlost⟩
    · rw [hsame]
      cases d.dName == name with
      | true => exact Or.inl rfl
      | false => exact hrest
    · rw [hlost, beq_eq_false_iff_ne.mpr (Ne.symm h0)]
      by_cases hn : d.dName = name
      · -- The name is not there again.
        have hnone : l.find? (fun d => d.dName == name) = none := by
          rw [List.find?_eq_none]
          intro e he hen
          refine hnd.1 ?_
          rw [hn, ← beq_iff_eq.mp hen]
          exact List.mem_map_of_mem he
        rw [hnone] at hrest
        exact Or.inr (hrest.elim id id)
      · rw [beq_eq_false_iff_ne.mpr hn]
        exact hrest

theorem nameLeft_or_lost {left : ℕ → Dirent → Dirent} {name : Str}
    (hl : ∀ i d, left i d = d ∨ d.dName = dot ∧ (left i d).dName = []) (h0 : name ≠ [])
    (hu : UniqueNames v) (fh : ℕ) :
    nameLeft left v name fh = nameIn v name fh ∨ nameLeft left v name fh = 0 := by
  rw [nameLeft, nameIn]
  by_cases hd : (v fh).isDir = true
  · rw [if_pos hd, if_pos hd]
    rcases find?_or_lost hl h0 (hu fh hd) with hf | hf
    · exact Or.inl (by rw [hf])
    · exact Or.inr (by rw [hf]; rfl)
  · rw [if_neg hd, if_neg hd]
    exact Or.inl rfl

theorem walkLeft_zero {m : Copies} (h : (v 0).isDir = false) (segs : List Str) :
    walkLeft v m segs 0 = 0 := by
  induction segs with
  | nil => rfl
  | cons it segs ih =>
    rw [walkLeft, ih, h]
    simp

/-- A walk that misses a dot ends nowhere. -/
theorem walkLeft_or_lost {m : Copies} (hm : Spares m) (hu : UniqueNames v)
    (h0 : (v 0).isDir = false) (segs : List Str) (fh : ℕ) :
    walkLeft v m segs fh = walk v fh segs ∨ walkLeft v m segs fh = 0 := by
  induction segs generalizing m fh with
  | nil => exact Or.inl rfl
  | cons it segs ih =>
    rw [walkLeft, walk]
    split_ifs with he hd
    · exact ih hm fh
    · rcases nameLeft_or_lost (hm 0) he hu fh with hn | hn
      · rw [hn]
        exact ih (fun k => hm (k+1)) _
      · rw [hn]
        exact Or.inr (walkLeft_zero h0 segs)
    · exact Or.inl rfl

def DottedLink (v : View) (i : ℕ) : Prop :=
  (v i).isLnk = true ∧ ∃ t ∈ linkText (v i), dot ∈ segments t

instance (v : View) (i : ℕ) : Decidable (DottedLink v i) := inferInstanceAs (Decidable (_ ∧ _))

theorem length_linkText {f : File} {t : Str} (h : linkText f = some t) :
    t.length ≤ f.data.length := by
  have hcstr : ∀ l : Str, (cstr l).length ≤ l.length :=
    fun l => (List.takeWhile_sublist _).length_le
  rw [linkText] at h
  split_ifs at h with hn hw
  · rw [← Option.some.inj h]
    exact hcstr f.data
  · rw [← Option.some.inj h]
    have htake : (f.data.take 50).length ≤ f.data.length := List.length_take_le' 50 f.data
    exact (hcstr _).trans htake

theorem walkLeft_kept {m : Copies} (hm : Spares m) {segs : List Str} (h : m = intact ∨ dot ∉ segs)
    (fh : ℕ) : walkLeft v m segs fh = walk v fh segs := by
  rcases h with rfl | h
  · exact FreedCopy.walkLeft_intact segs fh
  · exact FreedCopy.walkLeft_spared hm h fh

/-- What the lookups of a path rest on: numbers that an `int` holds, names that are
not there twice, and strings that `split` takes apart. -/
structure Readable (v : View) (fuel : ℕ) (path : Str) : Prop where
  zero : (v 0).isDir = false ∧ (v 0).isLnk = false
  distinct : UniqueNames v
  narrow : ∀ segs, narrow (walk v 2 segs) = walk v 2 segs
  whole : Splitting.split path slash fuel = some (segments path)
  text : ∀ t, linkText (v (real v path)) = some t →
    Splitting.split t slash fuel = some (segments t)
  link : (v (real v path)).isLnk = true → dot ∉ segments path

theorem findIno_spared {m : ℕ → Copies} {fuel : ℕ} (hm : ∀ k, Spares (m k)) (hs : s.file = v)
    (hr : Readable v fuel path) : ∃ fh t, t.file = v ∧
      FreedCopy.findIno m fuel path s = some (fh, t) ∧ (fh = resolve v path ∨ fh = 0) ∧
      ((∀ k, m k = intact) ∨ dot ∉ segments path ∧ ¬ DottedLink v (real v path) →
        fh = resolve v path) := by
  subst hs
  have hreal := FreedCopy.findRealIno_split (m := m 0) (s := s) hr.whole
  have hn0 : narrow 0 = 0 := FreedCopy.narrow_eq (Or.inl (by omega))
  rw [FreedCopy.findIno, hreal]
  simp only
  rcases walkLeft_or_lost (hm 0) hr.distinct hr.zero.1 (segments path) 2 with hw | hw
  · have hn : narrow (real s.file path) = real s.file path := hr.narrow _
    rw [hw, show walk s.file 2 (segments path) = real s.file path from rfl, hn]
    by_cases hl : (s.file (real s.file path)).isLnk = true
    · have hdot := hr.link hl
      have h0 : real s.file path ≠ 0 := by
        intro h0
        rw [h0, hr.zero.2] at hl
        exact Bool.false_ne_true hl
      have htouch : (s.touch (real s.file path)).file = s.file := Fs.touch_file _ _
      have htt : (s.touch (real s.file path)).touch (real s.file path) =
          s.touch (real s.file path) := Fs.touch_of_mem (InsertingMap.mem_touch.mpr (Or.inl rfl))
      have hfound : FreedCopy.findRealIno (m 1) fuel path (s.touch (real s.file path)) =
          some (real (s.touch (real s.file path)).file path, s.touch (real s.file path)) :=
        FreedCopy.findRealIno_spared (hm 1) hdot hr.whole
      obtain ⟨ret,hread⟩ := myReadlink_eq path (s.touch (real s.file path))
        (by rwa [htouch]) (by rwa [htouch])
      simp only [htouch, htt] at hread
      have hresolve : resolve s.file path =
          (linkText (s.file (real s.file path))).elim errIno (real s.file) := by
        rw [resolve, follow, if_pos hl, if_neg h0]
      simp only [htouch, hl, if_true, FreedCopy.myReadlink_found hfound, hread]
      cases hx : linkText (s.file (real s.file path)) with
      | none =>
        rw [hx] at hresolve
        exact ⟨errIno,_,htouch,rfl,Or.inl hresolve.symm,fun _ => hresolve.symm⟩
      | some t =>
        rw [hx] at hresolve
        simp only [Option.elim_some] at hresolve ⊢
        rw [FreedCopy.findRealIno_split (hr.text t hx), htouch, Option.map_some]
        refine ⟨_,_,htouch,rfl,?_,?_⟩
        · rw [hresolve]
          rcases walkLeft_or_lost (hm 2) hr.distinct hr.zero.1 (segments t) 2 with ht | ht
          · exact Or.inl (by rw [ht, hr.narrow]; rfl)
          · exact Or.inr (by rw [ht, hn0])
        · intro hkept
          have hseg : m 2 = intact ∨ dot ∉ segments t :=
            hkept.imp (fun hall => hall 2) (fun hno hd => hno.2 ⟨hl,t,hx,hd⟩)
          rw [hresolve, walkLeft_kept (hm 2) hseg, hr.narrow]
          rfl
    · have hresolve : resolve s.file path = real s.file path :=
        follow_not_lnk (Bool.eq_false_iff.mpr hl)
      rw [Fs.touch_file, if_neg hl, hresolve]
      exact ⟨_,_,Fs.touch_file _ _,rfl,Or.inl rfl,fun _ => rfl⟩
  · rw [hw, hn0, Fs.touch_file, if_neg (by simp [hr.zero.2])]
    refine ⟨0,_,Fs.touch_file _ _,rfl,Or.inr rfl,fun hkept => ?_⟩
    have hreal0 : real s.file path = 0 := by
      rw [real, ← walkLeft_kept (hm 0) (hkept.imp (fun hall => hall 0) And.left), hw]
    rw [resolve, hreal0, follow_not_lnk hr.zero.2]

/-- A file that was made is described rightly or not at all, and only a lost dot or
a link that leads nowhere is left out. -/
theorem describeFile_spared {m : ℕ → Copies} {fuel : ℕ} (host : Host) (hm : ∀ k, Spares (m k))
    (hs : s.file = v) (hr : Readable v fuel path) (hmade : Made v (real v path)) :
    ∃ out t, describeFile host m fuel path s = some (out, t) ∧ t.file = v ∧
      (out = none ∨ resolve v path ≠ 0 ∧
        out = some (description host v ⟨tail path,real v path⟩)) ∧
      ((∀ k, m k = intact) ∨ dot ∉ segments path ∧ ¬ DottedLink v (real v path) →
        resolve v path ≠ 0 → out ≠ none) := by
  subst hs
  have hmem : real s.file path ∈ s.entry := mem_of_made hmade
  have hreal := FreedCopy.findRealIno_split (m := m 0) (s := s) hr.whole
  rw [describeFile, FreedCopy.myLstat, hreal, Option.map_some]
  rcases walkLeft_or_lost (hm 0) hr.distinct hr.zero.1 (segments path) 2 with hw | hw
  · obtain ⟨fh,t,ht,hfind,hor,hexact⟩ := findIno_spared (fun k => hm (k+1)) rfl hr
    have hw' : walkLeft s.file (m 0) (segments path) 2 = real s.file path := hw
    rw [hw', if_neg hmade.1, myFstat, if_neg (by simpa using hmem)]
    simp only [ok, ne_eq, not_true_eq_false, if_false, hfind]
    by_cases h0 : fh = 0
    · rw [if_pos h0]
      refine ⟨none,t,rfl,ht,Or.inl rfl,fun hkept hne => ?_⟩
      exact absurd ((hexact (hkept.imp_left (fun hall k => hall (k+1)))).symm.trans h0) hne
    rw [if_neg h0, hr.whole]
    have hfh : fh = resolve s.file path := hor.resolve_right h0
    have htouch : (t.touch fh).file = s.file := (Fs.touch_file t fh).trans ht
    have hne : resolve s.file path ≠ 0 := hfh ▸ h0
    by_cases hl : (s.file (real s.file path)).isLnk = true
    · have hmode : S_ISLNK (s.file (real s.file path)).metadata.stMode = true := hl
      have hagain := FreedCopy.findRealIno_spared (s := t.touch fh) (hm 4) (hr.link hl) hr.whole
      simp only [hmode, if_true, hagain, htouch]
      refine ⟨_,_,rfl,(Fs.touch_file _ _).trans htouch,Or.inr ⟨hne,?_⟩,fun _ _ => by simp⟩
      rw [description]
      simp only [hl, if_true, Fs.touch_file, htouch]
      rw [← resolve, ← hfh]
      rfl
    · have hmode : S_ISLNK (s.file (real s.file path)).metadata.stMode = false :=
        Bool.eq_false_iff.mpr hl
      simp only [hmode, Bool.false_eq_true, if_false]
      refine ⟨_,_,rfl,htouch,Or.inr ⟨hne,?_⟩,fun _ _ => by simp⟩
      rw [description]
      simp only [hl, Bool.false_eq_true, if_false, htouch]
      rw [← resolve, ← hfh]
      rfl
  · rw [hw, if_pos rfl]
    refine ⟨none,s,rfl,rfl,Or.inl rfl,fun hkept _ => ?_⟩
    have hreal0 : real s.file path = 0 := by
      rw [real, ← walkLeft_kept (hm 0) (hkept.imp (fun hall => hall 0) And.left), hw]
    exact absurd hreal0 hmade.1

theorem real_entry (h0 : (v 0).isDir = false) (hd : (v (real v path)).isDir = true)
    (hs : '/' ∉ d.dName) (hne : d.dName ≠ []) :
    real v (path++slash++d.dName) = nameIn v d.dName (real v path) := by
  have hp : path++slash++d.dName = path++ '/'::d.dName := by
    rw [List.append_assoc]
    rfl
  rw [hp, real_append h0, segments_of_slash_free _ hs, walk, if_neg hne, if_pos hd, walk]

theorem segments_entry (path : Str) (hs : '/' ∉ d.dName) :
    segments (path++slash++d.dName) = segments path++[d.dName] := by
  have hp : path++slash++d.dName = path++ '/'::d.dName := by
    rw [List.append_assoc]
    rfl
  rw [hp, segments_append, segments_of_slash_free _ hs]

theorem tail_entry (path : Str) (hs : '/' ∉ d.dName) : tail (path++slash++d.dName) = d.dName := by
  rw [tail, segments_entry path hs, List.getLastD_concat]

/-- The entries whose files are described: those of a directory, or the file itself. -/
def entriesAt (v : View) (path : Str) : List Dirent :=
  if (v (real v path)).isDir then (v (real v path)).dentries
  else if real v path = 0 then [] else [⟨tail path,real v path⟩]

theorem lsLoop_spared {m : ℕ → ℕ → Copies} {fuel : ℕ} (host : Host)
    (hm : ∀ i k, Spares (m i k)) (hdot : dot ∉ segments path) (hs : s.file = v)
    (ds : List Dirent) (hall : ∀ d ∈ ds, Made v d.dIno ∧ '/' ∉ d.dName ∧
      Readable v fuel (path++slash++d.dName) ∧ real v (path++slash++d.dName) = d.dIno) :
    ∃ (shown : List Dirent) (t : Fs),
      lsLoop host m fuel path ds s = some (shown.map (description host v), t) ∧ t.file = v ∧
      shown.Sublist (ds.filter (fun d => follow v d.dIno ≠ 0)) ∧
      ∀ d ∈ ds, follow v d.dIno ≠ 0 →
        (∀ i k, m i k = intact) ∨ d.dName ≠ dot ∧ ¬ DottedLink v d.dIno → d ∈ shown := by
  induction ds generalizing m s with
  | nil => exact ⟨[],s,rfl,hs,List.Sublist.slnil,fun d hd => absurd hd List.not_mem_nil⟩
  | cons d ds ih =>
    obtain ⟨hmade,hslash,hread,hreal⟩ := hall d List.mem_cons_self
    obtain ⟨out,t,hout,ht,hor,hexact⟩ :=
      describeFile_spared host (hm 0) hs hread (hreal.symm ▸ hmade)
    obtain ⟨shown,t',hloop,ht',hsub,hshown⟩ := ih (m := fun i => m (i+1)) (fun i => hm (i+1)) ht
      (fun e he => hall e (List.mem_cons_of_mem d he))
    have hlater : ∀ e ∈ ds, follow v e.dIno ≠ 0 →
        (∀ i k, m i k = intact) ∨ e.dName ≠ dot ∧ ¬ DottedLink v e.dIno → e ∈ shown :=
      fun e he hne hkept => hshown e he hne (hkept.imp_left (fun hall i => hall (i+1)))
    rw [resolve, hreal, tail_entry path hslash] at hor
    rw [resolve, hreal, segments_entry path hslash, List.mem_append, List.mem_singleton, not_or]
      at hexact
    rw [lsLoop, hout]
    simp only [hloop, Option.map_some]
    rcases hor with rfl | ⟨hne,rfl⟩
    · refine ⟨shown,t',rfl,ht',hsub.trans ((List.sublist_cons_self d ds).filter _),?_⟩
      intro e he hne hkept
      rcases List.mem_cons.mp he with rfl | he
      · refine absurd rfl (hexact ?_ hne)
        exact hkept.imp (fun hall => hall 0) (fun hplain => ⟨⟨hdot,Ne.symm hplain.1⟩,hplain.2⟩)
      · exact hlater e he hne hkept
    · refine ⟨d::shown,t',rfl,ht',?_,?_⟩
      · rw [List.filter_cons_of_pos (by simpa using hne)]
        exact hsub.cons_cons d
      · intro e he hne hkept
        rcases List.mem_cons.mp he with rfl | he
        · exact List.mem_cons_self
        · exact List.mem_cons_of_mem d (hlater e he hne hkept)

def Shows (host : Host) (m : ℕ → ℕ → Copies) (v : View) (path : Str)
    (outs : List Description) : Prop :=
  ∃ shown : List Dirent, outs = shown.map (description host v) ∧
    shown.Sublist ((entriesAt v path).filter (fun d => follow v d.dIno ≠ 0)) ∧
    ∀ d ∈ entriesAt v path, follow v d.dIno ≠ 0 →
      (∀ i k, m i k = intact) ∨ d.dName ≠ dot ∧ ¬ DottedLink v d.dIno → d ∈ shown

theorem ls_dir {m : ℕ → ℕ → Copies} {fuel : ℕ} (host : Host) (hm : ∀ i k, Spares (m i k))
    (hdot : dot ∉ segments path) (hs : s.file = v)
    (hsplit : Splitting.split path slash fuel = some (segments path)) (h0 : real v path ≠ 0)
    (hd : (v (real v path)).isDir = true)
    (hall : ∀ d ∈ (v (real v path)).dentries, Made v d.dIno ∧ '/' ∉ d.dName ∧
      Readable v fuel (path++slash++d.dName) ∧ real v (path++slash++d.dName) = d.dIno) :
    ∃ outs t, ls host m fuel path s = some (outs, t) ∧ t.file = v ∧
      Shows host m v path outs := by
  subst hs
  have ht : (s.touch (real s.file path)).file = s.file := Fs.touch_file _ _
  have hat : entriesAt s.file path = (s.file (real s.file path)).dentries := by
    rw [entriesAt, if_pos hd]
  obtain ⟨shown,t,hloop,htf,hsub,hshown⟩ := lsLoop_spared (m := fun i => m (i+1)) host
    (fun i => hm (i+1)) hdot ht (s.file (real s.file path)).dentries hall
  have hreal : FreedCopy.findRealIno (m 0 0) fuel path s = some (real s.file path, s) :=
    FreedCopy.findRealIno_spared (hm 0 0) hdot hsplit
  refine ⟨_,t,?_,htf,shown,rfl,hat ▸ hsub,?_⟩
  · rw [ls, hreal]
    simp only [h0, if_false, ht, hd, Bool.true_eq_false, hloop]
  · rw [hat]
    intro d hm' hne hkept
    exact hshown d hm' hne (hkept.imp_left (fun hintact i => hintact (i+1)))

theorem ls_file {m : ℕ → ℕ → Copies} {fuel : ℕ} (host : Host) (hm : ∀ i k, Spares (m i k))
    (hdot : dot ∉ segments path) (hs : s.file = v) (hr : Readable v fuel path)
    (hmade : Made v (real v path)) (hd : (v (real v path)).isDir = false) :
    ∃ outs t, ls host m fuel path s = some (outs, t) ∧ t.file = v ∧
      Shows host m v path outs := by
  subst hs
  have ht : (s.touch (real s.file path)).file = s.file := Fs.touch_file _ _
  have hat : entriesAt s.file path = [⟨tail path,real s.file path⟩] := by
    rw [entriesAt, hd, if_neg Bool.false_ne_true, if_neg hmade.1]
  have hreal : FreedCopy.findRealIno (m 0 0) fuel path s = some (real s.file path, s) :=
    FreedCopy.findRealIno_spared (hm 0 0) hdot hr.whole
  obtain ⟨out,t,hout,htf,hor,hexact⟩ := describeFile_spared host (hm 1) ht hr hmade
  refine ⟨out.toList,t,?_,htf,?_⟩
  · rw [ls, hreal]
    simp only [hmade.1, if_false, ht, hd, if_true, hout, Option.map_some]
  · rw [Shows, hat]
    rcases hor with rfl | ⟨hne,rfl⟩
    · refine ⟨[],rfl,List.nil_sublist _,?_⟩
      intro d hm' hne hkept
      rw [List.mem_singleton.mp hm'] at hne hkept
      refine absurd rfl (hexact ?_ hne)
      exact hkept.imp (fun hintact => hintact 1) (fun hplain => ⟨hdot,hplain.2⟩)
    · refine ⟨[⟨tail path,real s.file path⟩],rfl,?_,fun d hm' _ _ => hm'⟩
      have hne' : follow s.file (real s.file path) ≠ 0 := hne
      rw [List.filter_cons_of_pos (by simpa using hne')]
      exact List.Sublist.refl _

variable {env : Env}

def linkedCalls : List Call :=
  [.mkdir ['/','d'] 0o755#32,.creat ['/','d','/','f'] 0o644#32,
    .symlink ['/','d','/','f'] ['/','d','/','l'],.symlink ['/','x'] ['/','d','/','m']]

def dotLost : ℕ → ℕ → Copies := fun _ _ _ _ d => if d.dName = dot then ⟨[],0⟩ else d

theorem spares_dotLost (i k : ℕ) : Spares (dotLost i k) := by
  intro j n d
  by_cases hd : d.dName = dot
  · exact Or.inr ⟨hd,by rw [dotLost, if_pos hd]⟩
  · exact Or.inl (by rw [dotLost, if_neg hd])

example : (ls plainHost dotLost 20 ['/','d'] (after linkedCalls)).map
    (fun out => out.1.map (fun d => d.line.name)) = some [dotdot,['f'],['l']] := by decide +kernel

end Bbfs.Describe
