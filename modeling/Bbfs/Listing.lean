import Bbfs.FreedCopy
import Bbfs.Normal
import Bbfs.Quiet

/-!
# What the recursive listing prints

`visit` prints a block for each directory: a header, a total and one line for
each name in it, sorted. The layout that `printf` gives the fields of a line is
left out. Users, groups and dates are what the system says; a user or a group
without a name is dereferenced all the same. What the entries read as that
`my_readdir` returns is an argument; the paths looked up name no dot, and the
lookups find their entries.
-/

set_option autoImplicit false

namespace Bbfs.Listing
open Bbfs.Strings Bbfs.Files Bbfs.Resolve Bbfs.Calls Bbfs.Session Bbfs.Walks Bbfs.Effects
open Bbfs.Numbers Bbfs.Directories Bbfs.Visit Bbfs.Forest Bbfs.Tally Bbfs.Tree Bbfs.Placement
open Bbfs.Dangling Bbfs.Names Bbfs.Normal Bbfs.Quiet Relation

structure Host where
  getpwuid : ℕ → Option Str
  getgrgid : ℕ → Option Str
  strftime : ℤ → Str

def S_IRGRP : Mode := 0o040#32
def S_IWGRP : Mode := 0o020#32
def S_IXGRP : Mode := 0o010#32
def S_IROTH : Mode := 0o004#32
def S_IWOTH : Mode := 0o002#32
def S_IXOTH : Mode := 0o001#32

def column (m bit : Mode) (c : Char) : Char := if m &&& bit ≠ 0 then c else '-'

def columns (m : Mode) : List Char :=
  [column m S_IRUSR 'r',column m S_IWUSR 'w',column m S_IXUSR 'x',
    column m S_IRGRP 'r',column m S_IWGRP 'w',column m S_IXGRP 'x',
    column m S_IROTH 'r',column m S_IWOTH 'w',column m S_IXOTH 'x']

structure Line where
  ino : ℕ
  letter : Char
  mode : List Char
  nlink : ℤ
  user : Str
  group : Str
  size : ℤ
  date : Str
  name : Str
  deriving DecidableEq

def line (host : Host) (letter : Char) (st : Stat) (user group name : Str) : Line where
  ino := st.stIno
  letter := letter
  mode := columns st.stMode
  nlink := toInt32 st.stNlink
  user := user
  group := group
  size := st.stSize
  date := host.strftime st.stMtime
  name := name

structure Block where
  dir : Str
  total : ℤ
  lines : List Line
  deriving DecidableEq

def sizeLoop : List Str → ℤ → Fs → ℤ × Fs
  | [], size, s => (size, s)
  | filename::file, size, s =>
    match myLstat filename s with
    | ((err, st), s) =>
      sizeLoop file (if err = 0 then toInt32 (size+st.elim 0 Stat.stBlocks) else size) s

def reportLoop (host : Host) : List Str → Fs → Option ((ℤ × List Line) × Fs)
  | [], s => some ((ok, []), s)
  | filename::file, s =>
    match myLstat filename s with
    | ((_, none), s) => some ((anErr, []), s)
    | ((err, some st), s) =>
      if err ≠ 0 then some ((anErr, []), s) else
        match host.getpwuid st.stUid, host.getgrgid st.stGid with
        | some user, some group =>
          (reportLoop host file s).map (fun out =>
            ((out.1.1, line host (if S_ISDIR st.stMode then 'd' else '-') st user group
              filename::out.1.2), out.2))
        | _, _ => none

/-- For each call of `visit`, by the depth left to it and its path, what the
entry at an index of its destroyed copy reads as. -/
abbrev Leftover := ℕ → Str → ℕ → Dirent → Dirent

def whole : Leftover := fun _ _ _ d => d

/-- An entry that is lost is a dot, and it reads as a blank name. -/
def SparesNames (left : Leftover) : Prop :=
  ∀ fuel root i d, left fuel root i d = d ∨ d.dName = dot ∧ (left fuel root i d).dName = []

def readLoop (left : ℕ → Dirent → Dirent) (stale : ℕ → Mode) (root : Str) :
    ℕ → MyDir → Fs → (List Str × List Str) × Fs
  | 0, _, s => (([], []), s)
  | fuel+1, dirp, s =>
    match FreedCopy.myReaddir left dirp s with
    | (.dirent dp, dirp', s) =>
      match readLoop left stale root fuel dirp' s with
      | ((file, hardSubdirectory), s') =>
        if IsDots dp.dName then ((file, hardSubdirectory), s')
        else if S_ISDIR (fstatMode (stale dirp.index) dp.dIno s) then
          ((child root dp.dName::file, child root dp.dName::hardSubdirectory), s')
        else ((child root dp.dName::file, hardSubdirectory), s')
    | (_, _, s) => (([], []), s)

def visit (host : Host) (left : Leftover) (stale : Str → ℕ → Mode) :
    ℕ → Str → Fs → Option ((ℤ × List Block) × Fs)
  | 0, _, _ => none
  | fuel+1, root, s =>
    match myOpendir root s with
    | (none, s) => some ((anErr, []), s)
    | (some dirp, s) =>
      match readLoop (left fuel root) (stale root) root ((s.file dirp.fh).dentries.length+1)
        dirp s with
      | ((file, hardSubdirectory), s) =>
        match sizeLoop file 0 s with
        | (size, s) =>
          (reportLoop host (file.mergeSort (· ≤ ·)) s).bind (fun out =>
            let block : Block := ⟨root,size.tdiv 2,out.1.2⟩
            if out.1.1 ≠ 0 then some ((anErr, [block]), out.2) else
              (hardSubdirectory.foldlM (fun (o : List Block × Fs) it =>
                (visit host left stale fuel it o.2).map (fun p => (o.1++p.1.2, p.2)))
                  ([block], out.2)).map (fun o => ((ok, o.1), o.2)))

variable {host : Host} {left : Leftover} {stale : Str → ℕ → Mode} {v : View} {s : Fs}
  {root : Str} {y : ℕ}

theorem readLoop_whole (stale : ℕ → Mode) (root p : Str) (k fuel : ℕ) (dirp : MyDir) (s : Fs) :
    readLoop (whole k p) stale root fuel dirp s = Visit.readLoop stale root fuel dirp s := by
  induction fuel generalizing dirp s with
  | zero => rfl
  | succ fuel ih =>
    have hread : FreedCopy.myReaddir (whole k p) dirp s = myReaddir dirp s := rfl
    rw [readLoop, Visit.readLoop, hread]
    rcases myReaddir dirp s with ⟨out,dirp',s'⟩
    cases out with
    | null => rfl
    | dirent dp => simp only [ih]
    | outside => rfl

def Host.Named (host : Host) (v : View) : Prop :=
  ∀ k, (host.getpwuid (v k).metadata.stUid).isSome = true ∧
    (host.getgrgid (v k).metadata.stGid).isSome = true

theorem sizeLoop_state (file : List Str) (size : ℤ) (s : Fs) : (sizeLoop file size s).2 = s := by
  induction file generalizing size with
  | nil => rfl
  | cons filename file ih =>
    rw [sizeLoop]
    simp only [Outcomes.myLstat_state]
    exact ih _

def lineAt (host : Host) (v : View) (path : Str) : Line :=
  line host (if (v (real v path)).isDir then 'd' else '-') (v (real v path)).metadata
    ((host.getpwuid (v (real v path)).metadata.stUid).getD [])
    ((host.getgrgid (v (real v path)).metadata.stGid).getD []) path

theorem reportLoop_eq (host : Host) (s : Fs) (hh : host.Named s.file) (file : List Str) :
    ∃ lines, reportLoop host file s = some (((statLoop file s).1, lines), s) ∧
      ((statLoop file s).1 = ok → lines = file.map (lineAt host s.file)) := by
  induction file with
  | nil => exact ⟨[],rfl,fun _ => rfl⟩
  | cons filename file ih =>
    obtain ⟨lines,hl,hlines⟩ := ih
    rw [reportLoop, statLoop]
    by_cases h0 : real s.file filename = 0
    · refine ⟨[],by simp [myLstat, findRealIno_eq, h0, anErr],?_⟩
      simp [myLstat, findRealIno_eq, h0, anErr, ok]
    by_cases hm : real s.file filename ∈ s.entry
    · obtain ⟨user,hu⟩ := Option.isSome_iff_exists.mp (hh (real s.file filename)).1
      obtain ⟨group,hg⟩ := Option.isSome_iff_exists.mp (hh (real s.file filename)).2
      have hstat : myLstat filename s =
          ((ok, some (s.file (real s.file filename)).metadata), s) := by
        simp [myLstat, findRealIno_eq, h0, myFstat, hm]
      refine ⟨lineAt host s.file filename::lines,?_,?_⟩
      · simp only [hstat, ne_eq, ok, not_true_eq_false, if_false, hu, hg, hl, Option.map_some]
        simp only [lineAt, hu, hg, Option.getD_some]
        rfl
      · intro hok
        simp only [hstat, ne_eq, ok, not_true_eq_false, if_false] at hok
        rw [hlines hok, List.map_cons]
    · refine ⟨[],by simp [myLstat, findRealIno_eq, h0, myFstat, hm, anErr],?_⟩
      simp [myLstat, findRealIno_eq, h0, myFstat, hm, anErr, ok]

/-- The recursion over the subdirectories, and what has been printed before. -/
def visitAll (host : Host) (left : Leftover) (stale : Str → ℕ → Mode) (fuel : ℕ) (subs : List Str)
    (o : List Block × Fs) : Option (List Block × Fs) :=
  subs.foldlM (fun (o : List Block × Fs) it =>
    (visit host left stale fuel it o.2).map (fun p => (o.1++p.1.2, p.2))) o

theorem visit_closed (host : Host) (stale : Str → ℕ → Mode) (hs : s.file = v)
    (hd : (v (resolve v root)).isDir = false) (fuel : ℕ) :
    ∃ t, t.file = v ∧ visit host whole stale (fuel+1) root s = some ((anErr, []), t) ∧
      Visit.visit stale (fuel+1) root s = some (anErr, t) := by
  refine ⟨(s.touch (real v root)).touch (resolve v root),by simp [hs],?_,?_⟩
  · simp [visit, myOpendir, findIno_eq, fopendir, hs, hd]
  · simp [Visit.visit, myOpendir, findIno_eq, fopendir, hs, hd]

theorem visit_open (stale : Str → ℕ → Mode) (hh : host.Named v) (hs : s.file = v)
    (hd : (v (resolve v root)).isDir = true) (fuel : ℕ) :
    ∃ t sub size lines, t.file = v ∧ resolve v root ∈ t.entry ∧
      Visit.readLoop (stale root) root ((v (resolve v root)).dentries.length+1)
        ⟨resolve v root,0⟩ t =
        ((listed root (v (resolve v root)).dentries, sub), t) ∧
      ((statLoop ((listed root (v (resolve v root)).dentries).mergeSort (· ≤ ·)) t).1 = ok →
        lines = ((listed root (v (resolve v root)).dentries).mergeSort (· ≤ ·)).map
          (lineAt host v)) ∧
      (visit host whole stale (fuel+1) root s =
        if (statLoop ((listed root (v (resolve v root)).dentries).mergeSort (· ≤ ·)) t).1 ≠ 0 then
          some ((anErr, [⟨root,size,lines⟩]), t)
        else (visitAll host whole stale fuel sub ([⟨root,size,lines⟩], t)).map
          (fun o => ((ok, o.1), o.2))) ∧
      Visit.visit stale (fuel+1) root s =
        if (statLoop ((listed root (v (resolve v root)).dentries).mergeSort (· ≤ ·)) t).1 ≠ 0 then
          some (anErr, t)
        else (sub.foldlM (fun s it => (Visit.visit stale fuel it s).map Prod.snd) t).map
          (fun s => (ok, s)) := by
  set t := (s.touch (real v root)).touch (resolve v root) with htdef
  have ht : t.file = v := by simp [htdef, hs]
  have hm : resolve v root ∈ t.entry := InsertingMap.mem_touch.mpr (Or.inl rfl)
  obtain ⟨sub,hread,-⟩ := readLoop_eq (stale root) root (resolve v root) t hm
    ((v (resolve v root)).dentries.length+1) 0 (by rw [ht]) (Nat.zero_le _)
  rw [ht, List.drop_zero] at hread
  obtain ⟨lines,hreport,hlines⟩ := reportLoop_eq host t (ht ▸ hh)
    ((listed root (v (resolve v root)).dentries).mergeSort (· ≤ ·))
  rw [ht] at hlines
  have hopen : myOpendir root s = (some ⟨resolve v root,0⟩, t) := by
    simp [myOpendir, findIno_eq, hs, fopendir, hd, htdef]
  refine ⟨t,sub,(sizeLoop (listed root (v (resolve v root)).dentries) 0 t).1.tdiv 2,lines,ht,hm,
    hread,hlines,?_,?_⟩
  · have hsize := sizeLoop_state (listed root (v (resolve v root)).dentries) 0 t
    rw [visit]
    simp only [hopen, ht, readLoop_whole, hread, hsize, hreport, Option.bind_some]
    rfl
  · have hstat : statLoop ((listed root (v (resolve v root)).dentries).mergeSort (· ≤ ·)) t =
        ((statLoop ((listed root (v (resolve v root)).dentries).mergeSort (· ≤ ·)) t).1,t) := by
      rcases statLoop_state ((listed root (v (resolve v root)).dentries).mergeSort (· ≤ ·)) t
        with hl | hl <;> rw [hl]
    rw [Visit.visit]
    simp only [hopen, ht, hread]
    rw [hstat]

/-- The output left out, the two definitions agree, and they leave the table. -/
theorem visit_erased (hh : host.Named v) (fuel : ℕ) (root : Str) (hs : s.file = v) :
    (visit host whole stale fuel root s).map (fun o => (o.1.1,o.2)) = Visit.visit stale fuel root s ∧
      ∀ o, visit host whole stale fuel root s = some o → o.2.file = v := by
  induction fuel generalizing root s with
  | zero => exact ⟨rfl,nofun⟩
  | succ fuel ih =>
    have hall : ∀ (subs : List Str) (o : List Block × Fs), o.2.file = v →
        (visitAll host whole stale fuel subs o).map Prod.snd =
          subs.foldlM (fun s it => (Visit.visit stale fuel it s).map Prod.snd) o.2 ∧
        ∀ o', visitAll host whole stale fuel subs o = some o' → o'.2.file = v := by
      intro subs
      induction subs with
      | nil =>
        intro o ho
        refine ⟨rfl,fun o' h => ?_⟩
        rw [← Option.some.inj h]
        exact ho
      | cons p subs ihs =>
        intro o ho
        obtain ⟨hp,hfile⟩ := ih p ho
        rw [visitAll, List.foldlM_cons, List.foldlM_cons, ← hp]
        cases hv : visit host whole stale fuel p o.2 with
        | none => exact ⟨rfl,nofun⟩
        | some o' => exact ihs (o.1++o'.1.2,o'.2) (hfile o' hv)
    by_cases hd : (v (resolve v root)).isDir = true
    · obtain ⟨t,sub,size,lines,ht,-,-,-,hv,hw⟩ := visit_open stale hh hs hd fuel
      obtain ⟨hfold,hfile⟩ := hall sub ([⟨root,size,lines⟩],t) ht
      rw [hv, hw]
      split_ifs
      · refine ⟨rfl,fun o h => ?_⟩
        rw [← Option.some.inj h]
        exact ht
      · rw [← hfold, Option.map_map, Option.map_map]
        refine ⟨rfl,fun o h => ?_⟩
        obtain ⟨o',ho',rfl⟩ := Option.map_eq_some_iff.mp h
        exact hfile o' ho'
    · obtain ⟨t,ht,hv,hw⟩ := visit_closed host stale hs
        (Bool.eq_false_iff.mpr hd) fuel
      rw [hv, hw]
      refine ⟨rfl,fun o h => ?_⟩
      rw [← Option.some.inj h]
      exact ht

/-- Entries are found under their names, lead to files that were made, and name
each directory once; no directory is below itself. -/
structure Tidy (v : View) : Prop where
  zero : (v 0).isDir = false
  slashFree : ∀ k, ∀ d ∈ (v k).dentries, '/' ∉ d.dName
  named : Tree.Named v
  distinct : UniqueNames v
  made : ∀ x, Reached v x → (v x).isDir = true → ∀ d ∈ (v x).dentries, Made v d.dIno
  single : ∀ x y, (v x).isDir = true → (v y).isDir = true → ∀ d ∈ (v x).dentries,
    ∀ e ∈ (v x).dentries, ¬ IsDots d.dName → ¬ IsDots e.dName → d.dIno = y → e.dIno = y → d = e
  holder : ∀ z, ReflTransGen (Edge v) 2 z → ∀ x x', Edge v x z → Edge v x' z → x = x'
  acyclic : ∀ z, ReflTransGen (Edge v) 2 z → ¬ TransGen (Edge v) z z

theorem nameIn_of_unique (h : UniqueNames v) {x : ℕ} (hd : (v x).isDir = true) {d : Dirent}
    (hm : d ∈ (v x).dentries) : nameIn v d.dName x = d.dIno := by
  have hnd := h x hd
  rw [nameIn, if_pos hd]
  unfold Names.names at hnd
  generalize (v x).dentries = l at hm hnd
  induction l with
  | nil => exact absurd hm List.not_mem_nil
  | cons e l ih =>
    rw [List.map_cons, List.nodup_cons] at hnd
    rcases List.mem_cons.mp hm with rfl | hm
    · simp
    · have hne : e.dName ≠ d.dName := fun he => hnd.1 (he ▸ List.mem_map_of_mem hm)
      rw [List.find?_cons_of_neg (by simpa using hne)]
      exact ih hm hnd.2

theorem Tidy.real_child (h : Tidy v) (hd : (v (real v root)).isDir = true) {d : Dirent}
    (hm : d ∈ (v (real v root)).dentries) : real v (child root d.dName) = d.dIno := by
  rw [Visit.real_child root h.zero (h.slashFree _ d hm), if_neg (h.named _ hd d hm), if_pos hd,
    nameIn_of_unique h.distinct hd hm]

/-- The blank name leads to the directory itself. -/
theorem Tidy.real_blank (h : Tidy v) : real v (child root []) = real v root := by
  rw [Visit.real_child root h.zero List.not_mem_nil, if_pos rfl]

theorem reached_of_edge {y : ℕ} (h : ReflTransGen (Edge v) 2 y) : Reached v y := by
  induction h with
  | refl => exact Reached.root
  | tail _ hyz ih => exact Reached.child ih hyz.1

def subdirectories (v : View) (root : Str) (ds : List Dirent) : List Str :=
  (ds.filter (fun d => ¬ IsDots d.dName ∧ (v d.dIno).isDir = true)).map
    (fun d => child root d.dName)

theorem subdirectories_cons (d : Dirent) (ds : List Dirent) :
    subdirectories v root (d::ds) =
      if IsDots d.dName then subdirectories v root ds
      else if S_ISDIR (v d.dIno).metadata.stMode then
        child root d.dName::subdirectories v root ds
      else subdirectories v root ds := by
  have hdir : (v d.dIno).isDir = S_ISDIR (v d.dIno).metadata.stMode := rfl
  by_cases hd : IsDots d.dName
  · simp [subdirectories, hd]
  · by_cases hs : S_ISDIR (v d.dIno).metadata.stMode = true <;>
      simp [subdirectories, hd, hs, hdir]

theorem readLoop_subdirectories (stale : ℕ → Mode) (root : Str) (fh : ℕ) (hs : s.file = v)
    (hmem : fh ∈ s.entry) (hall : ∀ d ∈ (v fh).dentries, d.dIno ∈ s.entry) (fuel index : ℕ)
    (h : (v fh).dentries.length+1 ≤ fuel+index) (hi : index ≤ (v fh).dentries.length) :
    Visit.readLoop stale root fuel ⟨fh,index⟩ s =
      ((listed root ((v fh).dentries.drop index),
        subdirectories v root ((v fh).dentries.drop index)), s) := by
  induction fuel generalizing index with
  | zero => omega
  | succ fuel ih =>
    rw [Visit.readLoop]
    simp only [myReaddir, Fs.touch_of_mem hmem, hs]
    by_cases he : index = (v fh).dentries.length
    · simp [he, listed, subdirectories]
    · have hlt : index < (v fh).dentries.length := by omega
      have hin := hall _ (List.getElem_mem hlt)
      have hmode : fstatMode (stale index) ((v fh).dentries[index]).dIno s =
          (v ((v fh).dentries[index]).dIno).metadata.stMode := by
        simp [fstatMode, myFstat, hin, hs]
      simp only [he, if_false, List.getElem?_eq_getElem hlt, ih (index+1) (by omega) (by omega),
        List.drop_eq_getElem_cons hlt, listed_cons, subdirectories_cons, hmode]
      split_ifs <;> rfl

theorem statLoop_tidy (h : Tidy v) (hs : s.file = v) (hr : Reached v (real v root))
    (hd : (v (real v root)).isDir = true) {file : List Str}
    (hf : ∀ p ∈ file, p ∈ listed root (v (real v root)).dentries ∨ p = child root []) :
    (statLoop file s).1 = ok := by
  induction file with
  | nil => rfl
  | cons p file ih =>
    have hfound : real v p ≠ 0 ∧ real v p ∈ s.entry := by
      rcases hf p List.mem_cons_self with hp | rfl
      · obtain ⟨d,hm,-,rfl⟩ := mem_listed.mp hp
        have hmade := h.made _ hr hd d hm
        rw [h.real_child hd hm]
        exact ⟨hmade.1,mem_of_made (hs ▸ hmade)⟩
      · rw [h.real_blank]
        refine ⟨?_,mem_of_isDir (hs ▸ hd)⟩
        intro h0
        rw [h0, h.zero] at hd
        exact Bool.false_ne_true hd
    have hstat : myLstat p s = ((ok, some (s.file (real v p)).metadata), s) := by
      simp [myLstat, findRealIno_eq, hs, hfound.1, myFstat, hfound.2]
    rw [statLoop]
    simp only [hstat, ok, ne_eq, not_true_eq_false, if_false]
    exact ih (fun q hq => hf q (List.mem_cons_of_mem _ hq))

def Right (host : Host) (v : View) (b : Block) : Prop :=
  b.lines = ((listed b.dir (v (real v b.dir)).dentries).mergeSort (· ≤ ·)).map (lineAt host v)

/-- The blocks printed for a path, one for each directory below it. -/
structure Complete (host : Host) (v : View) (root : Str) (out : List Block) : Prop where
  covers : Covers (Edge v) (fun b : Block => real v b.dir) (real v root) out
  right : ∀ b ∈ out, Right host v b

def Prints (host : Host) (stale : Str → ℕ → Mode) (v : View) (root : Str) (N : ℕ) : Prop :=
  ∀ fuel, N ≤ fuel → ∀ s : Fs, s.file = v → ∃ out t,
    visit host whole stale fuel root s = some ((ok, out), t) ∧ t.file = v ∧ Complete host v root out

theorem visitAll_prints {subs : List Str} {N fuel : ℕ} (hN : N ≤ fuel)
    (h : ∀ p ∈ subs, Prints host stale v p N) (o : List Block × Fs) (ho : o.2.file = v) :
    ∃ (outs : List (ℕ × List Block)) (t : Fs), outs.map Prod.fst = subs.map (real v) ∧
      t.file = v ∧ visitAll host whole stale fuel subs o =
        some (o.1++(outs.map Prod.snd).flatten,t) ∧
      ∀ x ∈ outs, Covers (Edge v) (fun b : Block => real v b.dir) x.1 x.2 ∧
        ∀ b ∈ x.2, Right host v b := by
  induction subs generalizing o with
  | nil =>
    refine ⟨[],o.2,rfl,ho,?_,nofun⟩
    rw [List.map_nil, List.flatten_nil, List.append_nil]
    rfl
  | cons p subs ih =>
    obtain ⟨out,t,hv,ht,hc⟩ := h p List.mem_cons_self fuel hN o.2 ho
    obtain ⟨outs,t',hfst,ht',hall,houts⟩ :=
      ih (fun q hq => h q (List.mem_cons_of_mem p hq)) (o.1++out,t) ht
    refine ⟨(real v p,out)::outs,t',congrArg (real v p :: ·) hfst,ht',?_,?_⟩
    · rw [visitAll, List.foldlM_cons, hv]
      rw [visitAll] at hall
      simpa [List.append_assoc] using hall
    · intro x hx
      rcases List.mem_cons.mp hx with rfl | hx
      · exact ⟨hc.covers,hc.right⟩
      · exact houts x hx

theorem prints_all {subs : List Str} (h : ∀ p ∈ subs, ∃ N, Prints host stale v p N) :
    ∃ N, ∀ p ∈ subs, Prints host stale v p N := by
  induction subs with
  | nil => exact ⟨0,nofun⟩
  | cons p subs ih =>
    obtain ⟨N,hN⟩ := ih (fun q hq => h q (List.mem_cons_of_mem p hq))
    obtain ⟨M,hM⟩ := h p List.mem_cons_self
    refine ⟨max M N,?_⟩
    intro q hq fuel hf
    rcases List.mem_cons.mp hq with rfl | hq
    · exact hM fuel (by omega)
    · exact hN q hq fuel (by omega)

theorem Tidy.subdirectories_nodup (h : Tidy v) (hd : (v (real v root)).isDir = true) :
    ((subdirectories v root (v (real v root)).dentries).map (real v)).Nodup := by
  have hnd : (v (real v root)).dentries.Nodup := (h.distinct _ hd).of_map _
  have hmap : (subdirectories v root (v (real v root)).dentries).map (real v) =
      ((v (real v root)).dentries.filter
        (fun d => ¬ IsDots d.dName ∧ (v d.dIno).isDir = true)).map Dirent.dIno := by
    rw [subdirectories, List.map_map]
    apply List.map_congr_left
    intro d hm
    exact h.real_child hd (List.mem_of_mem_filter hm)
  rw [hmap]
  apply (hnd.filter _).map_on
  intro d hm e he hde
  obtain ⟨hm,hdn⟩ := List.mem_filter.mp hm
  obtain ⟨he,hen⟩ := List.mem_filter.mp he
  simp only [Bool.decide_and, Bool.and_eq_true, decide_eq_true_eq] at hdn hen
  exact h.single _ e.dIno hd hen.2 d hm e he hdn.1 hen.1 hde rfl

theorem Tidy.mem_subdirectories (h : Tidy v) (hd : (v (real v root)).isDir = true) (a : ℕ) :
    Edge v (real v root) a ↔
      a ∈ (subdirectories v root (v (real v root)).dentries).map (real v) := by
  simp only [subdirectories, List.mem_map, List.mem_filter, exists_exists_and_eq_and,
    Bool.decide_and, Bool.and_eq_true, decide_eq_true_eq]
  constructor
  · rintro ⟨⟨-,d,hm,hn,rfl⟩,ha⟩
    exact ⟨d,⟨hm,hn,ha⟩,h.real_child hd hm⟩
  · rintro ⟨d,⟨hm,hn,ha⟩,rfl⟩
    rw [h.real_child hd hm]
    exact ⟨⟨hd,d,hm,hn,rfl⟩,ha⟩

theorem prints_of_acc (stale : Str → ℕ → Mode) (h : Tidy v) (hh : host.Named v) {y : ℕ}
    (hacc : Acc (flip (Edge v)) y)
    (hy : ReflTransGen (Edge v) 2 y) (hd : (v y).isDir = true) (hr : real v root = y) :
    ∃ N, Prints host stale v root N := by
  induction hacc generalizing root with
  | intro y _ ih =>
    subst hr
    have hsub : ∀ p ∈ subdirectories v root (v (real v root)).dentries,
        ∃ N, Prints host stale v p N := by
      intro p hp
      have hedge := (h.mem_subdirectories hd (real v p)).mpr (List.mem_map.mpr ⟨p,hp,rfl⟩)
      exact ih _ hedge (hy.tail hedge) hedge.2 rfl
    obtain ⟨N,hN⟩ := prints_all hsub
    refine ⟨N+1,?_⟩
    intro fuel hf s hs
    obtain ⟨fuel,rfl⟩ := Nat.exists_eq_add_of_le' (Nat.le_trans (Nat.le_add_left 1 N) hf)
    have hres : resolve v root = real v root := resolve_dir hd
    obtain ⟨t,sub,size,lines,ht,hm,hread,hlines,hv,-⟩ :=
      visit_open stale hh hs (hres.symm ▸ hd) fuel
    rw [hres] at hm hread hlines hv
    have hall : ∀ d ∈ (v (real v root)).dentries, d.dIno ∈ t.entry := by
      intro d hmem
      exact mem_of_made (ht ▸ h.made _ (reached_of_edge hy) hd d hmem)
    have hexact := readLoop_subdirectories (stale root) root (real v root) ht hm hall
      ((v (real v root)).dentries.length+1) 0 (Nat.le_refl _) (Nat.zero_le _)
    rw [List.drop_zero, hread] at hexact
    obtain rfl := (Prod.mk.inj (Prod.mk.inj hexact).1).2
    have hok : (statLoop ((listed root (v (real v root)).dentries).mergeSort (· ≤ ·)) t).1 = ok :=
      statLoop_tidy h ht (reached_of_edge hy) hd (fun p hp => Or.inl (List.mem_mergeSort.mp hp))
    rw [if_neg (fun hne => hne hok)] at hv
    obtain ⟨outs,t',hfst,ht',hvisits,houts⟩ := visitAll_prints (Nat.le_of_succ_le_succ hf) hN
      ([⟨root,size,lines⟩],t) ht
    refine ⟨⟨root,size,lines⟩::(outs.map Prod.snd).flatten,t',?_,ht',?_,?_⟩
    · rw [hv, hvisits]
      rfl
    · apply Covers.node (f := fun b : Block => real v b.dir) h.holder h.acyclic hy rfl
      · rw [hfst]
        exact h.subdirectories_nodup hd
      · intro a
        rw [hfst]
        exact h.mem_subdirectories hd a
      · exact fun o ho => (houts o ho).1
    · intro b hb
      rcases List.mem_cons.mp hb with rfl | hb
      · exact hlines hok
      · obtain ⟨l,hl,hbl⟩ := List.mem_flatten.mp hb
        obtain ⟨o,ho,rfl⟩ := List.mem_map.mp hl
        exact (houts o ho).2 b hbl

/-- The paths of `l`, and perhaps the directory itself. -/
def Blanked (root : Str) (l file : List Str) : Prop :=
  l.Sublist file ∧ ∀ p ∈ file, p ∈ l ∨ p = child root []

theorem Blanked.cons {l file : List Str} (h : Blanked root l file) (p : Str) :
    Blanked root (p::l) (p::file) := by
  refine ⟨h.1.cons_cons p,?_⟩
  intro q hq
  rcases List.mem_cons.mp hq with rfl | hq
  · exact Or.inl List.mem_cons_self
  · exact (h.2 q hq).imp_left (List.mem_cons_of_mem p)

theorem Blanked.blank {l file : List Str} (h : Blanked root l file) :
    Blanked root l (child root []::file) := by
  refine ⟨h.1.trans (List.sublist_cons_self _ file),?_⟩
  intro q hq
  rcases List.mem_cons.mp hq with rfl | hq
  · exact Or.inr rfl
  · exact h.2 q hq

theorem readLoop_spared {lost : ℕ → Dirent → Dirent}
    (hl : ∀ i d, lost i d = d ∨ d.dName = dot ∧ (lost i d).dName = []) (stale : ℕ → Mode)
    (root : Str) (fh : ℕ) (hs : s.file = v) (hmem : fh ∈ s.entry)
    (hall : ∀ d ∈ (v fh).dentries, d.dIno ∈ s.entry) (fuel index : ℕ)
    (h : (v fh).dentries.length+1 ≤ fuel+index) (hi : index ≤ (v fh).dentries.length) :
    ∃ file sub, readLoop lost stale root fuel ⟨fh,index⟩ s = ((file, sub), s) ∧
      Blanked root (listed root ((v fh).dentries.drop index)) file ∧
      Blanked root (subdirectories v root ((v fh).dentries.drop index)) sub := by
  induction fuel generalizing index with
  | zero => omega
  | succ fuel ih =>
    rw [readLoop]
    simp only [FreedCopy.myReaddir, Fs.touch_of_mem hmem, hs]
    by_cases he : index = (v fh).dentries.length
    · refine ⟨[],[],?_,?_,?_⟩ <;> simp [he, listed, subdirectories, Blanked]
    have hlt : index < (v fh).dentries.length := by omega
    obtain ⟨file,sub,hrest,hfile,hsub⟩ := ih (index+1) (by omega) (by omega)
    simp only [he, if_false, List.getElem?_eq_getElem hlt, hrest, List.drop_eq_getElem_cons hlt,
      listed_cons, subdirectories_cons]
    rcases hl index (v fh).dentries[index] with hsame | ⟨hdot,hlost⟩
    · have hmode : fstatMode (stale index) ((v fh).dentries[index]).dIno s =
          (v ((v fh).dentries[index]).dIno).metadata.stMode := by
        simp [fstatMode, myFstat, hall _ (List.getElem_mem hlt), hs]
      rw [hsame, hmode]
      by_cases hdots : IsDots (v fh).dentries[index].dName
      · simp only [if_pos hdots]
        exact ⟨file,sub,rfl,hfile,hsub⟩
      · simp only [if_neg hdots]
        split_ifs
        · exact ⟨_,_,rfl,hfile.cons _,hsub.cons _⟩
        · exact ⟨_,_,rfl,hfile.cons _,hsub⟩
    · have hdots : IsDots (v fh).dentries[index].dName := Or.inl hdot
      have hblank : ¬ IsDots [] := by decide
      simp only [hlost, if_pos hdots, if_neg hblank]
      split_ifs
      · exact ⟨_,_,rfl,hfile.blank,hsub.blank⟩
      · exact ⟨_,_,rfl,hfile.blank,hsub⟩

/-- A block of a directory below the root: a line for every plain entry, and
perhaps one for the directory itself. -/
structure Fair (host : Host) (v : View) (b : Block) : Prop where
  below : ReflTransGen (Edge v) 2 (real v b.dir)
  dir : (v (real v b.dir)).isDir = true
  lines : ∃ file, Blanked b.dir (listed b.dir (v (real v b.dir)).dentries) file ∧
    b.lines = (file.mergeSort (· ≤ ·)).map (lineAt host v)

/-- What has been printed when a listing ends. -/
structure Printed (host : Host) (v : View) (root : Str) (out : List Block) : Prop where
  covers : ∀ z, ReflTransGen (Edge v) (real v root) z → ∃ b ∈ out, real v b.dir = z
  fair : ∀ b ∈ out, Fair host v b

theorem visitAll_printed {fuel : ℕ} {subs : List Str} {o o' : List Block × Fs}
    (hfile : o.2.file = v) (hfair : ∀ b ∈ o.1, Fair host v b)
    (ih : ∀ p ∈ subs, ∀ (s : Fs) r out t, s.file = v →
      visit host left stale fuel p s = some ((r,out),t) → t.file = v ∧ Printed host v p out)
    (h : visitAll host left stale fuel subs o = some o') :
    o'.2.file = v ∧ o.1 ⊆ o'.1 ∧ (∀ b ∈ o'.1, Fair host v b) ∧
      ∀ p ∈ subs, ∀ z, ReflTransGen (Edge v) (real v p) z → ∃ b ∈ o'.1, real v b.dir = z := by
  induction subs generalizing o with
  | nil =>
    obtain rfl := Option.some.inj h
    exact ⟨hfile,List.Subset.refl _,hfair,fun p hp => absurd hp List.not_mem_nil⟩
  | cons p subs ihs =>
    rw [visitAll, List.foldlM_cons] at h
    obtain ⟨o₁,hone,hrest⟩ := Option.bind_eq_some_iff.mp h
    obtain ⟨⟨⟨r,out⟩,t⟩,hvisit,rfl⟩ := Option.map_eq_some_iff.mp hone
    obtain ⟨ht,hprinted⟩ := ih p List.mem_cons_self o.2 r out t hfile hvisit
    have hfair' : ∀ b ∈ o.1++out, Fair host v b := by
      intro b hb
      rcases List.mem_append.mp hb with hb | hb
      · exact hfair b hb
      · exact hprinted.fair b hb
    obtain ⟨hfile',hsub,hfair'',hcovers⟩ := ihs (o := (o.1++out,t)) ht hfair'
      (fun q hq => ih q (List.mem_cons_of_mem p hq)) hrest
    refine ⟨hfile',fun b hb => hsub (List.mem_append_left _ hb),hfair'',?_⟩
    intro q hq z hz
    rcases List.mem_cons.mp hq with rfl | hq
    · obtain ⟨b,hb,hbz⟩ := hprinted.covers z hz
      exact ⟨b,hsub (List.mem_append_right _ hb),hbz⟩
    · exact hcovers q hq z hz

/-- A listing that ends has shown every directory, whatever dots were lost. -/
theorem visit_spared (hl : SparesNames left) (h : Tidy v) (hh : host.Named v) (fuel : ℕ)
    {r : ℤ} {out : List Block} {t : Fs} (hs : s.file = v)
    (hroot : ReflTransGen (Edge v) 2 (real v root)) (hd : (v (real v root)).isDir = true)
    (hv : visit host left stale fuel root s = some ((r,out),t)) :
    r = ok ∧ t.file = v ∧ Printed host v root out := by
  induction fuel generalizing root s r out t with
  | zero => exact absurd hv.symm (Option.some_ne_none _)
  | succ fuel ih =>
    have hres : resolve v root = real v root := resolve_dir hd
    set u := (s.touch (real v root)).touch (real v root) with hu
    have hut : u.file = v := by simp [hu, hs]
    have hm : real v root ∈ u.entry := InsertingMap.mem_touch.mpr (Or.inl rfl)
    have hopen : myOpendir root s = (some ⟨real v root,0⟩, u) := by
      simp [myOpendir, findIno_eq, hs, hres, fopendir, hd, hu]
    have hall : ∀ d ∈ (v (real v root)).dentries, d.dIno ∈ u.entry := by
      intro d hmem
      exact mem_of_made (hut ▸ h.made _ (reached_of_edge hroot) hd d hmem)
    obtain ⟨file,sub,hread,hfile,hsub⟩ := readLoop_spared (hl fuel root) (stale root) root
      (real v root) hut hm hall ((v (real v root)).dentries.length+1) 0 (Nat.le_refl _)
      (Nat.zero_le _)
    rw [List.drop_zero] at hfile hsub
    have hok : (statLoop (file.mergeSort (· ≤ ·)) u).1 = ok :=
      statLoop_tidy h hut (reached_of_edge hroot) hd
        (fun p hp => hfile.2 p (List.mem_mergeSort.mp hp))
    obtain ⟨lines,hreport,hlines⟩ := reportLoop_eq host u (hut ▸ hh) (file.mergeSort (· ≤ ·))
    have hlines := hlines hok
    rw [hut] at hlines
    have hsize := sizeLoop_state file 0 u
    rw [visit] at hv
    simp only [hopen, hut, hread, hsize, hreport, Option.bind_some, hok, ok, ne_eq,
      not_true_eq_false, if_false] at hv
    obtain ⟨o,hvisits,ho⟩ := Option.map_eq_some_iff.mp hv
    obtain ⟨⟨rfl,rfl⟩,rfl⟩ : (r = 0 ∧ out = o.1) ∧ t = o.2 := by
      simp only [Prod.mk.injEq] at ho
      exact ⟨⟨ho.1.1.symm,ho.1.2.symm⟩,ho.2.symm⟩
    have hblock : Fair host v ⟨root,(sizeLoop file 0 u).1.tdiv 2,lines⟩ :=
      ⟨hroot,hd,file,hfile,hlines⟩
    -- Every path visited leads to a subdirectory, or to the directory once more.
    have hpath : ∀ p ∈ sub, ReflTransGen (Edge v) 2 (real v p) ∧ (v (real v p)).isDir = true := by
      intro p hp
      rcases hsub.2 p hp with hp | rfl
      · have hedge := (h.mem_subdirectories hd (real v p)).mpr (List.mem_map.mpr ⟨p,hp,rfl⟩)
        exact ⟨hroot.tail hedge,hedge.2⟩
      · rw [h.real_blank]
        exact ⟨hroot,hd⟩
    obtain ⟨hfile',hkept,hfair,hcovers⟩ := visitAll_printed
      (o := ([⟨root,(sizeLoop file 0 u).1.tdiv 2,lines⟩],u)) hut
      (fun b hb => (List.mem_singleton.mp hb).symm ▸ hblock)
      (fun p hp s r out t hs hv => (ih hs (hpath p hp).1 (hpath p hp).2 hv).2) hvisits
    refine ⟨rfl,hfile',?_,hfair⟩
    intro z hz
    rcases ReflTransGen.cases_head hz with rfl | ⟨a,hedge,hbelow⟩
    · exact ⟨_,hkept List.mem_cons_self,rfl⟩
    · obtain ⟨p,hp,rfl⟩ := List.mem_map.mp ((h.mem_subdirectories hd a).mp hedge)
      exact hcovers p (hsub.1.subset hp) z hbelow

variable {env : Env}

theorem visible_of_reached {y : ℕ} (h : Reached v y) : Visible v y := by
  induction h with
  | root => exact Visible.root
  | child _ holds ih =>
    obtain ⟨hd,d,hm,-,rfl⟩ := holds
    exact Visible.entry ih hd hm

theorem sessions_tidy (h : Sessions env keepsEntries s) :
    Tidy s.file ∧ Acc (flip (Edge s.file)) 2 := by
  obtain ⟨B,hB⟩ : ∃ B : Finset ℕ, ∀ k, k < 2^31 → k ∈ B :=
    ⟨(Set.finite_Iio (2^31)).toFinset,fun k hk => (Set.Finite.mem_toFinset _).mpr hk⟩
  have hs := sessions_settled h
  obtain ⟨hone,hsound,-,-,hunique⟩ := sessions_kept h hB
  have hdir : ∀ k, (s.file k).isDir = true → k ∈ B :=
    fun k hk => hB k (Nat.lt_of_lt_of_le (hone.dirs.lt hs.toNumbers hk).2 hs.high)
  have hacyclic : ∀ z, ReflTransGen (Edge s.file) 2 z → ¬ TransGen (Edge s.file) z z :=
    fun z hz => hone.edge_acyclic hdir hz
  refine ⟨?_,acc_root hacyclic B.finite_toSet (fun x y hxy => hdir x hxy.1.1)⟩
  constructor
  · exact (untyped hs.sentinel).1
  · exact hs.slashFree
  · exact hone.named
  · exact hunique
  · exact fun x hx hd => hsound.made x (hsound.placed (visible_of_reached hx) hd)
  · intro x y hx hy d hd e he hdn hen hdy hey
    exact same_entry hone hdir hx hy hd he (names_iff.mpr ⟨hdn,hdy⟩) (names_iff.mpr ⟨hen,hey⟩)
  · exact fun z _ x x' hx hx' => holds_unique (hone.once z hx.2) hdir hx.1 hx'.1
  · exact hacyclic

theorem real_slash (v : View) : real v slash = 2 := by
  rw [real, show segments slash = [[],[]] by decide, walk, if_pos rfl, walk, if_pos rfl, walk]

def plainHost : Host where
  getpwuid := fun _ => some ['u']
  getgrgid := fun _ => some ['g']
  strftime := fun _ => ['t']

def listedCalls : List Call :=
  [.mkdir ['/','d'] 0o755#32,.creat ['/','d','/','f'] 0o644#32,.mkdir ['/','e'] 0o755#32]

/-- The dot of `/e` is lost: it has a blank name and the number of no file. -/
def dotBlank : Leftover := fun _ root _ d =>
  if root = ['/','e'] ∧ d.dName = dot then ⟨[],99⟩ else d

theorem sparesNames_dotBlank : SparesNames dotBlank := by
  intro fuel root i d
  by_cases hd : root = ['/','e'] ∧ d.dName = dot
  · exact Or.inr ⟨hd.2,by rw [dotBlank, if_pos hd]⟩
  · exact Or.inl (by rw [dotBlank, if_neg hd])

end Bbfs.Listing
