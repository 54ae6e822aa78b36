import Bbfs.Census

/-!
# Renaming

`my_rename` is held against the move of one entry. The entry is that of the
last step of a path, found without following links; the call itself goes by
the last segment and by resolved numbers. Where the two agree and nothing is
in the way, the call moves the entry.
-/

set_option autoImplicit false

namespace Bbfs.Renaming
open Bbfs.Strings Bbfs.Files Bbfs.Resolve Bbfs.Calls Bbfs.Session Bbfs.Walks Bbfs.Effects
open Bbfs.Outcomes Bbfs.Numbers Bbfs.Directories Bbfs.Counting

def steps (path : Str) : List Str := (segments path).filter (fun w => !w.isEmpty)

/-- The entry that a path names: its directory and its name. The root has none. -/
def entryOf (v : View) (path : Str) : Option (ℕ × Str) :=
  (steps path).getLast?.map (fun n => (walk v 2 (steps path).dropLast,n))

def passes (v : View) (e : ℕ × Str) : ℕ → List Str → Bool
  | _, [] => false
  | fh, it::segs =>
    if it = [] then passes v e fh segs
    else decide ((fh,it) = e) || passes v e (nameIn v it fh) segs

def rest (f : File) : File := { f with dentries := [] }

def without (v : View) (e : ℕ × Str) : View := put v e.1 (File.dropNamed e.2)

def moved (v : View) (e e' : ℕ × Str) (i : ℕ) : View :=
  put (without v e) e'.1 (File.push ⟨e'.2,i⟩)

/-- The file that the new name stood for before, under an entry of its own. -/
def Replaced (s : Fs) (path newpath : Str) (j : ℕ) : Prop :=
  entryOf s.file path ≠ entryOf s.file newpath ∧ real s.file newpath = j ∧ j ≠ 0 ∧ j ∈ s.entry

/-- The number of times an entry goes: the entry moved, and the one in the way. -/
def gone (v : View) (path : Str) (e e' : ℕ × Str) (k : ℕ) (d : Dirent) : ℕ :=
  (if k = e.1 ∧ d = ⟨e.2,real v path⟩ then 1 else 0)+
    if e ≠ e' ∧ k = e'.1 ∧ (v k).isDir = true ∧ firstNamed e'.2 (v k) = some d then 1 else 0

/-- The entry `e` of one path has become the entry `e'` of the other, the file
in the way has lost a link, and nothing else has changed. -/
structure Renamed (s s' : Fs) (path newpath : Str) (e e' : ℕ × Str) : Prop where
  found : real s'.file newpath = real s.file path
  left : e ≠ e' → real s'.file path ≠ real s.file path
  replaced : ∀ j, Replaced s path newpath j → if LastLink s.file j then j ∉ s'.entry
    else j ∈ s'.entry ∧ rest (s'.file j) = rest ((s.file j).setStat decNlink)
  entries : ∀ k, (Replaced s path newpath k → ¬ LastLink s.file k) → ∀ d,
    (s'.file k).dentries.count d+gone s.file path e e' k d =
      (s.file k).dentries.count d+if k = e'.1 ∧ d = ⟨e'.2,real s.file path⟩ then 1 else 0
  others : ∀ k, k ≠ 0 → ¬ Replaced s path newpath k →
    (k ∈ s'.entry ↔ k ∈ s.entry) ∧ rest (s'.file k) = rest (s.file k)

def MovesName (s s' : Fs) (path newpath : Str) : Prop :=
  ∃ e e', entryOf s.file path = some e ∧ entryOf s.file newpath = some e' ∧
    Renamed s s' path newpath e e'

/-- At most one entry has the name, and it leads to no file of the table. -/
def Vacant (s : Fs) (name : Str) (k : ℕ) : Prop :=
  (under name (s.file k)).length ≤ 1 ∧ ∀ j ∈ under name (s.file k), j ≠ 0 ∧ j ∉ s.entry

instance (s : Fs) (name : Str) (k : ℕ) : Decidable (Vacant s name k) :=
  inferInstanceAs (Decidable (_ ∧ _))

def replacing (v : View) (e e' : ℕ × Str) (i : ℕ) : View :=
  moved (if nameIn v e'.2 e'.1 ≠ 0 then without v e' else v) e e' i

/-- With the one entry moved, the new path leads to the file and the old one
does not. -/
def Leads (v : View) (path newpath : Str) (e e' : ℕ × Str) : Prop :=
  real (replacing v e e' (real v path)) newpath = real v path ∧
    real (replacing v e e' (real v path)) path ≠ real v path

instance (v : View) (path newpath : Str) (e e' : ℕ × Str) :
    Decidable (Leads v path newpath e e') := inferInstanceAs (Decidable (_ ∧ _))

/-- Two different entries: the paths end in their names, no link is followed,
and the new name leads to no file of the table. -/
def Apart (s : Fs) (path newpath : Str) (e e' : ℕ × Str) : Prop :=
  tail path ≠ [] ∧ tail newpath ≠ [] ∧ resolve s.file path = real s.file path ∧
    resolve s.file (parentPath newpath) = real s.file (parentPath newpath) ∧
    (real s.file newpath ≠ 0 → real s.file newpath ∉ s.entry) ∧
    ((s.file e'.1).isDir = true → firstNamed e'.2 (s.file e'.1) ≠ some ⟨e'.2,0⟩) ∧
    Leads s.file path newpath e e'

/-- One entry: the call drops it and nothing else, or it drops and enters the
same empty-named entry. -/
def Together (v : View) (path newpath : Str) (e : ℕ × Str) : Prop :=
  if tail newpath = [] then
    tail path = [] ∧ firstNamed [] (v (resolve v path)) = some ⟨[],resolve v path⟩ ∧
      ((v (resolve v path)).isDir = true → (under [] (v (resolve v path))).length = 1)
  else
    resolve v path = real v path ∧
      firstNamed (tail path) (without v e (resolve v (parentPath path))) = none ∧
      real (moved v e e (real v path)) newpath = real v path

/-- The two paths name entries, and the files that the call looks at are in the
table. -/
def Movable (s : Fs) (path newpath : Str) : Prop :=
  real s.file path ∈ s.entry ∧
    (resolve s.file (parentPath newpath) ≠ 0 → resolve s.file (parentPath newpath) ∈ s.entry) ∧
    ∃ e e', entryOf s.file path = some e ∧ entryOf s.file newpath = some e' ∧
      if e = e' then Together s.file path newpath e else Apart s path newpath e e'

instance (s : Fs) (path newpath : Str) (e e' : ℕ × Str) :
    Decidable (Apart s path newpath e e') := inferInstanceAs (Decidable (_ ∧ _))

instance (v : View) (path newpath : Str) (e : ℕ × Str) :
    Decidable (Together v path newpath e) := by
  unfold Together
  infer_instance

variable {v w : View} {s s' : Fs} {path newpath name : Str} {e e' : ℕ × Str} {i k : ℕ}

theorem walk_steps (segs : List Str) (fh : ℕ) :
    walk v fh (segs.filter (fun w => !w.isEmpty)) = walk v fh segs := by
  induction segs generalizing fh with
  | nil => rfl
  | cons it segs ih =>
    by_cases he : it = []
    · subst he
      rw [List.filter_cons_of_neg (by simp), walk, if_pos rfl, ih]
    · rw [List.filter_cons_of_pos (by simpa using he), walk, walk, if_neg he, if_neg he, ih]

theorem entryOf_some (h : entryOf v path = some e) :
    e.2 ≠ [] ∧ ∃ init, steps path = init++[e.2] ∧ walk v 2 init = e.1 := by
  obtain ⟨n,hn,rfl⟩ := Option.map_eq_some_iff.mp h
  obtain ⟨init,hinit⟩ := List.getLast?_eq_some_iff.mp hn
  have hmem : n ∈ steps path := by rw [hinit]; simp
  refine ⟨by simpa using (List.mem_filter.mp hmem).2,init,hinit,?_⟩
  rw [hinit, List.dropLast_concat]

theorem real_entry (h0 : (v 0).isDir = false) (h : entryOf v path = some e) :
    real v path = nameIn v e.2 e.1 := by
  obtain ⟨hne,init,hsteps,hwalk⟩ := entryOf_some h
  have hreal : real v path = walk v e.1 [e.2] := by
    rw [real, ← walk_steps, ← steps, hsteps, walk_append h0, hwalk]
  rw [hreal, walk, if_neg hne]
  split_ifs with hd
  · rfl
  · rw [nameIn, if_neg hd]

theorem firstNamed_real (h0 : (v 0).isDir = false) (hr : real v path ≠ 0)
    (h : entryOf v path = some e) : firstNamed e.2 (v e.1) = some ⟨e.2,real v path⟩ := by
  obtain ⟨d,hfirst,hdi⟩ := firstNamed_of_nameIn (real_entry h0 h).symm hr
  rw [hfirst, ← hdi, ← (firstNamed_mem hfirst).2]

theorem entryOf_tail (ht : tail path ≠ []) :
    entryOf v path = some (real v (parentPath path),tail path) := by
  have hsteps : steps path =
      (segments path).dropLast.filter (fun w => !w.isEmpty)++[tail path] := by
    rw [steps, segments_eq_append, List.filter_append, List.filter_cons_of_pos (by simpa using ht),
      List.filter_nil]
    simp
  rw [entryOf, hsteps, List.getLast?_concat, Option.map_some, List.dropLast_concat, walk_steps,
    ← walk_parentPath, real]

theorem real_tail (h0 : (v 0).isDir = false) (ht : tail path ≠ []) :
    real v path = nameIn v (tail path) (real v (parentPath path)) := by
  have h := real_entry h0 (entryOf_tail ht)
  exact h

theorem walk_lookups (hd : ∀ k, (w k).isDir = (v k).isDir)
    (hn : ∀ name k, name ≠ [] → nameIn w name k = nameIn v name k) (segs : List Str) (fh : ℕ) :
    walk w fh segs = walk v fh segs := by
  induction segs generalizing fh with
  | nil => rfl
  | cons it segs ih =>
    rw [walk, walk]
    by_cases hit : it = []
    · rw [if_pos hit, if_pos hit, ih]
    · rw [if_neg hit, if_neg hit, hd, hn it fh hit, ih]

theorem rest_put {g : File → File} (hg : ∀ f, rest (g f) = rest f) (v : View) (j k : ℕ) :
    rest (put v j g k) = rest (v k) := by
  by_cases hk : k = j
  · subst hk
    rw [put_self, hg]
  · rw [put_of_ne _ _ hk]

theorem rest_dropNamed (name : Str) (f : File) : rest (f.dropNamed name) = rest f := rfl

theorem rest_push (d : Dirent) (f : File) : rest (f.push d) = rest f := rfl

theorem rest_without (v : View) (e : ℕ × Str) (k : ℕ) : rest (without v e k) = rest (v k) :=
  rest_put (rest_dropNamed _) v _ k

theorem rest_moved (v : View) (e e' : ℕ × Str) (i k : ℕ) :
    rest (moved v e e' i k) = rest (v k) := by
  rw [moved, rest_put (rest_push _), rest_without]

theorem isDir_of_rest {f f' : File} (h : rest f' = rest f) : f'.isDir = f.isDir := by
  have hrest : (rest f').isDir = (rest f).isDir := congrArg File.isDir h
  exact hrest

theorem isDir_without (v : View) (e : ℕ × Str) (k : ℕ) :
    (without v e k).isDir = (v k).isDir :=
  isDir_of_rest (rest_without v e k)

theorem isDir_moved (v : View) (e e' : ℕ × Str) (i k : ℕ) :
    (moved v e e' i k).isDir = (v k).isDir :=
  isDir_of_rest (rest_moved v e e' i k)

theorem under_without (v : View) (e : ℕ × Str) (k : ℕ) (name : Str) :
    under name (without v e k) =
      if (k,name) = e then (under name (v k)).tail else under name (v k) := by
  rw [without]
  by_cases hk : k = e.1
  · subst hk
    rw [put_self]
    by_cases hn : name = e.2
    · subst hn
      rw [if_pos rfl, under_dropped]
    · rw [if_neg (fun he => hn (congrArg Prod.snd he)), under_dropNamed hn]
  · rw [put_of_ne _ _ hk, if_neg (fun he => hk (congrArg Prod.fst he))]

theorem under_moved (v : View) (e e' : ℕ × Str) (i k : ℕ) (name : Str) :
    under name (moved v e e' i k) =
      (if (k,name) = e then (under name (v k)).tail else under name (v k))++
        if (k,name) = e' then [i] else [] := by
  rw [← under_without]
  by_cases hk : k = e'.1
  · subst hk
    rw [moved, put_self, under_push]
    by_cases hn : e'.2 = name
    · subst hn
      simp
    · have hno : (e'.1,name) ≠ e' := fun he => hn (congrArg Prod.snd he).symm
      rw [if_neg hn, if_neg hno]
  · have hno : (k,name) ≠ e' := fun he => hk (congrArg Prod.fst he)
    rw [moved, put_of_ne _ _ hk, if_neg hno, List.append_nil]

theorem nameIn_moved_other (hne : (k,name) ≠ e) (hne' : (k,name) ≠ e') :
    nameIn (moved v e e' i) name k = nameIn v name k := by
  rw [nameIn_under, nameIn_under, isDir_moved, under_moved, if_neg hne, if_neg hne',
    List.append_nil]

theorem nameIn_moved_away (hone : under e.2 (v e.1) = [i]) (hne : e ≠ e') :
    nameIn (moved v e e' i) e.2 e.1 = 0 := by
  rw [nameIn_under, under_moved, if_pos rfl, if_neg hne, hone]
  split_ifs <;> rfl

theorem nameIn_moved_there (hd : (v e'.1).isDir = true) (hfree : under e'.2 (v e'.1) = [])
    (hne : e ≠ e') : nameIn (moved v e e' i) e'.2 e'.1 = i := by
  rw [nameIn_under, isDir_moved, if_pos hd, under_moved, if_neg (Ne.symm hne), if_pos rfl, hfree]
  rfl

/-- A walk that succeeded fails if it passes the entry moved away, and ends
where it did if not. -/
theorem walk_moved (h0 : (v 0).isDir = false) (hone : under e.2 (v e.1) = [i])
    (hfree : nameIn v e'.2 e'.1 = 0) (hne : e ≠ e') (segs : List Str) (fh : ℕ)
    (h : walk v fh segs ≠ 0) :
    walk (moved v e e' i) fh segs = if passes v e fh segs then 0 else walk v fh segs := by
  induction segs generalizing fh with
  | nil => rfl
  | cons it segs ih =>
    rw [walk] at h
    rw [walk, walk, passes, isDir_moved]
    by_cases hit : it = []
    · simp only [if_pos hit] at h ⊢
      exact ih fh h
    simp only [if_neg hit] at h ⊢
    by_cases hd : (v fh).isDir = true
    · simp only [if_pos hd] at h ⊢
      by_cases he : (fh,it) = e
      · subst he
        have hw0 : (moved v (fh,it) e' i 0).isDir = false := (isDir_moved v _ e' i 0).trans h0
        have haway := nameIn_moved_away hone hne
        simp only at haway
        rw [haway, walk_zero hw0]
        simp
      · have hstep : nameIn v it fh ≠ 0 := by
          intro hz
          rw [hz] at h
          exact h (walk_zero h0 segs)
        have he' : (fh,it) ≠ e' := by
          rintro rfl
          exact hstep hfree
        rw [nameIn_moved_other he he', ih _ h, decide_eq_false he, Bool.false_or]
    · simp only [if_neg hd] at h
      exact absurd rfl h

theorem walk_without (h0 : (v 0).isDir = false) (hj : (v (nameIn v e'.2 e'.1)).isDir = false)
    (segs : List Str) (fh : ℕ) (h : (v (walk v fh segs)).isDir = true) :
    walk (without v e') fh segs = walk v fh segs ∧
      passes (without v e') e fh segs = passes v e fh segs := by
  induction segs generalizing fh with
  | nil => exact ⟨rfl,rfl⟩
  | cons it segs ih =>
    rw [walk] at h
    rw [walk, walk, passes, passes, isDir_without]
    by_cases hit : it = []
    · simp only [if_pos hit] at h ⊢
      exact ih fh h
    simp only [if_neg hit] at h ⊢
    by_cases hd : (v fh).isDir = true
    · simp only [if_pos hd] at h ⊢
      have he' : (fh,it) ≠ e' := by
        rintro rfl
        rcases walk_not_dir hj segs with hend | hend
        · rw [hend, hj] at h
          exact Bool.false_ne_true h
        · rw [hend, h0] at h
          exact Bool.false_ne_true h
      have hsame : nameIn (without v e') it fh = nameIn v it fh := by
        rw [nameIn_under, nameIn_under, isDir_without, under_without, if_neg he']
      obtain ⟨hwalk,hpasses⟩ := ih _ h
      rw [hsame, hwalk, hpasses]
      exact ⟨rfl,rfl⟩
    · simp only [if_neg hd, h0] at h
      exact absurd h Bool.false_ne_true

theorem entryOf_without (h0 : (v 0).isDir = false)
    (hj : (v (nameIn v e'.2 e'.1)).isDir = false) (he : entryOf v path = some e)
    (hd : (v e.1).isDir = true) : entryOf (without v e') path = some e := by
  obtain ⟨n,hn,rfl⟩ := Option.map_eq_some_iff.mp he
  have hwalk := (walk_without (e := (0,[])) h0 hj _ _ hd).1
  rw [entryOf, hn, Option.map_some, hwalk]

theorem count_without (v : View) (e : ℕ × Str) (k : ℕ) (d : Dirent) :
    (without v e k).dentries.count d+
      (if k = e.1 ∧ firstNamed e.2 (v k) = some d then 1 else 0) = (v k).dentries.count d := by
  rw [without]
  by_cases hk : k = e.1
  · subst hk
    have herase := countP_eraseP (fun a => a == d) (fun d => d.dName == e.2) (v e.1).dentries
    rw [put_self, List.count_eq_countP, List.count_eq_countP, ← herase, ← firstNamed]
    simp only [File.dropNamed, true_and]
    cases firstNamed e.2 (v e.1) <;> simp [List.countP_singleton]
  · rw [put_of_ne _ _ hk, if_neg (fun h => hk h.1)]
    rfl

theorem count_pushed (v : View) (e' : ℕ × Str) (i k : ℕ) (d : Dirent) :
    (put v e'.1 (File.push ⟨e'.2,i⟩) k).dentries.count d =
      (v k).dentries.count d+if k = e'.1 ∧ d = ⟨e'.2,i⟩ then 1 else 0 := by
  by_cases hk : k = e'.1
  · subst hk
    have hsame : ((⟨e'.2,i⟩ : Dirent) == d) = true ↔ d = ⟨e'.2,i⟩ := by rw [beq_iff_eq, eq_comm]
    rw [put_self, File.push_dentries, List.count_append, List.count_singleton]
    simp only [true_and, hsame]
  · rw [put_of_ne _ _ hk, if_neg (fun h => hk h.1)]
    rfl

theorem myRename_ok (h : myRename path newpath s = (ok,s')) :
    ¬ IsDots (tail path) ∧
      s'.file = renameView s.file (resolve s.file (parentPath path))
        (resolve s.file (parentPath newpath)) (tail path) (tail newpath) (resolve s.file path) ∧
      ∀ k, k ≠ 0 → (k ∈ s'.entry ↔ k ∈ s.entry ∨ k ∈ touches s.file (.rename path newpath)) := by
  have hgo : ¬ IsDots (tail path) := by
    intro hd
    rw [myRename] at h
    simp only [if_pos hd] at h
    exact absurd (Prod.mk.inj h).1 (by decide)
  obtain ⟨hview,hkeys⟩ := (myRename_did h).1.rename hgo
  exact ⟨hgo,hview,fun k hk => (hkeys k hk).symm⟩

theorem ne_zero_of_isDir (h0 : (v 0).isDir = false) (hd : (v k).isDir = true) : k ≠ 0 := by
  rintro rfl
  exact Bool.false_ne_true (h0.symm.trans hd)

theorem found_moved (h0 : (v 0).isDir = false) (hone : under e.2 (v e.1) = [i])
    (hdir : (v e'.1).isDir = true) (hnone : under e'.2 (v e'.1) = []) (hne : e ≠ e')
    (hq : tail newpath ≠ []) (hlast : e' = (real v (parentPath newpath),tail newpath))
    (hpasses : passes v e 2 (segments newpath).dropLast = false) :
    real (moved v e e' i) newpath = i := by
  have hfree : nameIn v e'.2 e'.1 = 0 := by
    rw [nameIn_under, hnone, if_pos hdir]
    rfl
  have hfirst : e'.1 = walk v 2 (segments newpath).dropLast := by
    rw [hlast, real, walk_parentPath]
  have hwalk : real (moved v e e' i) (parentPath newpath) = e'.1 := by
    have hne0 : walk v 2 (segments newpath).dropLast ≠ 0 := hfirst ▸ ne_zero_of_isDir h0 hdir
    rw [real, walk_parentPath, walk_moved h0 hone hfree hne _ _ hne0, hpasses, if_neg (by simp),
      hfirst]
  have hname : tail newpath = e'.2 := by rw [hlast]
  rw [real_tail ((isDir_moved v e e' i 0).trans h0) hq, hwalk, hname]
  exact nameIn_moved_there hdir hnone hne

theorem lost_moved (h0 : (v 0).isDir = false) (hone : under e.2 (v e.1) = [i])
    (hfree : nameIn v e'.2 e'.1 = 0) (hne : e ≠ e') (hp : tail path ≠ [])
    (he : entryOf v path = some e) (hd : (v e.1).isDir = true) :
    real (moved v e e' i) path = 0 := by
  have hown : e = (real v (parentPath path),tail path) :=
    Option.some.inj (he.symm.trans (entryOf_tail hp))
  have hdirectory : e.1 = walk v 2 (segments (parentPath path)) := by rw [hown, real]
  have hname : tail path = e.2 := by rw [hown]
  have hw0 : (moved v e e' i 0).isDir = false := (isDir_moved v e e' i 0).trans h0
  have hne0 : walk v 2 (segments (parentPath path)) ≠ 0 := hdirectory ▸ ne_zero_of_isDir h0 hd
  rw [real_tail hw0 hp, hname, real, walk_moved h0 hone hfree hne _ _ hne0, ← hdirectory]
  split_ifs
  · rw [nameIn, hw0]
    rfl
  · exact nameIn_moved_away hone hne

theorem nameIn_mem_under (h : nameIn v name k ≠ 0) : nameIn v name k ∈ under name (v k) := by
  obtain ⟨d,hfirst,hdi⟩ := firstNamed_of_nameIn rfl h
  rw [← hdi]
  exact mem_under (firstNamed_mem hfirst).1 (firstNamed_mem hfirst).2

theorem Vacant.not_mem (h : Vacant s name k) (hne : nameIn s.file name k ≠ 0) :
    nameIn s.file name k ∉ s.entry :=
  (h.2 _ (nameIn_mem_under hne)).2

theorem Vacant.not_dir (h0 : (s.file 0).isDir = false) (h : Vacant s name k) :
    (s.file (nameIn s.file name k)).isDir = false := by
  by_contra hd
  have hdir := Bool.eq_true_of_not_eq_false hd
  exact h.not_mem (ne_zero_of_isDir h0 hdir) (mem_of_isDir hdir)

theorem Vacant.under_without (h : Vacant s e'.2 e'.1) :
    under e'.2 (without s.file e' e'.1) = [] := by
  have hlength := h.1
  rw [Renaming.under_without, if_pos rfl]
  apply List.eq_nil_of_length_eq_zero
  rw [List.length_tail]
  omega

theorem rest_clearView (v : View) (P Q : ℕ) (name newname : Str) (k : ℕ) :
    rest (clearView v P Q name newname k) = rest (v k) := by
  rw [clearView, rest_put (rest_dropNamed _)]
  split_ifs
  · rw [rest_put (rest_dropNamed _)]
  · rfl

theorem rest_renameView (v : View) (P Q : ℕ) (name newname : Str) (fh k : ℕ) :
    rest (renameView v P Q name newname fh k) = rest (v k) := by
  rw [renameView, rest_put (rest_push _), rest_clearView]

/-- The entries that the call drops: one of the new name where it leads
somewhere, and after that one of the old name. -/
def dropped (v : View) (P Q : ℕ) (name newname : Str) (k : ℕ) (d : Dirent) : ℕ :=
  (if nameIn v newname Q ≠ 0 ∧ k = Q ∧ firstNamed newname (v k) = some d then 1 else 0)+
    if k = P ∧ firstNamed name
      ((if nameIn v newname Q ≠ 0 then without v (Q,newname) else v) k) = some d then 1 else 0

theorem count_clearView (v : View) (P Q : ℕ) (name newname : Str) (k : ℕ) (d : Dirent) :
    (clearView v P Q name newname k).dentries.count d+dropped v P Q name newname k d =
      (v k).dentries.count d := by
  rw [dropped]
  by_cases hn : nameIn v newname Q ≠ 0
  · have hfirst := count_without v (Q,newname) k d
    have hsecond := count_without (without v (Q,newname)) (P,name) k d
    rw [clearView]
    simp only [hn, ne_eq, not_false_eq_true, true_and, if_true] at hfirst hsecond ⊢
    rw [show put (put v Q (File.dropNamed newname)) P (File.dropNamed name) =
      without (without v (Q,newname)) (P,name) from rfl]
    omega
  · have hsecond := count_without v (P,name) k d
    rw [clearView]
    simp only [hn, false_and, if_false, zero_add]
    exact hsecond

theorem count_renameView (v : View) (P Q : ℕ) (name newname : Str) (fh k : ℕ) (d : Dirent) :
    (renameView v P Q name newname fh k).dentries.count d =
      (clearView v P Q name newname k).dentries.count d+
        if k = Q ∧ d = ⟨newname,fh⟩ then 1 else 0 :=
  count_pushed (clearView v P Q name newname) (Q,newname) fh k d

theorem decrement_ne (n : ℕ) : decrement n ≠ n := by
  unfold decrement
  split_ifs <;> omega

theorem replaced_none (hview : ∀ j, rest (s'.file j) = rest (s.file j))
    (hkeys : ∀ j, j ≠ 0 → j ∈ s.entry → j ∈ s'.entry) (h : Renamed s s' path newpath e e') (j : ℕ) :
    ¬ Replaced s path newpath j := by
  intro hj
  have hout := h.replaced j hj
  have hstays := hkeys j hj.2.2.1 hj.2.2.2
  split_ifs at hout
  · exact hout hstays
  · have hmeta : rest (s.file j) = rest ((s.file j).setStat decNlink) :=
      (hview j).symm.trans hout.2
    have hlink : (s.file j).metadata.stNlink = decrement (s.file j).metadata.stNlink :=
      congrArg (fun f => f.metadata.stNlink) hmeta
    exact decrement_ne _ hlink.symm

def Counts (v w : View) (path : Str) (e e' : ℕ × Str) : Prop :=
  ∀ k d, (w k).dentries.count d+gone v path e e' k d =
    (v k).dentries.count d+if k = e'.1 ∧ d = ⟨e'.2,real v path⟩ then 1 else 0

/-- The call puts one entry in and takes some out; all but the move must cancel. -/
theorem counts_iff (P Q : ℕ) (name newname : Str) (fh : ℕ) :
    Counts v (renameView v P Q name newname fh) path e e' ↔
      ∀ k d, gone v path e e' k d+(if k = Q ∧ d = ⟨newname,fh⟩ then 1 else 0) =
        dropped v P Q name newname k d+if k = e'.1 ∧ d = ⟨e'.2,real v path⟩ then 1 else 0 := by
  apply forall_congr'
  intro k
  apply forall_congr'
  intro d
  have hclear := count_clearView v P Q name newname k d
  rw [count_renameView]
  omega

theorem firstNamed_under (name : Str) (f : File) :
    firstNamed name f = (under name f).head?.map (Dirent.mk name) := by
  rw [under, List.head?_map, List.head?_filter, ← firstNamed]
  cases hf : firstNamed name f with
  | none => rfl
  | some d =>
    rw [← (firstNamed_mem hf).2]
    rfl

theorem firstNamed_without (hne : (k,name) ≠ e) :
    firstNamed name (without v e k) = firstNamed name (v k) := by
  rw [firstNamed_under, under_without, if_neg hne, ← firstNamed_under]

theorem first_iff {j : ℕ} {d₀ : Dirent} (h : firstNamed name (v j) = some d₀) (k : ℕ) (d : Dirent) :
    (k = j ∧ firstNamed name (v k) = some d) ↔ k = j ∧ d = d₀ := by
  constructor
  · rintro ⟨rfl,hf⟩
    rw [h] at hf
    exact ⟨rfl,(Option.some.inj hf).symm⟩
  · rintro ⟨rfl,rfl⟩
    exact ⟨rfl,h⟩

theorem gone_together (k : ℕ) (d : Dirent) :
    gone v path e e k d = if k = e.1 ∧ d = ⟨e.2,real v path⟩ then 1 else 0 := by
  have hno : ¬ (e ≠ e ∧ k = e.1 ∧ (v k).isDir = true ∧ firstNamed e.2 (v k) = some d) :=
    fun h => h.1 rfl
  rw [gone, if_neg hno, Nat.add_zero]

theorem counts_apart {P Q fh : ℕ} {newname : Str} (hne : e ≠ e') (hr : real v path ≠ 0)
    (hfirst : firstNamed e.2 (v e.1) = some ⟨e.2,real v path⟩)
    (hother : nameIn v e'.2 e'.1 ≠ real v path) :
    Counts v (renameView v P Q name newname fh) path e e' ↔
      (Q,newname) = e' ∧ fh = real v path ∧ (P,name) = e ∧
        ((v e'.1).isDir = true → firstNamed e'.2 (v e'.1) ≠ some ⟨e'.2,0⟩) := by
  have hpair : ∀ {j j' : ℕ}, e.1 = e'.1 → (⟨e.2,j⟩ : Dirent) ≠ ⟨e'.2,j'⟩ := by
    intro j j' hk hd
    exact hne (Prod.ext hk (congrArg Dirent.dName hd))
  rw [counts_iff]
  constructor
  · intro hc
    have hput : e'.1 = Q ∧ (⟨e'.2,real v path⟩ : Dirent) = ⟨newname,fh⟩ := by
      have hcount := hc e'.1 ⟨e'.2,real v path⟩
      have hgone : gone v path e e' e'.1 ⟨e'.2,real v path⟩ = 0 := by
        rw [gone, if_neg (fun h => hpair h.1.symm h.2.symm), if_neg]
        rintro ⟨-,-,hd,hf⟩
        rw [nameIn_eq, if_pos hd, hf] at hother
        exact hother rfl
      by_contra hno
      rw [hgone, if_neg hno, if_pos ⟨rfl,rfl⟩] at hcount
      omega
    obtain ⟨rfl,hd⟩ := hput
    obtain ⟨rfl,rfl⟩ := Dirent.mk.inj hd
    have htaken : e.1 = P ∧ firstNamed name ((if nameIn v e'.2 e'.1 ≠ 0 then
        without v (e'.1,e'.2) else v) e.1) = some ⟨e.2,real v path⟩ := by
      have hcount := hc e.1 ⟨e.2,real v path⟩
      have hway : ¬ (nameIn v e'.2 e'.1 ≠ 0 ∧ e.1 = e'.1 ∧
          firstNamed e'.2 (v e.1) = some ⟨e.2,real v path⟩) := by
        rintro ⟨-,hk,hf⟩
        exact hne (Prod.ext hk (firstNamed_mem hf).2)
      by_contra hno
      rw [gone, if_pos ⟨rfl,rfl⟩, dropped, if_neg hway, if_neg hno] at hcount
      omega
    obtain ⟨rfl,hf⟩ := htaken
    have hname : name = e.2 := (firstNamed_mem hf).2.symm
    subst hname
    refine ⟨rfl,rfl,rfl,?_⟩
    intro hd hzero
    have hcount := hc e'.1 ⟨e'.2,0⟩
    have hnone : nameIn v e'.2 e'.1 = 0 := by
      rw [nameIn_eq, if_pos hd, hzero]
      rfl
    have hother' : ¬ (e'.1 = e'.1 ∧ (⟨e'.2,0⟩ : Dirent) = ⟨e'.2,real v path⟩) :=
      fun h => hr (Dirent.mk.inj h.2).2.symm
    have htaken : ¬ (e'.1 = e.1 ∧ firstNamed e.2 (v e'.1) = some ⟨e'.2,0⟩) := by
      rintro ⟨hk,hf⟩
      exact hne (Prod.ext hk.symm (firstNamed_mem hf).2.symm)
    rw [gone, if_neg (fun h => hpair h.1.symm h.2.symm), if_pos ⟨hne,rfl,hd,hzero⟩,
      if_neg hother', dropped, if_neg (fun h => h.1 hnone),
      if_neg (by rw [if_neg (not_not.mpr hnone)]; exact htaken)] at hcount
    omega
  · rintro ⟨rfl,rfl,rfl,hzero⟩ k d
    have hsame : firstNamed name ((if nameIn v newname Q ≠ 0 then without v (Q,newname) else v) P) =
        firstNamed name (v P) := by
      split_ifs
      · exact firstNamed_without hne
      · rfl
    have htaken := first_iff (hsame.trans hfirst) k d
    have hway : (nameIn v newname Q ≠ 0 ∧ k = Q ∧ firstNamed newname (v k) = some d) ↔
        (P,name) ≠ (Q,newname) ∧ k = Q ∧ (v k).isDir = true ∧ firstNamed newname (v k) = some d := by
      constructor
      · rintro ⟨hn,rfl,hf⟩
        refine ⟨hne,rfl,?_,hf⟩
        by_contra hd
        exact hn (by rw [nameIn_eq, if_neg hd])
      · rintro ⟨-,rfl,hd,hf⟩
        refine ⟨?_,rfl,hf⟩
        intro hn
        rw [nameIn_eq, if_pos hd, hf] at hn
        apply hzero hd
        rw [hf, ← (firstNamed_mem hf).2, ← hn]
        rfl
    rw [gone, dropped]
    simp only [htaken, hway]
    omega

theorem counts_together (P Q : ℕ) (name newname : Str) (fh : ℕ) :
    Counts v (renameView v P Q name newname fh) path e e ↔
      ∀ k d, (if k = Q ∧ d = ⟨newname,fh⟩ then 1 else 0) = dropped v P Q name newname k d := by
  rw [counts_iff]
  apply forall_congr'
  intro k
  apply forall_congr'
  intro d
  rw [gone_together]
  omega

theorem counts_named {P fh : ℕ} (hr : real v path ≠ 0) (hd : (v e.1).isDir = true)
    (hfirst : firstNamed e.2 (v e.1) = some ⟨e.2,real v path⟩) :
    Counts v (renameView v P e.1 name e.2 fh) path e e ↔
      fh = real v path ∧ firstNamed name (without v e P) = none := by
  have hfound : nameIn v e.2 e.1 = real v path := by
    rw [nameIn_eq, if_pos hd, hfirst]
    rfl
  have hdrop : ∀ k d, dropped v P e.1 name e.2 k d =
      (if k = e.1 ∧ d = ⟨e.2,real v path⟩ then 1 else 0)+
        if k = P ∧ firstNamed name (without v e k) = some d then 1 else 0 := by
    intro k d
    have hown : (nameIn v e.2 e.1 ≠ 0 ∧ k = e.1 ∧ firstNamed e.2 (v k) = some d) ↔
        k = e.1 ∧ d = ⟨e.2,real v path⟩ := by
      rw [first_iff hfirst, hfound]
      exact and_iff_right hr
    rw [dropped, if_pos (hfound ▸ hr : nameIn v e.2 e.1 ≠ 0)]
    simp only [hown]
  rw [counts_together]
  constructor
  · intro hc
    have hput : fh = real v path := by
      have hcount := hc e.1 ⟨e.2,real v path⟩
      by_contra hno
      rw [if_neg (fun h => hno (Dirent.mk.inj h.2).2.symm), hdrop, if_pos ⟨rfl,rfl⟩] at hcount
      omega
    refine ⟨hput,?_⟩
    by_contra hsome
    obtain ⟨d,hf⟩ := Option.ne_none_iff_exists'.mp hsome
    have hcount := hc P d
    rw [hdrop, hput, if_pos (⟨rfl,hf⟩ : P = P ∧ _)] at hcount
    omega
  · rintro ⟨rfl,hnone⟩ k d
    have hno : ¬ (k = P ∧ firstNamed name (without v e k) = some d) := by
      rintro ⟨rfl,hf⟩
      rw [hnone] at hf
      exact absurd hf.symm (Option.some_ne_none _)
    rw [hdrop, if_neg hno, Nat.add_zero]

theorem firstNamed_none {f : File} : firstNamed name f = none ↔ under name f = [] := by
  rw [firstNamed_under, Option.map_eq_none_iff, List.head?_eq_none_iff]

theorem counts_empty {fh : ℕ} (h0 : (v 0).isDir = false) :
    Counts v (renameView v fh fh [] [] fh) path e e ↔
      firstNamed [] (v fh) = some ⟨[],fh⟩ ∧
        ((v fh).isDir = true → (under [] (v fh)).length = 1) := by
  rw [counts_together]
  by_cases hn : nameIn v [] fh = 0
  · have hdrop : ∀ k d, dropped v fh fh [] [] k d =
        if k = fh ∧ firstNamed [] (v k) = some d then 1 else 0 := by
      intro k d
      rw [dropped, if_neg (fun h => h.1 hn), if_neg (not_not.mpr hn), Nat.zero_add]
    constructor
    · intro hc
      have hcount := hc fh ⟨[],fh⟩
      have hfirst : firstNamed [] (v fh) = some ⟨[],fh⟩ := by
        by_contra hno
        rw [if_pos ⟨rfl,rfl⟩, hdrop, if_neg (fun h => hno h.2)] at hcount
        omega
      refine ⟨hfirst,?_⟩
      intro hd
      rw [nameIn_eq, if_pos hd, hfirst] at hn
      have hz : fh = 0 := hn
      rw [hz, h0] at hd
      exact absurd hd Bool.false_ne_true
    · rintro ⟨hfirst,-⟩ k d
      rw [hdrop]
      simp only [first_iff hfirst]
  · have hdir : (v fh).isDir = true := by
      by_contra hd
      exact hn (by rw [nameIn_eq, if_neg hd])
    obtain ⟨d₀,hd₀,-⟩ := firstNamed_of_nameIn rfl hn
    have hdrop : ∀ k d, dropped v fh fh [] [] k d =
        (if k = fh ∧ firstNamed [] (v k) = some d then 1 else 0)+
          if k = fh ∧ firstNamed [] (without v (fh,[]) k) = some d then 1 else 0 := by
      intro k d
      rw [dropped, if_pos hn]
      simp only [ne_eq, hn, not_false_eq_true, true_and]
    have hnext : firstNamed [] (without v (fh,[]) fh) = none ↔ (under [] (v fh)).length = 1 := by
      rw [firstNamed_none, under_without, if_pos rfl]
      cases hu : under [] (v fh) with
      | nil =>
        rw [firstNamed_under, hu] at hd₀
        exact absurd hd₀.symm (Option.some_ne_none _)
      | cons j js => simp
    constructor
    · intro hc
      have hcount := hc fh d₀
      have hfirst : d₀ = ⟨[],fh⟩ := by
        by_contra hno
        rw [if_neg (fun h => hno h.2), hdrop, if_pos ⟨rfl,hd₀⟩] at hcount
        omega
      subst hfirst
      refine ⟨hd₀,fun _ => hnext.mp ?_⟩
      by_contra hsome
      obtain ⟨d,hf⟩ := Option.ne_none_iff_exists'.mp hsome
      have hagain := hc fh d
      rw [hdrop, if_pos (⟨rfl,hf⟩ : fh = fh ∧ _), if_congr (first_iff hd₀ fh d) rfl rfl] at hagain
      omega
    · rintro ⟨hfirst,hone⟩ k d
      have hno : ¬ (k = fh ∧ firstNamed [] (without v (fh,[]) k) = some d) := by
        rintro ⟨rfl,hf⟩
        rw [hnext.mpr (hone hdir)] at hf
        exact absurd hf.symm (Option.some_ne_none _)
      rw [hdrop, if_neg hno, Nat.add_zero]
      simp only [first_iff hfirst]

/-- Where only the new path ends in a slash, the name of the entry is dropped. -/
theorem not_counts_slash {Q j : ℕ} (he : e.2 ≠ [])
    (hfirst : firstNamed e.2 (v e.1) = some ⟨e.2,real v path⟩) :
    ¬ Counts v (renameView v e.1 Q e.2 [] j) path e e := by
  rw [counts_together]
  intro hc
  have hcount := hc e.1 ⟨e.2,real v path⟩
  have hsame : firstNamed e.2 ((if nameIn v [] Q ≠ 0 then without v (Q,[]) else v) e.1) =
      firstNamed e.2 (v e.1) := by
    split_ifs
    · exact firstNamed_without (fun h => he (congrArg Prod.snd h))
    · rfl
  rw [dropped, if_neg (fun h => he (Dirent.mk.inj h.2).1),
    if_pos (⟨rfl,hsame.trans hfirst⟩ : e.1 = e.1 ∧ _)] at hcount
  omega

theorem renameView_eq (v : View) (e e' : ℕ × Str) (i : ℕ) :
    renameView v e.1 e'.1 e.2 e'.2 i = replacing v e e' i := rfl

theorem parent_slash (h0 : (v 0).isDir = false) (ht : tail path = []) :
    real v (parentPath path) = real v path ∧ resolve v (parentPath path) = resolve v path := by
  have hreal : real v path = real v (parentPath path) := by rw [real_parentPath h0, if_pos ht]
  exact ⟨hreal.symm,by rw [resolve, ← hreal, resolve]⟩

theorem parent_entry (hd : (v e.1).isDir = true) (he : entryOf v path = some e)
    (ht : tail path ≠ []) : real v (parentPath path) = e.1 ∧ resolve v (parentPath path) = e.1 ∧
      tail path = e.2 := by
  obtain rfl := Option.some.inj (he.symm.trans (entryOf_tail ht))
  exact ⟨rfl,resolve_dir hd,rfl⟩

theorem dir_of_real (h0 : (v 0).isDir = false) (hr : real v path ≠ 0)
    (he : entryOf v path = some e) : (v e.1).isDir = true := by
  rw [real_entry h0 he, nameIn_eq] at hr
  by_contra hd
  exact hr (if_neg hd)

theorem real_renameView_empty (P Q fh : ℕ) (path : Str) :
    real (renameView v P Q [] [] fh) path = real v path := by
  have hdrop : ∀ (u : View) (j : ℕ) (name : Str) (k : ℕ), name ≠ [] →
      under name (put u j (File.dropNamed []) k) = under name (u k) := by
    intro u j name k hname
    have hunder := under_without u (j,[]) k name
    rw [if_neg (fun h => hname (congrArg Prod.snd h))] at hunder
    exact hunder
  have hdir : ∀ k, (renameView v P Q [] [] fh k).isDir = (v k).isDir :=
    fun k => isDir_of_rest (rest_renameView v P Q [] [] fh k)
  apply walk_lookups hdir
  intro name k hname
  have hpush : under name (renameView v P Q [] [] fh k) =
      under name (clearView v P Q [] [] k) := by
    rw [renameView]
    by_cases hk : k = Q
    · subst hk
      rw [put_self, under_push, if_neg (Ne.symm hname), List.append_nil]
    · rw [put_of_ne _ _ hk]
  rw [nameIn_under, nameIn_under, hdir, hpush, clearView, hdrop _ _ _ _ hname]
  split_ifs
  · rw [hdrop _ _ _ _ hname]
  · rfl
  · rfl

/-- For one entry the condition says when only the move is left of the call. -/
theorem together_iff (h0 : (v 0).isDir = false) (hr : real v path ≠ 0)
    (he : entryOf v path = some e) (he' : entryOf v newpath = some e)
    (hw : w = renameView v (resolve v (parentPath path)) (resolve v (parentPath newpath))
      (tail path) (tail newpath) (resolve v path)) :
    Counts v w path e e ∧ real w newpath = real v path ↔ Together v path newpath e := by
  have hd := dir_of_real h0 hr he
  have hfirst := firstNamed_real h0 hr he
  have hsame : real v newpath = real v path := by rw [real_entry h0 he', real_entry h0 he]
  have hfound : nameIn v e.2 e.1 ≠ 0 := by
    rw [← real_entry h0 he]
    exact hr
  subst hw
  rw [Together]
  by_cases hq : tail newpath = []
  · have hQ : resolve v (parentPath newpath) = resolve v path := by
      rw [(parent_slash h0 hq).2, resolve, hsame, ← resolve]
    rw [if_pos hq, hq, hQ]
    by_cases hp : tail path = []
    · rw [hp, (parent_slash h0 hp).2, counts_empty h0, real_renameView_empty, hsame]
      simp
    · obtain ⟨-,hP,hname⟩ := parent_entry hd he hp
      rw [hP, hname]
      have hnot := not_counts_slash (Q := resolve v path) (j := resolve v path)
        (entryOf_some he).1 hfirst
      constructor
      · exact fun h => absurd h.1 hnot
      · exact fun h => absurd h.1 (entryOf_some he).1
  · obtain ⟨-,hQ,hname⟩ := parent_entry hd he' hq
    rw [if_neg hq, hQ, hname, counts_named hr hd hfirst, and_assoc]
    apply and_congr_right
    intro hres
    apply and_congr_right
    intro hnone
    rw [renameView, clearView, if_pos hfound, ← without, put_dropNamed_absent
      (firstNamed_none.mp hnone), hres, moved]

/-- For two entries the condition says when the call is the move. -/
theorem apart_iff (h0 : (s.file 0).isDir = false) (hr : real s.file path ≠ 0)
    (hmem : real s.file path ∈ s.entry) (he : entryOf s.file path = some e)
    (he' : entryOf s.file newpath = some e') (hne : e ≠ e')
    (hw : w = renameView s.file (resolve s.file (parentPath path))
      (resolve s.file (parentPath newpath)) (tail path) (tail newpath) (resolve s.file path)) :
    Counts s.file w path e e' ∧ (real s.file newpath ≠ 0 → real s.file newpath ∉ s.entry) ∧
        real w newpath = real s.file path ∧ real w path ≠ real s.file path ↔
      Apart s path newpath e e' := by
  have hd := dir_of_real h0 hr he
  have hfirst := firstNamed_real h0 hr he
  have hother : (real s.file newpath ≠ 0 → real s.file newpath ∉ s.entry) →
      nameIn s.file e'.2 e'.1 ≠ real s.file path := by
    intro hvac hsame
    rw [real_entry h0 he', hsame] at hvac
    exact hvac hr hmem
  subst hw
  constructor
  · rintro ⟨hc,hvac,hfound,hleft⟩
    obtain ⟨hQ,hres,hP,hzero⟩ := (counts_apart hne hr hfirst (hother hvac)).mp hc
    have hQ' : resolve s.file (parentPath newpath) = e'.1 := congrArg Prod.fst hQ
    have hP' : resolve s.file (parentPath path) = e.1 := congrArg Prod.fst hP
    have hname : tail path = e.2 := congrArg Prod.snd hP
    have hnew : tail newpath = e'.2 := congrArg Prod.snd hQ
    have hp : tail path ≠ [] := by
      rw [hname]
      exact (entryOf_some he).1
    have hq : tail newpath ≠ [] := by
      rw [hnew]
      exact (entryOf_some he').1
    have hparent : e'.1 = real s.file (parentPath newpath) :=
      congrArg Prod.fst (Option.some.inj (he'.symm.trans (entryOf_tail hq)))
    rw [hQ', hP', hname, hnew, hres, renameView_eq] at hfound hleft
    exact ⟨hp,hq,hres,hQ'.trans hparent,hvac,hzero,hfound,hleft⟩
  · rintro ⟨hp,hq,hres,hparent,hvac,hzero,hfound,hleft⟩
    obtain ⟨-,hP,hname⟩ := parent_entry hd he hp
    have hlast : e' = (real s.file (parentPath newpath),tail newpath) :=
      Option.some.inj (he'.symm.trans (entryOf_tail hq))
    have hQ : resolve s.file (parentPath newpath) = e'.1 := by rw [hparent, hlast]
    have hnew : tail newpath = e'.2 := by rw [hlast]
    rw [hQ, hP, hname, hnew, hres]
    refine ⟨(counts_apart hne hr hfirst (hother hvac)).mpr ⟨rfl,rfl,rfl,hzero⟩,hvac,?_,?_⟩
    · rw [renameView_eq]
      exact hfound
    · rw [renameView_eq]
      exact hleft

theorem way_of_found (h0 : (v 0).isDir = false) (hone : under e.2 (v e.1) = [i]) (hi : i ≠ 0)
    (hfree : nameIn v e'.2 e'.1 = 0) (hne : e ≠ e') (hd : (v e'.1).isDir = true)
    (hq : tail newpath ≠ []) (he' : entryOf v newpath = some e')
    (hfound : real (moved v e e' i) newpath = i) :
    passes v e 2 (segments newpath).dropLast = false := by
  apply Bool.eq_false_of_not_eq_true
  intro hpasses
  have hw0 : (moved v e e' i 0).isDir = false := (isDir_moved v e e' i 0).trans h0
  have hlast : e' = (real v (parentPath newpath),tail newpath) :=
    Option.some.inj (he'.symm.trans (entryOf_tail hq))
  have hfirst : e'.1 = walk v 2 (segments newpath).dropLast := by
    rw [hlast, real, walk_parentPath]
  have hne0 : walk v 2 (segments newpath).dropLast ≠ 0 := hfirst ▸ ne_zero_of_isDir h0 hd
  have hlost : real (moved v e e' i) (parentPath newpath) = 0 := by
    rw [real, walk_parentPath, walk_moved h0 hone hfree hne _ _ hne0, if_pos hpasses]
  rw [real_tail hw0 hq, hlost, nameIn, hw0] at hfound
  exact hi hfound.symm

theorem replacing_vacant (hdir : (s.file e'.1).isDir = true) (hvac : Vacant s e'.2 e'.1) (i : ℕ) :
    replacing s.file e e' i = moved (without s.file e') e e' i := by
  rw [replacing]
  by_cases hn : nameIn s.file e'.2 e'.1 ≠ 0
  · rw [if_pos hn]
  · have hnone : under e'.2 (s.file e'.1) = [] := by
      rw [nameIn_under, if_pos hdir, not_not] at hn
      cases hu : under e'.2 (s.file e'.1) with
      | nil => rfl
      | cons j l =>
        rw [hu] at hn
        exact absurd hn (hvac.2 j (by simp [hu])).1
    rw [if_neg hn, without, put_dropNamed_absent hnone]

theorem leads_iff (h0 : (s.file 0).isDir = false) (hr : real s.file path ≠ 0)
    (he : entryOf s.file path = some e) (he' : entryOf s.file newpath = some e') (hne : e ≠ e')
    (hp : tail path ≠ []) (hq : tail newpath ≠ []) (hlen : (under e.2 (s.file e.1)).length = 1)
    (hdir : (s.file e'.1).isDir = true) (hvac : Vacant s e'.2 e'.1) :
    Leads s.file path newpath e e' ↔ passes s.file e 2 (segments newpath).dropLast = false := by
  have hd := dir_of_real h0 hr he
  have hlast : e' = (real s.file (parentPath newpath),tail newpath) :=
    Option.some.inj (he'.symm.trans (entryOf_tail hq))
  have hwalk : walk s.file 2 (segments newpath).dropLast = e'.1 := by
    rw [hlast, real, walk_parentPath]
  have hone : under e.2 (s.file e.1) = [real s.file path] := by
    obtain ⟨j,hj⟩ := List.length_eq_one_iff.mp hlen
    rw [real_entry h0 he, nameIn_under, if_pos hd, hj]
    rfl
  have hnodir := hvac.not_dir h0
  -- what holds without the entry in the way
  have hw0 : (without s.file e' 0).isDir = false := (isDir_without s.file e' 0).trans h0
  have hown := entryOf_without h0 hnodir he hd
  have hone' : under e.2 (without s.file e' e.1) = [real s.file path] := by
    rw [under_without, if_neg hne, hone]
  have hfree : under e'.2 (without s.file e' e'.1) = [] := hvac.under_without
  have hdir' : (without s.file e' e'.1).isDir = true := (isDir_without s.file e' e'.1).trans hdir
  have hd' : (without s.file e' e.1).isDir = true := (isDir_without s.file e' e.1).trans hd
  have hway := walk_without (e := e) h0 hnodir (segments newpath).dropLast 2 (hwalk.symm ▸ hdir)
  have hlast' : e' = (real (without s.file e') (parentPath newpath),tail newpath) := by
    rw [real, walk_parentPath, hway.1, hwalk, hlast]
  have hnone : nameIn (without s.file e') e'.2 e'.1 = 0 := by
    rw [nameIn_under, hfree, if_pos hdir']
    rfl
  rw [Leads, replacing_vacant hdir hvac, ← hway.2]
  constructor
  · rintro ⟨hfound,-⟩
    exact way_of_found hw0 hone' hr hnone hne hdir' hq (entryOf_without h0 hnodir he' hdir) hfound
  · intro hpasses
    refine ⟨found_moved hw0 hone' hdir' hfree hne hq hlast' hpasses,?_⟩
    rw [lost_moved hw0 hone' hnone hne hp hown hd']
    exact Ne.symm hr

theorem movable_touches (h0 : (s.file 0).isDir = false) (hr : real s.file path ≠ 0)
    (hgo : ¬ IsDots (tail path)) (h : Movable s path newpath) (hk : k ≠ 0)
    (hmem : k ∈ touches s.file (.rename path newpath)) : k ∈ s.entry := by
  obtain ⟨hfile,hnew,e,e',he,he',hcase⟩ := h
  have hd := dir_of_real h0 hr he
  have hparent : real s.file (parentPath path) ∈ s.entry := by
    by_cases hp : tail path = []
    · rw [(parent_slash h0 hp).1]
      exact hfile
    · rw [(parent_entry hd he hp).1]
      exact mem_of_isDir hd
  -- the directories of the two paths, as the call finds them
  have hdirs : (real s.file (parentPath newpath) ≠ 0 → real s.file (parentPath newpath) ∈ s.entry) ∧
      (resolve s.file (parentPath path) ≠ 0 → resolve s.file (parentPath path) ∈ s.entry) := by
    split_ifs at hcase with heq
    · subst heq
      rw [Together] at hcase
      have hsame : real s.file newpath = real s.file path := by
        rw [real_entry h0 he', real_entry h0 he]
      by_cases hq : tail newpath = []
      · rw [if_pos hq] at hcase
        rw [(parent_slash h0 hq).1, hsame, (parent_slash h0 hcase.1).2]
        rw [(parent_slash h0 hq).2, resolve, hsame, ← resolve] at hnew
        exact ⟨fun _ => hfile,hnew⟩
      · rw [if_neg hq] at hcase
        rw [(parent_entry hd he' hq).1]
        refine ⟨fun _ => mem_of_isDir hd,fun _ => ?_⟩
        by_cases hp : tail path = []
        · rw [(parent_slash h0 hp).2, hcase.1]
          exact hfile
        · rw [(parent_entry hd he hp).2.1]
          exact mem_of_isDir hd
    · obtain ⟨hp,-,-,hlast,-⟩ := hcase
      rw [hlast] at hnew
      rw [(parent_entry hd he hp).2.1]
      exact ⟨hnew,fun _ => mem_of_isDir hd⟩
  rw [touches, if_neg hgo] at hmem
  simp only [List.mem_cons, List.not_mem_nil, or_false] at hmem
  rcases hmem with rfl | rfl | rfl | rfl | rfl
  · exact hfile
  · exact hparent
  · exact hdirs.1 hk
  · exact hnew hk
  · exact hdirs.2 hk

end Bbfs.Renaming
