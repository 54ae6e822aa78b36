import Bbfs.Census

/-!
# The directory a removal erases

`my_rmdir` takes a directory for empty when it has at most two entries, and
erases one entry for it in the directory of the prefix. What these entries are,
and whether that was the only one, depends on the state before the call.
-/

set_option autoImplicit false

namespace Bbfs.Removing
open Bbfs.Strings Bbfs.Files Bbfs.Resolve Bbfs.Calls Bbfs.Session Bbfs.Walks Bbfs.Effects
open Bbfs.Outcomes Bbfs.Numbers Bbfs.Directories Bbfs.Counting Bbfs.Census

def namesOf (D : ℕ) (d : Dirent) : Bool := d.dIno == D

/-- The erased directory had entries for itself and its parent only, and no
directory that is left has an entry for it. -/
structure Vanished (s s' : Fs) (D : ℕ) : Prop where
  empty : ∀ d ∈ (s.file D).dentries, d.dIno = D ∨ Holds s.file d.dIno D
  unnamed : ∀ k, (s'.file k).isDir = true → ∀ d ∈ (s'.file k).dentries, d.dIno ≠ D

/-- The directory `P` has the only entry for `D` outside `D`; the entries of `D`
name `D`, or `P` where `P` holds it under a plain name. -/
def Sole (s : Fs) (P D : ℕ) : Prop :=
  (∀ k ∈ s.entry.keys, k ≠ D → (s.file k).isDir = true →
    (s.file k).dentries.countP (namesOf D) ≤ if k = P then 1 else 0) ∧
  ∀ d ∈ (s.file D).dentries, d.dIno = D ∨ d.dIno = P ∧ Holds s.file P D

instance (v : View) (x y : ℕ) : Decidable (Holds v x y) :=
  inferInstanceAs (Decidable (_ ∧ _))

instance (s : Fs) (P D : ℕ) : Decidable (Sole s P D) := inferInstanceAs (Decidable (_ ∧ _))

variable {s s' : Fs} {v : View} {path : Str} {P D k : ℕ}

theorem countP_names {l : List Dirent} :
    l.countP (namesOf D) = 0 ↔ ∀ d ∈ l, d.dIno ≠ D := by
  simp [List.countP_eq_zero, namesOf]

theorem countP_dropIno (f : File) : (f.dropIno D).dentries.countP (namesOf D) =
    f.dentries.countP (namesOf D)-1 := by
  have h := countP_eraseP (namesOf D) (namesOf D) f.dentries
  have hsame : (f.dropIno D).dentries = f.dentries.eraseP (namesOf D) := rfl
  rw [hsame]
  cases hd : f.dentries.find? (namesOf D) with
  | none =>
    have hnone : f.dentries.countP (namesOf D) = 0 := by
      rw [List.countP_eq_zero]
      exact List.find?_eq_none.mp hd
    rw [hd, Option.toList_none, List.countP_nil] at h
    omega
  | some d =>
    rw [hd, Option.toList_some, List.countP_singleton, if_pos (List.find?_some hd)] at h
    omega

theorem countP_removed (hv : s'.file = rmdirView s.file P D) (hl : LastLink s.file D) (hk : k ≠ D) :
    (s'.file k).isDir = (s.file k).isDir ∧ (s'.file k).dentries.countP (namesOf D) =
      (s.file k).dentries.countP (namesOf D)-if k = P then 1 else 0 := by
  rw [hv, rmdirView, if_pos hl, Function.update_of_ne hk]
  by_cases hkP : k = P
  · subst hkP
    rw [put_self, countP_dropIno, if_pos rfl]
    exact ⟨rfl,rfl⟩
  · rw [put_of_ne _ _ hkP, if_neg hkP]
    exact ⟨rfl,rfl⟩

theorem unnamed_iff (hv : s'.file = rmdirView s.file P D) (hl : LastLink s.file D) :
    (∀ k, (s'.file k).isDir = true → ∀ d ∈ (s'.file k).dentries, d.dIno ≠ D) ↔
      ∀ k ∈ s.entry.keys, k ≠ D → (s.file k).isDir = true →
        (s.file k).dentries.countP (namesOf D) ≤ if k = P then 1 else 0 := by
  constructor
  · intro h k _ hne hdir
    obtain ⟨htype,hcount⟩ := countP_removed hv hl hne
    have hzero := countP_names.mpr (h k (htype.trans hdir))
    omega
  · intro h k hdir
    have hne : k ≠ D := by
      rintro rfl
      rw [hv, rmdirView, if_pos hl, Function.update_self, File.default_isDir] at hdir
      exact Bool.false_ne_true hdir
    obtain ⟨htype,hcount⟩ := countP_removed hv hl hne
    rw [htype] at hdir
    have hone := h k (Finmap.mem_keys.mpr (mem_of_isDir hdir)) hne hdir
    apply countP_names.mp
    omega

theorem holder_unique (hone : ∀ k ∈ s.entry.keys, k ≠ D → (s.file k).isDir = true →
      (s.file k).dentries.countP (namesOf D) ≤ if k = P then 1 else 0)
    (hne : k ≠ D) (h : Holds s.file k D) : k = P := by
  obtain ⟨hdir,d,hd,-,hi⟩ := h
  by_contra hkP
  have hle := hone k (Finmap.mem_keys.mpr (mem_of_isDir hdir)) hne hdir
  rw [if_neg hkP] at hle
  exact countP_names.mp (Nat.le_zero.mp hle) d hd hi

theorem vanished_iff (hv : s'.file = rmdirView s.file P D) (hl : LastLink s.file D) :
    Vanished s s' D ↔ Sole s P D := by
  constructor
  · intro h
    have hone := (unnamed_iff hv hl).mp h.unnamed
    refine ⟨hone,fun d hd => ?_⟩
    rcases h.empty d hd with hi | hholds
    · exact Or.inl hi
    · by_cases hi : d.dIno = D
      · exact Or.inl hi
      · have hP := holder_unique hone hi hholds
        exact Or.inr ⟨hP,hP ▸ hholds⟩
  · intro ⟨hone,hentries⟩
    refine ⟨fun d hd => ?_,(unnamed_iff hv hl).mpr hone⟩
    rcases hentries d hd with hi | ⟨hi,hholds⟩
    · exact Or.inl hi
    · rw [hi]
      exact Or.inr hholds

/-- A removal erases the directory exactly when it has one link. In every state
of a session, an erased directory was empty and loses all its names exactly
when the directory of the prefix has the only entry for it. -/
theorem rmdir_vanishes_iff {env : Env} (h : Sessions env anyCall s)
    (hok : myRmdir path s = (ok,s')) :
    (resolve s.file path ∉ s'.entry ↔ LastLink s.file (resolve s.file path)) ∧
      ((resolve s.file path ∉ s'.entry → Vanished s s' (resolve s.file path)) ↔
        (LastLink s.file (resolve s.file path) →
          Sole s (resolve s.file (parentPath path)) (resolve s.file path))) := by
  obtain ⟨hgo,hv,hkeys⟩ := myRmdir_ok hok
  have h0 : resolve s.file path ≠ 0 := by
    intro hz
    have hdir := hgo.1
    rw [hz, (untyped (sessions_settled h).sentinel).1] at hdir
    exact Bool.false_ne_true hdir
  have herased : resolve s.file path ∉ s'.entry ↔ LastLink s.file (resolve s.file path) := by
    have hmem := hkeys _ h0
    rw [mem_dropKey] at hmem
    have hold : resolve s.file path ∈ touched s.file s.keys (.rmdir path) :=
      Or.inl (mem_of_isDir hgo.1)
    change resolve s.file path ∉ s'.keys ↔ _
    rw [← hmem]
    simp [hold]
  refine ⟨herased,?_⟩
  rw [herased]
  exact imp_congr_right (fun hl => vanished_iff hv hl)

theorem rmdir_vanishes_run : 3 ∉ (after [.mkdir ['/','d'] 0o755#32,.rmdir ['/','d']]).entry ∧
    Vanished (after [.mkdir ['/','d'] 0o755#32])
      (after [.mkdir ['/','d'] 0o755#32,.rmdir ['/','d']]) 3 := by
  have ha : answer plainEnv (.rmdir ['/','d']) (after [.mkdir ['/','d'] 0o755#32]) =
      some (ok,after ([.mkdir ['/','d'] 0o755#32]++[.rmdir ['/','d']])) :=
    answer_after (by decide +kernel) (by decide +kernel)
  obtain ⟨hgone,hiff⟩ := rmdir_vanishes_iff (after_session (by decide) (by decide))
    (Option.some.inj ha)
  have hout := hgone.mpr (by decide +kernel)
  exact ⟨hout,hiff.mpr (fun _ => by decide +kernel) hout⟩

/-- With a slash at its end, the path of a directory is its own prefix: the
directory is erased, and its name stays in the root. -/
theorem slashed_rmdir_leaves_name :
    Sessions plainEnv anyCall (after [.mkdir ['/','d'] 0o755#32]) ∧
      resolve (after [.mkdir ['/','d'] 0o755#32]).file ['/','d','/'] = 3 ∧
      myRmdir ['/','d','/'] (after [.mkdir ['/','d'] 0o755#32]) =
        (ok,after [.mkdir ['/','d'] 0o755#32,.rmdir ['/','d','/']]) ∧
      3 ∉ (after [.mkdir ['/','d'] 0o755#32,.rmdir ['/','d','/']]).entry ∧
      ¬ Vanished (after [.mkdir ['/','d'] 0o755#32])
        (after [.mkdir ['/','d'] 0o755#32,.rmdir ['/','d','/']]) 3 := by
  have ha : answer plainEnv (.rmdir ['/','d','/']) (after [.mkdir ['/','d'] 0o755#32]) =
      some (ok,after ([.mkdir ['/','d'] 0o755#32]++[.rmdir ['/','d','/']])) :=
    answer_after (by decide +kernel) (by decide +kernel)
  refine ⟨after_session (by decide) (by decide),by decide +kernel,Option.some.inj ha,
    by decide +kernel,?_⟩
  intro h
  exact h.unnamed 2 (by decide +kernel) ⟨['d'],3⟩ (by decide +kernel) rfl

end Bbfs.Removing
