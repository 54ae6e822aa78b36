import Bbfs.Census
import Bbfs.Tally

/-!
# Files deleted while open

One counter stands for the names of a file and for the handles held open on
it. The calls that lower it are followed together with the handles that are
outstanding; the file goes when both are used up, unless `my_rmdir` has lowered
a copy of the counter only.
-/

set_option autoImplicit false

namespace Bbfs.OpenFiles
open Bbfs.Strings Bbfs.Files Bbfs.Resolve Bbfs.Calls Bbfs.Session Bbfs.Walks Bbfs.Effects
open Bbfs.Outcomes Bbfs.Directories Bbfs.Runs Bbfs.Counting Bbfs.Census Bbfs.Tally

/-- The table, and the number of outstanding opens of each handle. -/
structure Tracked where
  fs : Fs
  opens : ℕ → ℕ

def Plain (v : View) (path : Str) : Prop :=
  tail path ≠ [] ∧ ¬ IsDots (tail path) ∧ (v (real v path)).isLnk = false

instance (v : View) (path : Str) : Decidable (Plain v path) :=
  inferInstanceAs (Decidable (_ ∧ _))

inductive FileCall where
  | openFile (path : Str) (flags : ℕ)
  | close (fh : ℕ)
  | unlink (path : Str)
  | rmdir (path : Str)

namespace FileCall

/-- Opens of paths that resolve, closes of handles that are outstanding,
unlinks of regular files and removals of empty directories other than the
root. -/
def Admissible (t : Tracked) : FileCall → Prop
  | openFile path _ => resolve t.fs.file path ≠ 0
  | close fh => 0 < t.opens fh
  | unlink path => Plain t.fs.file path ∧ (t.fs.file (real t.fs.file path)).isReg = true
  | rmdir path => Plain t.fs.file path ∧ (t.fs.file (real t.fs.file path)).isDir = true ∧
    real t.fs.file path ≠ 0 ∧ real t.fs.file path ≠ 2 ∧
      ∀ d ∈ (t.fs.file (real t.fs.file path)).dentries, IsDots d.dName

instance (t : Tracked) (c : FileCall) : Decidable (c.Admissible t) := by
  induction c using FileCall.casesOn <;> unfold Admissible <;> infer_instance

def run (env : Env) (t : Tracked) : FileCall → Tracked
  | openFile path flags =>
    let fh := toU64 (myOpen env path flags t.fs).1
    ⟨(myOpen env path flags t.fs).2,Function.update t.opens fh (t.opens fh+1)⟩
  | close fh => ⟨(myClose fh t.fs).2,Function.update t.opens fh (t.opens fh-1)⟩
  | unlink path => ⟨(myUnlink path t.fs).2,t.opens⟩
  | rmdir path => ⟨(myRmdir path t.fs).2,t.opens⟩

end FileCall

def Childless (s : Fs) (fh : ℕ) : Prop :=
  ∀ d ∈ (s.file fh).dentries, IsDots d.dName ∨ d.dIno = 0 ∨ d.dIno ∉ s.entry

instance (s : Fs) (fh : ℕ) : Decidable (Childless s fh) :=
  inferInstanceAs (Decidable (∀ d ∈ (s.file fh).dentries, _ ∨ _ ∨ _))

def ErasesPlain (v : View) (P fh : ℕ) : Prop :=
  ((v P).dentries.find? (fun d => d.dIno == fh)).all (fun d => !decide (IsDots d.dName)) = true

instance (v : View) (P fh : ℕ) : Decidable (ErasesPlain v P fh) :=
  inferInstanceAs (Decidable (_ = _))

/-- An opened path leads to a file of the table whose number is an `int`; a
file erased by a close or an unlink has no plain entries for files; a removed
directory has one link. -/
def Keeps : FileCall → Tracked → Prop
  | .openFile path _, t => resolve t.fs.file path ∈ t.fs.entry ∧
    toU64 (toInt32 (resolve t.fs.file path)) = resolve t.fs.file path
  | .close fh, t => LastLink t.fs.file fh → Childless t.fs fh
  | .unlink path, t => LastLink t.fs.file (real t.fs.file path) →
    Childless t.fs (real t.fs.file path)
  | .rmdir path, t => Proceeds t.fs.file (.rmdir path) → LastLink t.fs.file (real t.fs.file path) ∧
    ErasesPlain t.fs.file (real t.fs.file (parentPath path)) (real t.fs.file path)

instance (c : FileCall) (t : Tracked) : Decidable (Keeps c t) := by
  induction c using FileCall.casesOn <;> unfold Keeps <;> infer_instance

def track (env : Env) (c : FileCall) (t : Tracked) : Option Tracked :=
  if c.Admissible t then some (c.run env t) else none

def holders (t : Tracked) (i : ℕ) : ℕ := namings (names i) t.fs+t.opens i

/-- The link count of a file of the table is the number of its names and
outstanding opens; it has none of the latter when it is not in the table. -/
def CountedAt (t : Tracked) (i : ℕ) : Prop :=
  (i ∈ t.fs.entry → (t.fs.file i).metadata.stNlink = holders t i) ∧
    (i ∉ t.fs.entry → t.opens i = 0)

/-- The file is erased exactly when its last name or open goes. -/
def ErasedRight (t t' : Tracked) (i : ℕ) : Prop :=
  i ∈ t.fs.entry → (i ∉ t'.fs.entry ↔ 0 < holders t i ∧ holders t' i = 0)

variable {t t' : Tracked} {s s' : Fs} {v : View} {path : Str} {env : Env} {i fh : ℕ}

theorem Plain.resolve (h : Plain v path) : resolve v path = real v path :=
  resolve_not_lnk h.2.2

theorem real_mem (h : resolve s.file path ∈ s.entry) : real s.file path ∈ s.entry := by
  by_cases hl : (s.file (real s.file path)).isLnk = true
  · exact mem_of_isLnk hl
  · rwa [resolve_not_lnk (by simpa using hl)] at h

theorem step_same (h : CountedAt t i) (hk : i ∈ t'.fs.entry ↔ i ∈ t.fs.entry)
    (hl : (t'.fs.file i).metadata.stNlink = (t.fs.file i).metadata.stNlink)
    (hn : i ∈ t.fs.entry → namings (names i) t'.fs = namings (names i) t.fs)
    (ho : t'.opens i = t.opens i) : CountedAt t' i ∧ ErasedRight t t' i := by
  have hheld : i ∈ t.fs.entry → holders t' i = holders t i := by
    intro hi
    rw [holders, hn hi, ho, holders]
  refine ⟨⟨?_,?_⟩,?_⟩
  · intro hi
    rw [hk] at hi
    rw [hl, hheld hi]
    exact h.1 hi
  · intro hi
    rw [hk] at hi
    rw [ho]
    exact h.2 hi
  · intro hi
    have hsame := hheld hi
    exact iff_of_false (fun hno => hno (hk.mpr hi)) (by omega)

theorem step_gain (h : CountedAt t i) (hi : i ∈ t.fs.entry) (hi' : i ∈ t'.fs.entry)
    (hl : (t'.fs.file i).metadata.stNlink = (t.fs.file i).metadata.stNlink+1)
    (hn : holders t' i = holders t i+1) : CountedAt t' i ∧ ErasedRight t t' i := by
  have hlink := h.1 hi
  refine ⟨⟨fun _ => by omega,fun hno => absurd hi' hno⟩,fun _ => ?_⟩
  exact iff_of_false (fun hno => hno hi') (by omega)

theorem step_release (h : CountedAt t i) (hi : i ∈ t.fs.entry)
    (hk : i ∈ t'.fs.entry ↔ ¬ LastLink t.fs.file i)
    (hl : ¬ LastLink t.fs.file i →
      (t'.fs.file i).metadata.stNlink = decrement (t.fs.file i).metadata.stNlink)
    (hn : holders t' i+1 ≤ holders t i)
    (hn' : ¬ LastLink t.fs.file i → holders t' i+1 = holders t i) :
    CountedAt t' i ∧ ErasedRight t t' i := by
  have hlink := h.1 hi
  have hlast : LastLink t.fs.file i ↔ holders t i = 1 := by rw [lastLink_iff, hlink]
  by_cases hone : holders t i = 1
  · have hgone : i ∉ t'.fs.entry := fun hc => hk.mp hc (hlast.mpr hone)
    have hzero : holders t' i = 0 := by omega
    refine ⟨⟨fun hc => absurd hc hgone,fun _ => ?_⟩,fun _ => ?_⟩
    · rw [holders] at hzero
      omega
    · exact iff_of_true hgone ⟨by omega,hzero⟩
  · have hmore : ¬ LastLink t.fs.file i := fun hc => hone (hlast.mp hc)
    have hstay := hk.mpr hmore
    have hheld := hn' hmore
    refine ⟨⟨fun _ => ?_,fun hno => absurd hstay hno⟩,fun _ => ?_⟩
    · rw [hl hmore, hlink, decrement, if_neg (by omega)]
      omega
    · exact iff_of_false (fun hno => hno hstay) (by omega)

theorem Childless.countP (h : Childless s fh) (h0 : i ≠ 0) (hi : i ∈ s.entry) :
    (s.file fh).dentries.countP (names i) = 0 := by
  rw [List.countP_eq_zero]
  intro d hd hn
  obtain ⟨hdots,rfl⟩ := names_iff.mp hn
  rcases h d hd with hc | hc | hc
  · exact hdots hc
  · exact h0 hc
  · exact hc hi

theorem openFile_step {flags : ℕ} (hc : CountedAt t i) (hk : Keeps (.openFile path flags) t) :
    CountedAt ((FileCall.openFile path flags).run env t) i ∧
      ErasedRight t ((FileCall.openFile path flags).run env t) i := by
  obtain ⟨hmem,hint⟩ := hk
  have hrun : (FileCall.openFile path flags).run env t =
      ⟨(t.fs.touch (real t.fs.file path)).modify (resolve t.fs.file path) (File.setStat incNlink),
        Function.update t.opens (resolve t.fs.file path)
          (t.opens (resolve t.fs.file path)+1)⟩ := by
    simp only [FileCall.run, myOpen_eq, hint]
  rw [hrun, Fs.touch_of_mem (real_mem hmem)]
  generalize resolve t.fs.file path = fh at hmem
  have hentries : entries (t.fs.modify fh (File.setStat incNlink)).file = entries t.fs.file := by
    rw [Fs.modify_file, put, entries_update]
    exact Function.update_eq_self fh (entries t.fs.file)
  have hkeys : i ∈ (t.fs.modify fh (File.setStat incNlink)).entry ↔ i ∈ t.fs.entry := by
    rw [Fs.modify, InsertingMap.mem_modify]
    exact or_iff_right_of_imp (fun he => he ▸ hmem)
  by_cases hi : i = fh
  · subst hi
    apply step_gain hc hmem (hkeys.mpr hmem)
    · rw [Fs.modify_file, put_self]
      rfl
    · simp only [holders, namings_congr hentries, Function.update_self]
      omega
  · apply step_same hc hkeys
    · rw [Fs.modify_file, put_of_ne _ _ hi]
    · exact fun _ => namings_congr hentries
    · exact Function.update_of_ne hi _ _

theorem close_step (hc : CountedAt t i) (ha : 0 < t.opens fh) (hk : Keeps (.close fh) t)
    (h0 : i ≠ 0) : CountedAt ((FileCall.close fh).run env t) i ∧
      ErasedRight t ((FileCall.close fh).run env t) i := by
  rcases h : myClose fh t.fs with ⟨r,s'⟩
  simp only [FileCall.run, h]
  by_cases hz : fh = 0
  · subst hz
    rw [myClose, if_pos rfl] at h
    obtain rfl := (Prod.mk.inj h).2
    exact step_same hc Iff.rfl rfl (fun _ => rfl) (Function.update_of_ne h0 _ _)
  have hs' := (myClose_some hz h).2
  have hv : s'.file = dropLink t.fs.file fh := by
    rw [hs', dropLink]
    split_ifs
    · simp [put]
    · simp
  -- a handle that is outstanding is one of a file that is there
  have hmem : i = fh → i ∈ t.fs.entry := by
    rintro rfl
    by_contra hno
    have hnone := hc.2 hno
    omega
  have hkeys : i ∈ s'.entry ↔ i ∈ t.fs.entry ∧ ¬ (i = fh ∧ LastLink t.fs.file fh) := by
    have hmodify : i ∈ (t.fs.modify fh (File.setStat decNlink)).entry ↔ i ∈ t.fs.entry := by
      rw [Fs.modify, InsertingMap.mem_modify]
      exact or_iff_right_of_imp hmem
    rw [hs']
    split_ifs with hl
    · rw [Fs.erase, Finmap.mem_erase, hmodify, and_comm]
      simp [hl]
    · rw [hmodify]
      simp [hl]
  have hnum := namings_dropLink (p := names i) fh hv
  by_cases hi : i = fh
  · subst hi
    apply step_release hc (hmem rfl)
    · rw [hkeys]
      simp [hmem rfl]
    · intro hl
      rw [hv, dropLink, if_neg hl, put_self]
      rfl
    · simp only [holders, Function.update_self]
      omega
    · intro hl
      rw [if_neg hl] at hnum
      simp only [holders, Function.update_self]
      omega
  · apply step_same hc
    · simp [hkeys, hi]
    · rw [hv, dropLink_of_ne _ hi]
    · intro hmi
      split_ifs at hnum with hl
      · rw [(hk hl).countP h0 hmi] at hnum
        exact hnum
      · exact hnum
    · exact Function.update_of_ne hi _ _

theorem Plain.found (h : Plain v path) (hr : real v path ≠ 0) :
    (v (real v (parentPath path))).isDir = true ∧
      ∃ d, firstNamed (tail path) (v (real v (parentPath path))) = some d ∧
        d.dIno = real v path ∧ ¬ IsDots d.dName := by
  obtain ⟨hd,hname⟩ := real_found h.1 hr
  obtain ⟨d,hfirst,hi⟩ := firstNamed_of_nameIn hname hr
  exact ⟨hd,d,hfirst,hi,(firstNamed_mem hfirst).2 ▸ h.2.1⟩

theorem removal_step (hc : CountedAt t i) (hmem : fh ∈ t.fs.entry)
    (hkeys : i ∈ s'.entry ↔ i ∈ t.fs.entry ∧ ¬ (i = fh ∧ LastLink t.fs.file fh))
    (hother : i ≠ fh →
      (s'.file i).metadata.stNlink = (t.fs.file i).metadata.stNlink)
    (hself : ¬ LastLink t.fs.file fh →
      (s'.file fh).metadata.stNlink = decrement (t.fs.file fh).metadata.stNlink)
    (hnum : namings (names i) s'+(if fh = i then 1 else 0)+
      (if LastLink t.fs.file fh then (t.fs.file fh).dentries.countP (names i) else 0) =
        namings (names i) t.fs)
    (hown : LastLink t.fs.file fh → i ∈ t.fs.entry →
      (t.fs.file fh).dentries.countP (names i) = 0) :
    CountedAt ⟨s',t.opens⟩ i ∧ ErasedRight t ⟨s',t.opens⟩ i := by
  by_cases hi : i = fh
  · subst hi
    rw [if_pos rfl] at hnum
    apply step_release hc hmem
    · rw [hkeys]
      simp [hmem]
    · exact hself
    · simp only [holders]
      omega
    · intro hl
      rw [if_neg hl] at hnum
      simp only [holders]
      omega
  · rw [if_neg (Ne.symm hi)] at hnum
    apply step_same hc
    · rw [hkeys]
      simp [hi]
    · exact hother hi
    · intro hmi
      split_ifs at hnum with hl
      · rw [hown hl hmi] at hnum
        exact hnum
      · exact hnum
    · rfl

theorem countP_name {d : Dirent} (hi : d.dIno = fh) (hn : ¬ IsDots d.dName) :
    (some d).toList.countP (names i) = if fh = i then 1 else 0 := by
  rw [Option.toList_some, List.countP_singleton]
  simp only [names_iff, hn, not_false_eq_true, true_and, hi]

theorem idle_step (hc : CountedAt t i) (hv : s'.file = t.fs.file)
    (hk : i ∈ s'.entry ↔ i ∈ t.fs.entry) :
    CountedAt ⟨s',t.opens⟩ i ∧ ErasedRight t ⟨s',t.opens⟩ i := by
  apply step_same hc hk
  · rw [hv]
  · exact fun _ => namings_congr (congrArg entries hv)
  · rfl

theorem removal_touched {c : Call} (hp : Plain s.file path) (hmem : real s.file path ∈ s.entry)
    (ht : touches s.file c ⊆ [real s.file path,resolve s.file path,real s.file (parentPath path),
      resolve s.file (parentPath path)]) (h0 : real s.file path ≠ 0) :
    i ∈ touched s.file s.keys c ↔ i ∈ s.entry := by
  have hdir := (hp.found h0).1
  have hP := mem_of_isDir hdir
  constructor
  · rintro (hi | hi)
    · exact hi
    · have hlist := ht hi
      rw [hp.resolve, resolve_dir hdir] at hlist
      simp only [List.mem_cons, List.not_mem_nil, or_false] at hlist
      rcases hlist with rfl | rfl | rfl | rfl
      · exact hmem
      · exact hmem
      · exact hP
      · exact hP
  · exact Or.inl

theorem unlink_step (hc : CountedAt t i) (ha : (FileCall.unlink path).Admissible t)
    (hk : Keeps (.unlink path) t) (h0 : i ≠ 0) :
    CountedAt ((FileCall.unlink path).run env t) i ∧
      ErasedRight t ((FileCall.unlink path).run env t) i := by
  obtain ⟨hp,hreg⟩ := ha
  rcases h : myUnlink path t.fs with ⟨r,s'⟩
  simp only [FileCall.run, h]
  have hmem := mem_of_isReg hreg
  rcases (myUnlink_did h).1.unlink with ⟨hstop,hv,hkeys⟩ | ⟨hgo,hv,hkeys⟩
  · have hz : resolve t.fs.file path = 0 := by
      by_contra hne
      exact hstop ⟨hne,hp.2.1⟩
    apply idle_step hc hv
    refine (hkeys i h0).symm.trans (or_iff_left ?_)
    simp [touches, hz, hp.resolve ▸ hz, h0]
  have hr : real t.fs.file path ≠ 0 := hp.resolve ▸ hgo.1
  obtain ⟨hdir,d,hfirst,hd,hplain⟩ := hp.found hr
  have hne : real t.fs.file path ≠ real t.fs.file (parentPath path) := by
    intro he
    rw [← he, isDir_of_isReg hreg] at hdir
    exact Bool.false_ne_true hdir
  rw [hp.resolve, resolve_dir hdir] at hv
  rw [hp.resolve] at hkeys
  have hnum := namings_unlinked (p := names i) (mem_of_isDir hdir) hmem hne hv
  rw [hfirst, countP_name hd hplain] at hnum
  apply removal_step hc hmem _ _ _ hnum _
  · have htouched := removal_touched (i := i) (c := .unlink path) hp hmem
      (by simp only [touches]; split_ifs <;> simp) hr
    rw [← htouched]
    exact (hkeys i h0).symm
  · intro hi
    rw [hv, unlinkView, dropLink_of_ne _ hi, (Edit.dropNamed _).put_metadata]
  · intro hl
    rw [hv, unlinkView_eq, if_neg hl, put_self, put_of_ne _ _ hne]
    rfl
  · exact fun hl => (hk hl).countP h0

theorem rmdir_step (hc : CountedAt t i) (ha : (FileCall.rmdir path).Admissible t)
    (hk : Keeps (.rmdir path) t) (h0 : i ≠ 0) :
    CountedAt ((FileCall.rmdir path).run env t) i ∧
      ErasedRight t ((FileCall.rmdir path).run env t) i := by
  obtain ⟨hp,hdir,hr,-,hdots⟩ := ha
  rcases h : myRmdir path t.fs with ⟨r,s'⟩
  simp only [FileCall.run, h]
  have hmem := mem_of_isDir hdir
  have htouched := removal_touched (i := i) (c := .rmdir path) hp hmem
    (by simp only [touches]; split_ifs <;> simp) hr
  rcases (myRmdir_did h).1.rmdir with ⟨-,hv,hkeys⟩ | ⟨hgo,hv,hkeys⟩
  · apply idle_step hc hv
    rw [← htouched]
    exact (hkeys i h0).symm
  obtain ⟨hlast,herases⟩ := hk hgo
  obtain ⟨hP,d,hfirst,hd,hplain⟩ := hp.found hr
  have hne : real t.fs.file path ≠ real t.fs.file (parentPath path) := by
    intro he
    rw [← he] at hfirst
    exact hplain (hdots d (firstNamed_mem hfirst).1)
  rw [hp.resolve, resolve_dir hP] at hv
  rw [hp.resolve] at hkeys
  -- the entry found by number is a name as well
  obtain ⟨e,hfind,he,heplain⟩ : ∃ e, (t.fs.file (real t.fs.file (parentPath path))).dentries.find?
      (fun d => d.dIno == real t.fs.file path) = some e ∧ e.dIno = real t.fs.file path ∧
        ¬ IsDots e.dName := by
    have hsome : ((t.fs.file (real t.fs.file (parentPath path))).dentries.find?
        (fun d => d.dIno == real t.fs.file path)).isSome = true :=
      List.find?_isSome.mpr ⟨d,(firstNamed_mem hfirst).1,by simp [hd]⟩
    obtain ⟨e,hfind⟩ := Option.isSome_iff_exists.mp hsome
    have hino := List.find?_some hfind
    rw [ErasesPlain, hfind] at herases
    exact ⟨e,hfind,by simpa using hino,by simpa using herases⟩
  have hnum := namings_removed (p := names i) (mem_of_isDir hP) hmem hne hv
  rw [hfind, countP_name he heplain] at hnum
  apply removal_step hc hmem _ _ _ hnum _
  · rw [← htouched]
    exact (hkeys i h0).symm
  · intro hi
    rw [hv, rmdirView, if_pos hlast, Function.update_of_ne hi, (Edit.dropIno _).put_metadata]
  · exact fun hl => absurd hlast hl
  · intro _ _
    rw [List.countP_eq_zero]
    intro d hd hn
    exact (names_iff.mp hn).1 (hdots d hd)

theorem track_step {c : FileCall} (hc : CountedAt t i) (h0 : i ≠ 0) (hk : Keeps c t)
    (hs : track env c t = some t') : CountedAt t' i ∧ ErasedRight t t' i := by
  rw [track] at hs
  split_ifs at hs with ha
  rw [← Option.some.inj hs]
  cases c with
  | openFile path flags => exact openFile_step hc hk
  | close fh => exact close_step hc ha hk h0
  | unlink path => exact unlink_step hc ha hk h0
  | rmdir path => exact rmdir_step hc ha hk h0

theorem track_admissible {c : FileCall} (h : c.Admissible t) :
    track env c t = some (c.run env t) :=
  if_pos h

def closedFiles (s : Fs) : Tracked := ⟨s,fun _ => 0⟩

end Bbfs.OpenFiles
