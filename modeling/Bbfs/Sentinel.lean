import Bbfs.Composing
import Bbfs.Contents

/-!
# The handle 0

Failed lookups give the handle 0, and some calls use it. Whatever entries and
links the file there picks up, it never gets a type, data or attributes.
`find_ino` also has the error value -1, for a link it cannot read.
-/

set_option autoImplicit false

namespace Bbfs.Sentinel
open Bbfs.Strings Bbfs.Files Bbfs.Resolve Bbfs.Calls Bbfs.Session Bbfs.Walks Bbfs.Effects
open Bbfs.Outcomes Bbfs.Numbers Bbfs.Runs Bbfs.Renaming Bbfs.Composing Bbfs.Contents

variable {v w : View} {s s' : Fs} {n n' : ℕ}

structure Vacant (f : File) : Prop where
  mode : f.metadata.stMode = 0
  data : f.data = []
  xattr : f.xattr = ∅

theorem vacant_default : Vacant default := ⟨rfl,rfl,rfl⟩

theorem Vacant.untyped {f : File} (h : Vacant f) :
    f.isDir = false ∧ f.isReg = false ∧ f.isLnk = false := by
  apply Effects.untyped
  rw [h.mode]
  decide

theorem vacant_put {k : ℕ} {g : File → File} (h : Vacant (v 0))
    (hg : k ≠ 0 ∨ ∀ f, Vacant f → Vacant (g f)) : Vacant (put v k g 0) := by
  by_cases hk : 0 = k
  · subst hk
    rw [put_self]
    exact hg.resolve_left (fun hne => hne rfl) (v 0) h
  · rw [put_of_ne _ _ hk]
    exact h

theorem vacant_clear (h : Vacant (v 0)) (k : ℕ) : Vacant (Function.update v k default 0) := by
  by_cases hk : 0 = k
  · subst hk
    rw [Function.update_self]
    exact vacant_default
  · rw [Function.update_of_ne hk]
    exact h

theorem vacant_push (h : Vacant (v 0)) (k : ℕ) (d : Dirent) :
    Vacant (put v k (File.push d) 0) :=
  vacant_put h (Or.inr (fun _ hf => ⟨hf.mode,hf.data,hf.xattr⟩))

theorem vacant_dropNamed (h : Vacant (v 0)) (k : ℕ) (name : Str) :
    Vacant (put v k (File.dropNamed name) 0) :=
  vacant_put h (Or.inr (fun _ hf => ⟨hf.mode,hf.data,hf.xattr⟩))

theorem vacant_dropLink (h : Vacant (v 0)) (fh : ℕ) : Vacant (dropLink v fh 0) := by
  unfold dropLink
  split_ifs
  · exact vacant_clear h fh
  · exact vacant_put h (Or.inr (fun _ hf => ⟨hf.mode,hf.data,hf.xattr⟩))

theorem vacant_fresh (h : Vacant (v 0)) (hn : n ≠ 0) (f : File) :
    Vacant (Function.update v n f 0) := by
  rw [Function.update_of_ne hn.symm]
  exact h

theorem vacant_effect {K K' : Set ℕ} {c : Call} {r : ℤ} (h : Vacant (v 0)) (hn : n ≠ 0)
    (he : Effect v K n c r w K' n') : Vacant (w 0) := by
  cases he with
  | idle => exact h
  | leaked f => exact vacant_fresh h hn f
  | entered path f => exact vacant_push (vacant_fresh h hn f) _ _
  | linked path newpath =>
    have hinc : Vacant (put v (resolve v path) (File.setStat incNlink) 0) :=
      vacant_put h (Or.inr (fun _ hf => ⟨hf.mode,hf.data,hf.xattr⟩))
    exact vacant_push hinc _ _
  | unlinked path => exact vacant_dropLink (vacant_dropNamed h _ _) _
  | removed path =>
    have hdrop : Vacant (put v (resolve v (parentPath path)) (File.dropIno (resolve v path)) 0) :=
      vacant_put h (Or.inr (fun _ hf => ⟨hf.mode,hf.data,hf.xattr⟩))
    unfold rmdirView
    split_ifs
    · exact vacant_clear hdrop _
    · exact hdrop
  | renamed path newpath =>
    have hclear : Vacant (clearView v (resolve v (parentPath path))
        (resolve v (parentPath newpath)) (tail path) (tail newpath) 0) := by
      unfold clearView
      split_ifs
      · exact vacant_dropNamed (vacant_dropNamed h _ _) _ _
      · exact vacant_dropNamed h _ _
    exact vacant_push hclear _ _
  | retyped path mode source => exact vacant_put h (Or.inl source)
  | opened path flags => exact vacant_put h (Or.inr (fun _ hf => ⟨hf.mode,hf.data,hf.xattr⟩))
  | closed fh => exact vacant_dropLink h fh
  | written fh buf size offset data source => exact vacant_put h (Or.inl source)
  | patched k g keeps other source => exact vacant_put h (Or.inl source)

def NoError (v : View) : Prop := ∀ k, ∀ d ∈ (v k).dentries, d.dIno ≠ errIno

theorem noError_put {k : ℕ} {g : File → File} (h : NoError v)
    (hg : ∀ d ∈ (g (v k)).dentries, d ∈ (v k).dentries ∨ d.dIno ≠ errIno) :
    NoError (put v k g) := by
  intro i d hd
  by_cases hi : i = k
  · subst hi
    rw [put_self] at hd
    exact (hg d hd).elim (h i d) id
  · rw [put_of_ne _ _ hi] at hd
    exact h i d hd

theorem noError_shrink {k : ℕ} {g : File → File} (h : NoError v)
    (hg : (g (v k)).dentries ⊆ (v k).dentries) : NoError (put v k g) :=
  noError_put h (fun _ hd => Or.inl (hg hd))

theorem noError_push {k i : ℕ} {name : Str} (h : NoError v) (hi : i ≠ errIno) :
    NoError (put v k (File.push ⟨name,i⟩)) := by
  apply noError_put h
  intro d hd
  rw [File.push_dentries, List.mem_append, List.mem_singleton] at hd
  rcases hd with hd | rfl
  · exact Or.inl hd
  · exact Or.inr hi

theorem noError_update {k : ℕ} {f : File} (h : NoError v)
    (hf : ∀ d ∈ f.dentries, d.dIno ≠ errIno) : NoError (Function.update v k f) := by
  intro i d hd
  by_cases hi : i = k
  · subst hi
    rw [Function.update_self] at hd
    exact hf d hd
  · rw [Function.update_of_ne hi] at hd
    exact h i d hd

theorem noError_clear (h : NoError v) (k : ℕ) : NoError (Function.update v k default) :=
  noError_update h (fun _ hd => absurd hd List.not_mem_nil)

theorem noError_dropLink (h : NoError v) (fh : ℕ) : NoError (dropLink v fh) := by
  unfold dropLink
  split_ifs
  · exact noError_clear h fh
  · exact noError_shrink h (List.Subset.refl _)

theorem noError_effect {K K' : Set ℕ} {c : Call} {r : ℤ} (h : NoError v) (hn : n ≠ errIno)
    (hres : ∀ p, resolve v p ≠ errIno) (he : Effect v K n c r w K' n') : NoError w := by
  have hdrop : ∀ u k name, NoError u → NoError (put u k (File.dropNamed name)) :=
    fun u k name hu => noError_shrink hu List.eraseP_subset
  cases he with
  | idle => exact h
  | leaked f create spent stopped new empty =>
    exact noError_update h (fun d hd => absurd hd (by rw [empty]; exact List.not_mem_nil))
  | entered path f create spent go new dots =>
    apply noError_push _ hn
    apply noError_update h
    intro d hd
    rw [dots, dotEntries] at hd
    split_ifs at hd
    · rcases List.mem_cons.mp hd with rfl | hd
      · exact hn
      · rw [List.mem_singleton] at hd
        subst hd
        exact hres _
    · exact absurd hd List.not_mem_nil
  | linked path newpath => exact noError_push (noError_shrink h (List.Subset.refl _)) (hres path)
  | unlinked path => exact noError_dropLink (hdrop _ _ _ h) _
  | removed path =>
    have hino : NoError (put v (resolve v (parentPath path)) (File.dropIno (resolve v path))) :=
      noError_shrink h List.eraseP_subset
    unfold rmdirView
    split_ifs
    · exact noError_clear hino _
    · exact hino
  | renamed path newpath =>
    have hclear : NoError (clearView v (resolve v (parentPath path))
        (resolve v (parentPath newpath)) (tail path) (tail newpath)) := by
      unfold clearView
      split_ifs
      · exact hdrop _ _ _ (hdrop _ _ _ h)
      · exact hdrop _ _ _ h
    exact noError_push hclear (hres path)
  | retyped path mode => exact noError_shrink h (List.Subset.refl _)
  | opened path flags => exact noError_shrink h (List.Subset.refl _)
  | closed fh => exact noError_dropLink h fh
  | written fh buf size offset data => exact noError_shrink h (List.Subset.refl _)
  | patched k g keeps =>
    apply noError_shrink h
    rw [keeps.dentries]
    exact List.Subset.refl _

variable {env : Env}

/-- The handle 0 is vacant, no path goes on from it, and `find_ino` gives no
error value. -/
structure SentinelHeld (s : Fs) : Prop where
  vacant : Vacant (s.file 0)
  ends : ∀ p q, (findRealIno p s).1 = 0 → (findRealIno (p++ '/'::q) s).1 = 0
  handle : ∀ p, (findIno p s).1 ≠ errIno

/-- The text of every link that a path leads to has a length that is not
negative as an `int`. -/
def Readable (s : Fs) : Prop :=
  ∀ p, (s.file (real s.file p)).isLnk = true → 0 ≤ toInt32 (s.file (real s.file p)).data.length

structure Quiet (s : Fs) : Prop where
  settled : Settled s
  vacant : Vacant (s.file 0)
  noError : NoError s.file

theorem initialized_quiet (env : Env) : Quiet (initialized env) := by
  obtain ⟨-,-,-,hv⟩ := initialized_eq env
  refine ⟨initialized_settled env,?_,?_⟩
  · rw [hv, rootView_other env (by decide)]
    exact vacant_default
  · intro k d hd
    have hlt := (rootView_numbers env).bounded k d (hv ▸ hd)
    by_cases hk : k = 2
    · rw [hv, hk, rootView_root] at hd
      have hi : d.dIno = 2 := by
        rcases List.mem_cons.mp hd with rfl | hd
        · rfl
        · rw [List.mem_singleton] at hd
          rw [hd]
      rw [hi]
      decide
    · rw [hv, rootView_other env hk] at hd
      exact absurd hd List.not_mem_nil

theorem real_ne_errIno (h : NoError v) (p : Str) : real v p ≠ errIno := by
  rcases real_origin (v := v) p with h0 | h2 | ⟨k,-,d,hd,hi⟩
  · rw [h0]
    decide
  · rw [h2]
    decide
  · rw [← hi]
    exact h k d hd

/-- With no error value stored, only an unreadable link gives one. -/
theorem resolve_errIno_iff (h : NoError v) (h0 : Vacant (v 0)) (p : Str) :
    resolve v p ≠ errIno ↔
      ((v (real v p)).isLnk = true → 0 ≤ toInt32 (v (real v p)).data.length) := by
  rw [resolve, follow]
  by_cases hl : (v (real v p)).isLnk = true
  · have hne : real v p ≠ 0 := by
      intro hz
      rw [hz, h0.untyped.2.2] at hl
      exact Bool.false_ne_true hl
    rw [if_pos hl, if_neg hne, linkText]
    split_ifs with hneg hshort
    · simp [hl, hneg]
    · simp [hl, not_lt.mp hneg, real_ne_errIno h]
    · simp [hl, not_lt.mp hneg, real_ne_errIno h]
  · simp [hl, real_ne_errIno h]

theorem sentinelHeld_iff (h : Quiet s) : SentinelHeld s ↔ Readable s := by
  have hiff : ∀ p, (findIno p s).1 ≠ errIno ↔
      ((s.file (real s.file p)).isLnk = true →
        0 ≤ toInt32 (s.file (real s.file p)).data.length) := by
    intro p
    rw [findIno_eq]
    exact resolve_errIno_iff h.noError h.vacant p
  constructor
  · intro hs p
    exact (hiff p).mp (hs.handle p)
  · intro hr
    refine ⟨h.vacant,?_,fun p => (hiff p).mpr (hr p)⟩
    intro p q hz
    simp only [findRealIno_eq] at hz ⊢
    rw [real_append h.vacant.untyped.1, hz, walk_zero h.vacant.untyped.1]

theorem quiet_step {l : Label} (h : Quiet s) (hs : SentinelHeld s)
    (hm : advance l s = some s') : Quiet s' := by
  obtain ⟨hset,r,-,he⟩ := advance_effect h.settled hm
  have hfresh := h.settled.fresh
  have hres : ∀ p, resolve s.file p ≠ errIno := by
    intro p
    have hp := hs.handle p
    rwa [findIno_eq] at hp
  have hvacant := vacant_effect h.vacant hfresh.ne_zero he
  exact ⟨hset,hvacant,noError_effect h.noError hfresh.ne_err hres he⟩

/-- Along every run, the sentinel holds in all states exactly if every link
that a path leads to stays readable in all of them. -/
theorem sentinel_held_iff (env : Env) (ls : List Label) :
    Holds advance SentinelHeld ls (initialized env) ↔ Holds advance Readable ls (initialized env) :=
  holds_congr (fun _ => sentinelHeld_iff) (fun _ _ _ => quiet_step) ls (initialized_quiet env)

theorem sessions_vacant {cond : Label → Fs → Prop} (h : Sessions env cond s) :
    Vacant (s.file 0) := by
  apply sessions_invariant h
  · exact (initialized_quiet env).vacant
  · intro l t t' r ht _ hv _ _ he
    exact vacant_effect hv ht.fresh.ne_zero he

def Call.handle : Call → Option ℕ
  | .fstat fh | .close fh | .pread fh _ _ | .pwrite fh _ _ _ | .fdatasync fh | .fsync fh
  | .ftruncate fh _ => some fh
  | _ => none

def pathCall (l : Label) (_ : Fs) : Prop := ∀ fh ∈ Call.handle l.2, fh = 0

instance (l : Label) (s : Fs) : Decidable (pathCall l s) :=
  inferInstanceAs (Decidable (∀ fh ∈ Call.handle l.2, fh = 0))

theorem truncated {p : Str} {m : ℕ} (h0 : real s.file p ≠ 0)
    (hreg : (s.file (real s.file p)).isReg = true) :
    (myTruncate p m s).2.count = s.count ∧
      (myTruncate p m s).2.file = put s.file (real s.file p) (cutTo m) := by
  have hresolve : resolve s.file p = real s.file p :=
    resolve_not_lnk ((type_exclusive _).2 hreg)
  constructor
  · simp only [myTruncate, myFtruncate]
    rw [findIno_eq]
    split_ifs <;> rfl
  · have hcall : myTruncate p m s = ((myTruncate p m s).1,(myTruncate p m s).2) := rfl
    rcases myTruncate_some hcall with ⟨hbad,-,-⟩ | ⟨-,-,-,-,hv⟩
    · rw [hresolve, isDir_of_isReg hreg] at hbad
      simp only [h0, Bool.false_eq_true, or_false] at hbad
      omega
    · rwa [hresolve] at hv

theorem relinked {p : Str} {mode : Mode} (h0 : real s.file p ≠ 0)
    (hreg : (s.file (real s.file p)).isReg = true) (hmode : S_ISLNK mode = true) :
    real (myChmod p mode s).2.file p = real s.file p ∧
      ((myChmod p mode s).2.file (real s.file p)).isLnk = true ∧
        ((myChmod p mode s).2.file (real s.file p)).data = (s.file (real s.file p)).data := by
  have hdir := isDir_of_isReg hreg
  have hview : (myChmod p mode s).2.file = put s.file (real s.file p) (chmodStat mode) := by
    simp only [myChmod, findIno_eq, resolve_not_lnk ((type_exclusive _).2 hreg), Fs.touch_file,
      if_neg h0]
    rw [Fs.modify_file, Fs.touch_file, Fs.touch_file]
    simp only [put, chmodStat]
  have hmade : chmodStat mode (s.file (real s.file p)) =
      (s.file (real s.file p)).setStat (fun st => { st with stMode := mode }) := by
    simp [chmodStat, hdir]
  have hlnk : (chmodStat mode (s.file (real s.file p))).isLnk = true := by
    rw [hmade]
    exact hmode
  rw [hview, put_self]
  refine ⟨?_,hlnk,by rw [hmade, File.setStat_data]⟩
  apply real_congr
  intro i
  by_cases hi : i = real s.file p
  · subst hi
    rw [put_self, isDir_of_isLnk hlnk, hdir, hmade]
    exact ⟨rfl,rfl⟩
  · rw [put_of_ne _ _ hi]
    exact ⟨rfl,rfl⟩

/-- A regular file cut to a length that is negative as an `int`, and then
turned into a link, cannot be read as one. -/
theorem long_link (s : Fs) (p : Str) (m : ℕ) (mode : Mode) (h0 : real s.file p ≠ 0)
    (hreg : (s.file (real s.file p)).isReg = true) (hmode : S_ISLNK mode = true)
    (hlen : toInt32 m < 0) :
    (myTruncate p m s).2.count = s.count ∧
      resolve (myChmod p mode (myTruncate p m s).2).2.file p = errIno := by
  obtain ⟨hcount,hfile⟩ := truncated (m := m) h0 hreg
  refine ⟨hcount,?_⟩
  generalize (myTruncate p m s).2 = t at hfile
  -- the cut file is found as before
  have hkeep : ∀ i, SameNames (s.file i) (t.file i) := by
    rw [hfile]
    exact (keeps_cutTo m).put s.file (real s.file p)
  have hreal : real t.file p = real s.file p :=
    real_congr (fun i => ⟨(hkeep i).isDir,(hkeep i).dentries⟩) p
  have htreg : (t.file (real t.file p)).isReg = true := by
    rw [hreal, hfile, put_self]
    exact hreg
  have hdata : (t.file (real t.file p)).data.length = m := by
    rw [hreal, hfile, put_self]
    exact length_resize m _
  -- so is the link, which has the new length
  obtain ⟨hreal',hlnk,hsame⟩ := relinked (hreal.symm ▸ h0) htreg hmode
  rw [resolve, hreal', follow, if_pos hlnk, if_neg (hreal.symm ▸ h0), linkText, hsame, hdata,
    if_pos hlen]
  rfl

def linkMode : Mode := S_IFLNK ||| 0o777#32

/-- Three calls that take paths. -/
theorem sentinel_held_fails :
    ¬ ∀ (env : Env) (s : Fs), Sessions env pathCall s → SentinelHeld s := by
  intro hall
  have hsession : Sessions plainEnv pathCall (after [.creat ['/','f'] 0o644#32]) :=
    after_session (by decide +kernel) (by decide +kernel)
  generalize hs : after [.creat ['/','f'] 0o644#32] = s at hsession
  obtain ⟨hcount,hbad⟩ := long_link s ['/','f'] (2^31) linkMode
    (by subst hs; decide +kernel) (by subst hs; decide +kernel) (by decide) (by decide)
  have hlow : s.count < 2^31 := by
    subst hs
    decide +kernel
  have hcut : Sessions plainEnv pathCall (myTruncate ['/','f'] (2^31:ℕ) s).2 := by
    apply Reaches.step (plainEnv,.truncate ['/','f'] (2^31:ℕ)) hsession
    · simp [pathCall, Call.handle]
    · rw [advance, if_pos hlow]
      rfl
  have hlink : Sessions plainEnv pathCall
      (myChmod ['/','f'] linkMode (myTruncate ['/','f'] (2^31:ℕ) s).2).2 := by
    apply Reaches.step (plainEnv,.chmod ['/','f'] linkMode) hcut
    · simp [pathCall, Call.handle]
    · rw [advance, if_pos (hcount ▸ hlow)]
      rfl
  apply (hall plainEnv _ hlink).handle ['/','f']
  rw [findIno_eq]
  exact hbad

end Bbfs.Sentinel
