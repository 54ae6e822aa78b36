import Bbfs.FreedCopy

/-!
# Reading a directory while it changes

`my_readdir` compares its index with the current number of entries for
equality only and moves it on every call, also at the end. The address it
returns lies in a destroyed copy, where its caller reads what is left.
-/

set_option autoImplicit false

namespace Bbfs.ReadingDir
open Bbfs.Strings Bbfs.Files Bbfs.Resolve Bbfs.Calls Bbfs.Session Bbfs.Runs Bbfs.FreedCopy

/-- An open directory stream: the reads made on it, and whether one of them
has returned the null pointer with no entry added since. -/
structure Reading where
  fs : Fs
  dirp : MyDir
  reads : ℕ
  ended : Bool

def Reading.entries (r : Reading) : List Dirent := (r.fs.file r.dirp.fh).dentries

inductive Action where
  | read (heap : Heap)
  | call (l : Label)

/-- One read, or one call. An entry is added when the new entries are not
among the old ones in their order. -/
def act : Action → Reading → Option Reading
  | .read _, r =>
    match Resolve.myReaddir r.dirp r.fs with
    | (out, dirp, fs) => some ⟨fs,dirp,r.reads+1,r.ended || out == .null⟩
  | .call l, r =>
    (advance l r.fs).map (fun fs =>
      { r with fs := fs, ended := r.ended && (fs.file r.dirp.fh).dentries.isSublist r.entries })

def opened (dirp : MyDir) (fs : Fs) : Reading := ⟨fs,dirp,0,false⟩

/-- The read stays inside the vector, the entry read is the one at the index,
and at the end it is null again. -/
def SafeRead : Action → Reading → Prop
  | .read heap, r => ∀ m, heap.Leaves m →
    (FreedCopy.myReaddir (m r.reads) r.dirp r.fs).1 ≠ .outside ∧
      (∀ d, (FreedCopy.myReaddir (m r.reads) r.dirp r.fs).1 = .dirent d →
        r.entries[r.dirp.index]? = some d) ∧
      (r.ended = true → (FreedCopy.myReaddir (m r.reads) r.dirp r.fs).1 = .null)
  | .call _, _ => True

/-- No more reads have been made than the directory has entries now, and the
copy of a read that is not at the end stays as it is. -/
def WithinEntries : Action → Reading → Prop
  | .read heap, r => r.reads ≤ r.entries.length ∧
    (r.reads = r.entries.length ∨ heap = .untouched)
  | .call _, _ => True

instance (a : Action) (r : Reading) : Decidable (WithinEntries a r) := by
  cases a <;> unfold WithinEntries <;> infer_instance

variable (left : ℕ → Dirent → Dirent) (dirp : MyDir) (s : Fs)

theorem myReaddir_null : (FreedCopy.myReaddir left dirp s).1 = .null ↔
    dirp.index = (s.file dirp.fh).dentries.length := by
  simp only [FreedCopy.myReaddir, Fs.touch_file]
  by_cases he : dirp.index = (s.file dirp.fh).dentries.length
  · simp [he]
  · cases hg : (s.file dirp.fh).dentries[dirp.index]? with
    | none => simp [he]
    | some d => simp [he]

theorem myReaddir_outside : (FreedCopy.myReaddir left dirp s).1 = .outside ↔
    (s.file dirp.fh).dentries.length < dirp.index := by
  simp only [FreedCopy.myReaddir, Fs.touch_file]
  by_cases he : dirp.index = (s.file dirp.fh).dentries.length
  · simp [he]
  · by_cases hlt : dirp.index < (s.file dirp.fh).dentries.length
    · simp [he, List.getElem?_eq_getElem hlt]
      omega
    · have hnone : (s.file dirp.fh).dentries[dirp.index]? = none :=
        List.getElem?_eq_none (by omega)
      simp only [he, if_false, hnone, true_iff]
      omega

theorem myReaddir_dirent (d : Dirent) : (FreedCopy.myReaddir left dirp s).1 = .dirent d ↔
    ∃ e, (s.file dirp.fh).dentries[dirp.index]? = some e ∧ left dirp.index e = d := by
  simp only [FreedCopy.myReaddir, Fs.touch_file]
  by_cases he : dirp.index = (s.file dirp.fh).dentries.length
  · simp [he]
  · cases hg : (s.file dirp.fh).dentries[dirp.index]? with
    | none => simp [he]
    | some e => simp [he]

structure Tracks (r : Reading) : Prop where
  index : r.dirp.index = r.reads
  past : r.ended = true → r.entries.length < r.reads

theorem tracks_step (a : Action) (r r' : Reading) (h : Tracks r) (hm : act a r = some r') :
    Tracks r' := by
  cases a with
  | read heap =>
    obtain rfl := Option.some.inj hm
    have hfile : ((r.fs.touch r.dirp.fh).file r.dirp.fh).dentries = r.entries := by
      rw [Fs.touch_file]
      rfl
    constructor
    · exact congrArg (· + 1) h.index
    · intro hended
      show ((r.fs.touch r.dirp.fh).file r.dirp.fh).dentries.length < r.reads+1
      rw [hfile]
      rcases Bool.or_eq_true_iff.mp hended with hold | hnull
      · have hpast := h.past hold
        omega
      · have hend := (myReaddir_null (fun _ d => d) r.dirp r.fs).mp (beq_iff_eq.mp hnull)
        rw [h.index] at hend
        exact Nat.lt_succ_of_le hend.ge
  | call l =>
    obtain ⟨fs,-,rfl⟩ := Option.map_eq_some_iff.mp hm
    constructor
    · exact h.index
    · intro hended
      obtain ⟨hold,hsub⟩ := Bool.and_eq_true_iff.mp hended
      have hlen := (List.isSublist_iff_sublist.mp hsub).length_le
      have hpast := h.past hold
      show (fs.file r.dirp.fh).dentries.length < r.reads
      omega

theorem safeRead_iff (a : Action) (r : Reading) (h : Tracks r) :
    SafeRead a r ↔ WithinEntries a r := by
  cases a with
  | call l => rfl
  | read heap =>
    have hentries : (r.fs.file r.dirp.fh).dentries = r.entries := rfl
    simp only [SafeRead, WithinEntries, ne_eq, myReaddir_outside, myReaddir_dirent,
      myReaddir_null, h.index, not_lt, hentries]
    constructor
    · intro hsafe
      have hle := (hsafe intact heap.leaves_intact).1
      refine ⟨hle,?_⟩
      by_contra hnot
      obtain ⟨hne,hheap⟩ := not_or.mp hnot
      have hlt : r.reads < r.entries.length := by omega
      -- A copy that is gone may read as an entry of another name.
      have hlost := (hsafe (fun _ _ d => ⟨'x'::d.dName,d.dIno⟩) ?_).2.1 _
        ⟨_,List.getElem?_eq_getElem hlt,rfl⟩
      · rw [List.getElem?_eq_getElem hlt] at hlost
        have hname := congrArg (List.length ∘ Dirent.dName) (Option.some.inj hlost)
        simp at hname
      · cases heap with
        | untouched => exact absurd rfl hheap
        | reused => trivial
    · rintro ⟨hle,hcopy⟩ m hm
      refine ⟨hle,?_,?_⟩
      · rintro d ⟨e,he,rfl⟩
        have hlt := (List.getElem?_eq_some_iff.mp he).1
        have hheap := hcopy.resolve_left (by omega)
        subst hheap
        rw [show m = intact from hm, he]
        rfl
      · intro hended
        have hpast := h.past hended
        exact absurd hle (by omega)

/-- Along every interleaving, all reads are safe exactly if none is made when
the reads before it outnumber the entries left, and every entry read is still
there. -/
theorem reading_safe_iff {fh : ℕ} {s fs : Fs} {dirp : MyDir} (h : fopendir fh s = (some dirp,fs))
    (acts : List Action) :
    Meets act SafeRead acts (opened dirp fs) ↔ Meets act WithinEntries acts (opened dirp fs) := by
  have hindex : dirp.index = 0 := by
    simp only [fopendir] at h
    split_ifs at h
    · cases h
    · cases h
      rfl
  have hstart : Tracks (opened dirp fs) := ⟨hindex,fun hended => absurd hended Bool.false_ne_true⟩
  exact meets_congr tracks_step safeRead_iff acts hstart

def rootStream : Reading := opened ⟨2,0⟩ (fopendir 2 (initialized plainEnv)).2

theorem rootStream_opened : fopendir 2 (initialized plainEnv) = (some ⟨2,0⟩,rootStream.fs) :=
  Prod.ext (by decide +kernel) rfl

theorem reading_safe_root :
    Meets act SafeRead [.read .untouched,.read .untouched,.read .reused] rootStream :=
  (reading_safe_iff rootStream_opened _).mpr (by decide +kernel)

/-- The read after the null pointer is outside. -/
theorem reading_safe_fails :
    ¬ ∀ (env : Env) (s fs : Fs) (fh : ℕ) (dirp : MyDir) (acts : List Action),
      Sessions env anyCall s → fopendir fh s = (some dirp,fs) →
      Meets act SafeRead acts (opened dirp fs) := by
  intro hall
  have hmeets := hall plainEnv (initialized plainEnv) rootStream.fs 2 ⟨2,0⟩
    [.read .untouched,.read .untouched,.read .untouched,.read .untouched] Reaches.start
    rootStream_opened
  have hfourth := hmeets.2.2.2.1 intact rfl
  exact hfourth.1 (by decide +kernel)

/-- A first entry whose copy is used again need not be the dot. -/
example : ¬ Meets act SafeRead [.read .reused] rootStream := by
  intro hmeets
  have hfirst := hmeets.1 firstLost trivial
  exact absurd (hfirst.2.1 ⟨[],0⟩ (by decide +kernel)) (by decide +kernel)

end Bbfs.ReadingDir
