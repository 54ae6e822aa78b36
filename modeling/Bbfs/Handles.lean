import Bbfs.Interleaving
import Bbfs.Session

/-!
# Calls through handles

The calls that take a handle work on the entry of that handle in the table,
present or absent, and on no other. So their interleaving does not matter: what
is done through each handle, in its own order, fixes every answer and the table
at the end. The entries read from a directory stream are not among the answers.
-/

set_option autoImplicit false

namespace Bbfs.Handles
open Bbfs.InsertingMap Bbfs.Interleaving Bbfs.Strings Bbfs.Files Bbfs.Resolve Bbfs.Calls
open Bbfs.Session

inductive Operation where
  | fstat
  | pread (size : ℕ) (offset : ℤ)
  | pwrite (buf : Str) (size : ℕ) (offset : ℤ)
  | ftruncate (offset : ℤ)
  | close
  | fdatasync
  | fsync
  | fopendir
  deriving DecidableEq

structure HandleCall where
  fh : ℕ
  op : Operation
  deriving DecidableEq

def HandleCall.party (c : HandleCall) : ℕ := c.fh

inductive Reply where
  | code (ret : ℤ)
  | stat (ret : ℤ) (statbuf : Option Stat)
  | buffer (out : ReadOut)
  | stream (dir : Option MyDir)
  deriving DecidableEq

def reply (c : HandleCall) (s : Fs) : Option (Reply × Fs) :=
  match c.op with
  | .fstat => some (.stat (myFstat c.fh s).1 (myFstat c.fh s).2,s)
  | .pread size offset =>
    match myPread c.fh size offset s with
    | (.threw, _) => none
    | (out, s) => some (.buffer out,s)
  | .pwrite buf size offset =>
    (myPwrite c.fh buf size offset s).map (fun out => (.code out.1,out.2))
  | .ftruncate offset => some (.code (myFtruncate c.fh offset s).1,(myFtruncate c.fh offset s).2)
  | .close => some (.code (myClose c.fh s).1,(myClose c.fh s).2)
  | .fdatasync => some (.code (myFdatasync c.fh),s)
  | .fsync => some (.code (myFsync c.fh),s)
  | .fopendir => some (.stream (Resolve.fopendir c.fh s).1,(Resolve.fopendir c.fh s).2)

def putEntry (k : ℕ) (o : Option File) (s : Fs) : Fs :=
  match o with
  | none => s.erase k
  | some f => { s with entry := s.entry.insert k f }

theorem putEntry_lookup (k l : ℕ) (o : Option File) (s : Fs) :
    (putEntry k o s).entry.lookup l = if l = k then o else s.entry.lookup l := by
  cases o with
  | none =>
    by_cases h : l = k
    · subst h
      simp [putEntry, Fs.erase]
    · simp [putEntry, Fs.erase, h, Finmap.lookup_erase_ne h]
  | some f =>
    by_cases h : l = k
    · subst h
      simp [putEntry]
    · simp [putEntry, h, Finmap.lookup_insert_of_ne _ h]

@[simp] theorem putEntry_lookup_self (k : ℕ) (o : Option File) (s : Fs) :
    (putEntry k o s).entry.lookup k = o := by
  rw [putEntry_lookup, if_pos rfl]

theorem fs_ext {s t : Fs} (hc : s.count = t.count) (hf : s.firstTime = t.firstTime)
    (he : ∀ k, s.entry.lookup k = t.entry.lookup k) : s = t := by
  obtain ⟨n,m,b⟩ := s
  obtain ⟨n',m',b'⟩ := t
  obtain rfl : m = m' := Finmap.ext_lookup he
  cases hc
  cases hf
  rfl

@[simp] theorem putEntry_count (k : ℕ) (o : Option File) (s : Fs) :
    (putEntry k o s).count = s.count := by
  cases o <;> rfl

@[simp] theorem putEntry_firstTime (k : ℕ) (o : Option File) (s : Fs) :
    (putEntry k o s).firstTime = s.firstTime := by
  cases o <;> rfl

def entries : Cells ℕ (Option File) Fs where
  get := fun k s => s.entry.lookup k
  put := putEntry
  get_put_ne := fun a s h => by rw [putEntry_lookup, if_neg h]
  put_comm := by
    intro k l a b s h
    apply fs_ext
    · simp
    · simp
    · intro i
      simp only [putEntry_lookup]
      by_cases hk : i = k
      · rw [if_pos hk, if_neg (fun hl => h (hk.symm.trans hl)), if_pos hk]
      · simp only [if_neg hk]

theorem putEntry_self (k : ℕ) (s : Fs) : putEntry k (s.entry.lookup k) s = s := by
  apply fs_ext
  · simp
  · simp
  · intro i
    rw [putEntry_lookup]
    split_ifs with h
    · rw [h]
    · rfl

theorem putEntry_putEntry (k : ℕ) (o o' : Option File) (s : Fs) :
    putEntry k o (putEntry k o' s) = putEntry k o s := by
  apply fs_ext
  · simp
  · simp
  · intro i
    simp only [putEntry_lookup]
    split_ifs <;> rfl

@[simp] theorem lookup_touch (k : ℕ) (s : Fs) :
    (s.touch k).entry.lookup k = some (s.file k) := by
  have hm : k ∈ (s.touch k).entry := mem_touch.mpr (Or.inl rfl)
  rw [lookup_of_mem hm]
  exact congrArg some (congrFun (Fs.touch_file s k) k)

@[simp] theorem lookup_modify (k : ℕ) (g : File → File) (s : Fs) :
    (s.modify k g).entry.lookup k = some (g (s.file k)) :=
  Finmap.lookup_insert _

@[simp] theorem lookup_erase (k : ℕ) (s : Fs) : (s.erase k).entry.lookup k = none :=
  Finmap.lookup_erase _ _

theorem touch_eq (k : ℕ) (s : Fs) : s.touch k = putEntry k (some (s.file k)) s := by
  apply fs_ext
  · simp
  · simp
  · intro i
    rw [putEntry_lookup]
    split_ifs with h
    · rw [h, lookup_touch]
    · apply lookup_eq_iff.mpr
      exact ⟨by simp [Fs.touch, h],congrFun (read_touch s.entry k) i⟩

theorem modify_eq (k : ℕ) (g : File → File) (s : Fs) :
    s.modify k g = putEntry k (some (g (s.file k))) s := rfl

theorem erase_eq (k : ℕ) (s : Fs) : s.erase k = putEntry k none s := rfl

def alone (k : ℕ) (o : Option File) : Fs := putEntry k o ⟨0,∅,false⟩

theorem alone_lookup (k : ℕ) (o : Option File) : (alone k o).entry.lookup k = o :=
  putEntry_lookup_self k o _

@[simp] theorem alone_file (k : ℕ) (s : Fs) : (alone k (s.entry.lookup k)).file k = s.file k := by
  rw [Fs.file, InsertingMap.read, alone_lookup]
  rfl

theorem mem_alone (k : ℕ) (s : Fs) : k ∈ (alone k (s.entry.lookup k)).entry ↔ k ∈ s.entry := by
  rw [← Finmap.lookup_isSome, ← Finmap.lookup_isSome, alone_lookup]

theorem touch_modify_eq (k : ℕ) (g : File → File) (s : Fs) :
    (s.touch k).modify k g = putEntry k (some (g (s.file k))) s := by
  rw [modify_eq, Fs.touch_file, touch_eq, putEntry_putEntry]

/-- A call through a handle does to a table what it does to the entry of the
handle alone. -/
theorem reply_alone (c : HandleCall) (s : Fs) :
    reply c s = (reply c (alone c.fh (s.entry.lookup c.fh))).map
      (fun o => (o.1,putEntry c.fh (o.2.entry.lookup c.fh) s)) := by
  obtain ⟨fh,op⟩ := c
  cases op with
  | fstat => simp [reply, myFstat, mem_alone, alone_lookup, putEntry_self]
  | pread size offset =>
    simp only [reply, myPread, Fs.touch_file, alone_file]
    split_ifs <;> simp [← touch_eq]
  | pwrite buf size offset =>
    simp only [reply, myPwrite, Fs.touch_file, alone_file]
    split_ifs
    · simp [← touch_eq]
    · simp [← touch_eq]
    · cases overwrite (s.file fh).data (cstr buf) size offset with
      | none => rfl
      | some data => simp [touch_modify_eq]
  | ftruncate offset =>
    simp only [reply, myFtruncate, Fs.touch_file, alone_file]
    split_ifs
    · simp [alone_lookup, putEntry_self]
    · simp [alone_lookup, putEntry_self]
    · simp [← touch_eq]
    · simp [touch_modify_eq]
  | close =>
    simp only [reply, myClose, Fs.modify_file, put_self, alone_file]
    split_ifs
    · simp [alone_lookup, putEntry_self]
    · simp [erase_eq, modify_eq, putEntry_putEntry]
    · simp [modify_eq]
  | fdatasync => simp [reply, alone_lookup, putEntry_self]
  | fsync => simp [reply, alone_lookup, putEntry_self]
  | fopendir =>
    simp only [reply, Resolve.fopendir, Fs.touch_file, alone_file]
    split_ifs <;> simp [← touch_eq]

theorem reply_local (c : HandleCall) : Local entries c.fh (reply c) := by
  refine ⟨fun o => (reply c (alone c.fh o)).map (fun x => (x.1,x.2.entry.lookup c.fh)),?_⟩
  intro s
  rw [Option.map_map]
  exact reply_alone c s

/-- Two sequences of calls in which every handle gets the same calls in the same
order leave the same table, and every handle gets the same replies. -/
theorem handles_interleave {cs ds : List HandleCall} (h : SameOrder HandleCall.party cs ds)
    (s : Fs) :
    (run reply cs s).map (seen HandleCall.party) = (run reply ds s).map (seen HandleCall.party) :=
  run_sameOrder (fun c d hne => (reply_local c).exchange (reply_local d) hne) h s

def bothFiles : Fs :=
  after [.creat ['/', 'a'] 0o600#32, .creat ['/', 'b'] 0o600#32]

def inTurns : List HandleCall :=
  [⟨3,.pwrite ['x', 'y'] 2 0⟩,⟨4,.pwrite ['z'] 1 0⟩,⟨3,.pread 2 1⟩,⟨4,.close⟩,⟨3,.fstat⟩]

def oneByOne : List HandleCall :=
  [⟨4,.pwrite ['z'] 1 0⟩,⟨4,.close⟩,⟨3,.pwrite ['x', 'y'] 2 0⟩,⟨3,.pread 2 1⟩,⟨3,.fstat⟩]

theorem inTurns_oneByOne : SameOrder HandleCall.party inTurns oneByOne := by
  intro k
  by_cases h3 : 3 = k
  · subst h3
    rfl
  · by_cases h4 : 4 = k
    · subst h4
      rfl
    · simp [inTurns, oneByOne, HandleCall.party, h3, h4]

theorem files_interleave : (run reply inTurns bothFiles).isSome = true ∧
    (run reply inTurns bothFiles).map (seen HandleCall.party) =
      (run reply oneByOne bothFiles).map (seen HandleCall.party) :=
  ⟨by decide +kernel,handles_interleave inTurns_oneByOne bothFiles⟩

end Bbfs.Handles
