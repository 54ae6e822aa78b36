import Bbfs.Numbers

/-!
# What a failed call leaves behind

A call that returns `an_err` may have taken an inode number, and may have
inserted the handles it looked at. Nothing else can differ outside the
sentinel, so it is known exactly when the table stays as it was.
-/

set_option autoImplicit false

namespace Bbfs.Failure
open Bbfs.InsertingMap Bbfs.Strings Bbfs.Files Bbfs.Resolve Bbfs.Calls Bbfs.Session
open Bbfs.Walks Bbfs.Effects Bbfs.Outcomes Bbfs.Numbers

variable {s s' : Fs} {c : Call} {r : ℤ}

def changes : Call → Bool
  | .mknod .. | .mkdir .. | .creat .. | .link .. | .symlink .. | .unlink .. | .rmdir ..
  | .chmod .. | .truncate .. | .pwrite .. => true
  | _ => false

/-- The two tables agree at every key but the sentinel. -/
def SameTable (s s' : Fs) : Prop := ∀ k, k ≠ 0 → s'.entry.lookup k = s.entry.lookup k

def Rewrites (v : View) : Call → Prop
  | .pwrite fh buf size offset => fh ≠ 0 → (v fh).isReg = true →
    overwrite (v fh).data (cstr buf) size offset = some (v fh).data ∧
      (v fh).metadata.stSize = (cstr buf).length
  | _ => True

/-- The call takes no number, every handle it looks at is 0 or a key, and it
writes nothing new. -/
def LeavesTable (s : Fs) (c : Call) : Prop :=
  ¬ Takes s.file c ∧ (∀ k ∈ touches s.file c, k = 0 ∨ k ∈ s.entry) ∧ Rewrites s.file c

theorem sameTable_iff : SameTable s s' ↔
    (∀ k, k ≠ 0 → (k ∈ s'.keys ↔ k ∈ s.keys)) ∧ ∀ k, k ≠ 0 → s'.file k = s.file k := by
  constructor
  · intro h
    exact ⟨fun k hk => (lookup_eq_iff.mp (h k hk)).1,fun k hk => (lookup_eq_iff.mp (h k hk)).2⟩
  · intro ⟨hk,hf⟩ k h0
    exact lookup_eq_iff.mpr ⟨hk k h0,hf k h0⟩

theorem touched_iff (h : SameKeys (touched s.file s.keys c) s'.keys) :
    (∀ k, k ≠ 0 → (k ∈ s'.keys ↔ k ∈ s.keys)) ↔
      ∀ k ∈ touches s.file c, k = 0 ∨ k ∈ s.entry := by
  constructor
  · intro hk k ht
    by_cases h0 : k = 0
    · exact Or.inl h0
    · exact Or.inr ((hk k h0).mp ((h k h0).mp (Or.inr ht)))
  · intro ht k h0
    rw [← h k h0]
    constructor
    · intro hmem
      rcases hmem with hmem | hmem
      · exact hmem
      · exact (ht k hmem).resolve_left h0
    · exact Or.inl

theorem not_sameTable_of_new {f : File} (hs : Settled s) (hf : s'.file s.count = f)
    (hi : f.metadata.stIno = s.count) : ¬ SameTable s s' := by
  intro h
  have hne := hs.fresh.ne_zero
  have hold := (sameTable_iff.mp h).2 s.count hne
  rw [hf] at hold
  rcases hs.numbered s.count with h0 | ⟨-,hlt⟩
  · rw [← hold, hi] at h0
    exact hne h0
  · omega

theorem stored_eq_iff (data str : Str) (f : File) :
    stored data str f = f ↔ data = f.data ∧ f.metadata.stSize = str.length := by
  obtain ⟨⟨dev,ino,mode,nlink,uid,gid,rdev,size,blksize,blocks,atime,mtime,ctime⟩,d,es,x⟩ := f
  simp only [stored, File.mk.injEq, Stat.mk.injEq, and_true, true_and]
  exact ⟨fun h => ⟨h.2,h.1.symm⟩,fun h => ⟨h.2.symm,h.1⟩⟩

theorem pwrite_leaves {fh : ℕ} {buf : Str} {size : ℕ} {offset : ℤ}
    (h : myPwrite fh buf size offset s = some (r,s')) :
    SameTable s s' ↔ LeavesTable s (.pwrite fh buf size offset) := by
  have hl : LeavesTable s (.pwrite fh buf size offset) ↔
      (fh = 0 ∨ fh ∈ s.entry) ∧ (fh ≠ 0 → (s.file fh).isReg = true →
        overwrite (s.file fh).data (cstr buf) size offset = some (s.file fh).data ∧
          (s.file fh).metadata.stSize = (cstr buf).length) := by
    simp [LeavesTable, Takes, touches, Rewrites]
  rw [hl, sameTable_iff]
  rcases myPwrite_some h with ⟨hbad,-,rfl⟩ | ⟨hne,hreg,-,data,ho,rfl⟩
  · constructor
    · rintro ⟨hk,-⟩
      refine ⟨?_,fun hne hreg => ?_⟩
      · by_cases h0 : fh = 0
        · exact Or.inl h0
        · exact Or.inr ((hk fh h0).mp (by simp))
      · rcases hbad with hbad | hbad
        · exact absurd hbad hne
        · simp [hreg] at hbad
    · rintro ⟨hmem,-⟩
      refine ⟨fun k h0 => ?_,fun k _ => by simp⟩
      rw [Fs.touch_keys, Set.mem_insert_iff]
      constructor
      · rintro (rfl | hk)
        · exact hmem.resolve_left h0
        · exact hk
      · exact Or.inr
  · have hmem := mem_of_isReg hreg
    constructor
    · rintro ⟨-,hf⟩
      refine ⟨Or.inr hmem,fun _ _ => ?_⟩
      have hsame := hf fh hne
      rw [Fs.modify_file, Fs.touch_file, put_self, stored_eq_iff] at hsame
      rw [ho, hsame.1]
      exact ⟨rfl,hsame.2⟩
    · rintro ⟨-,hw⟩
      obtain ⟨hd,hsize⟩ := hw hne hreg
      have hdata : data = (s.file fh).data := Option.some.inj (ho.symm.trans hd)
      refine ⟨fun k h0 => ?_,fun k _ => ?_⟩
      · have hk : fh ∈ s.keys := hmem
        simp [hk]
      · rw [Fs.modify_file, Fs.touch_file, put, (stored_eq_iff _ _ _).mpr ⟨hdata,hsize⟩,
          Function.update_eq_self]

/-- In a reachable state, a failed call leaves the table as it was exactly when
it took no inode number, looked only at handles that are 0 or in the table,
and wrote nothing new. -/
theorem failed_leaves_iff {env env' : Env} (h : Sessions env anyCall s) (hc : changes c = true)
    (ha : answer env' c s = some (anErr,s')) : SameTable s s' ↔ LeavesTable s c := by
  have hs := sessions_settled h
  by_cases hw : ∃ fh buf size offset, c = .pwrite fh buf size offset
  · obtain ⟨fh,buf,size,offset,rfl⟩ := hw
    exact pwrite_leaves ha
  have hrw : Rewrites s.file c := by
    unfold Rewrites
    split
    · exact absurd ⟨_,_,_,_,rfl⟩ hw
    · trivial
  obtain ⟨he,-⟩ := did_of_answer hs ha
  have hok : ok ≠ anErr := by decide
  generalize hr : anErr = r at he
  generalize hv : s'.file = w at he
  generalize hK : s'.keys = K' at he
  generalize hn : s'.count = n' at he
  cases he with
  | idle stopped unspent keys =>
    rw [← hK] at keys
    rw [sameTable_iff, touched_iff keys, hv]
    exact ⟨fun hk => ⟨unspent,hk.1,hrw⟩,fun hl => ⟨hl.2.1,fun _ _ => rfl⟩⟩
  | leaked f create spent stopped new =>
    have hf : s'.file s.count = f := by rw [hv, Function.update_self]
    exact iff_of_false (not_sameTable_of_new hs hf new.ino) (fun hl => hl.1 spent)
  | entered path f create spent go new =>
    have hP := hs.fresh.resolve_ne (parentPath path)
    have hf : s'.file s.count = f := by
      rw [hv, enterView, put_of_ne _ _ hP.symm, Function.update_self]
    exact iff_of_false (not_sameTable_of_new hs hf new.ino) (fun hl => hl.1 spent)
  | linked => exact absurd hr.symm hok
  | unlinked => exact absurd hr.symm hok
  | removed => exact absurd hr.symm hok
  | renamed => exact absurd hr.symm hok
  | retyped => exact absurd hr.symm hok
  | opened => simp [changes] at hc
  | closed => exact absurd hr.symm hok
  | written fh buf size offset => exact absurd ⟨fh,buf,size,offset,rfl⟩ hw
  | patched => exact absurd hr.symm hok

theorem failed_leaves_unlink : SameTable (after [.mkdir ['/','d'] 0o755#32])
    (after [.mkdir ['/','d'] 0o755#32,.unlink ['/','x']]) := by
  have ha : answer plainEnv (.unlink ['/','x']) (after [.mkdir ['/','d'] 0o755#32]) =
      some (anErr,after ([.mkdir ['/','d'] 0o755#32]++[.unlink ['/','x']])) :=
    answer_after (by decide) (by decide)
  exact (failed_leaves_iff (after_session (by decide) (by decide)) rfl ha).mpr
    ⟨id,by decide,trivial⟩

/-- A failed `my_mkdir` leaves a file under the number it took. -/
theorem failed_mkdir_leaks : Sessions plainEnv anyCall (after []) ∧
    answer plainEnv (.mkdir ['/'] 0o755#32) (after []) =
      some (anErr,after [.mkdir ['/'] 0o755#32]) ∧
    ¬ SameTable (after []) (after [.mkdir ['/'] 0o755#32]) := by
  have ha : answer plainEnv (.mkdir ['/'] 0o755#32) (after []) =
      some (anErr,after ([]++[.mkdir ['/'] 0o755#32])) :=
    answer_after (by decide) (by decide)
  refine ⟨after_session (by decide) (by decide),ha,?_⟩
  intro h
  have hk := (sameTable_iff.mp h).1 3 (by decide)
  have hin : 3 ∈ (after [.mkdir ['/'] 0o755#32]).entry := by decide
  have hout : 3 ∉ (after []).entry := by decide
  exact hout (hk.mp hin)

end Bbfs.Failure
