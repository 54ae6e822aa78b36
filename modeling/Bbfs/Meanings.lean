import Bbfs.FreedCopy

/-!
# What a path means before and after a call

Creation only appends entries and adds a file that no path reached; calls that
are not about names leave the types of directories and all entries alone,
whatever keys they insert. So a path keeps its meaning as far as the entries
are read from copies that are still there. The calls themselves are taken with
intact copies.
-/

set_option autoImplicit false

namespace Bbfs.Meanings
open Bbfs.Strings Bbfs.Files Bbfs.Resolve Bbfs.Calls Bbfs.Session Bbfs.Walks Bbfs.Effects
open Bbfs.Outcomes Bbfs.Numbers Bbfs.Contents Bbfs.FreedCopy

variable {v w : View} {n : ℕ}

def creates : Call → Bool
  | .mknod .. | .mkdir .. | .creat .. | .link .. | .symlink .. => true
  | _ => false

/-- Away from `n` the files keep their types and contents, and entries are
only appended. -/
structure Extends (v w : View) (n : ℕ) : Prop where
  stMode : ∀ k, k ≠ n → (w k).metadata.stMode = (v k).metadata.stMode
  data : ∀ k, k ≠ n → (w k).data = (v k).data
  dentries : ∀ k, k ≠ n → (v k).dentries <+: (w k).dentries

theorem Extends.isDir (h : Extends v w n) {k : ℕ} (hk : k ≠ n) : (w k).isDir = (v k).isDir := by
  rw [File.isDir, h.stMode k hk, File.isDir]

theorem Extends.isLnk (h : Extends v w n) {k : ℕ} (hk : k ≠ n) : (w k).isLnk = (v k).isLnk := by
  rw [File.isLnk, h.stMode k hk, File.isLnk]

theorem Extends.nameIn (h : Extends v w n) {name : Str} {fh : ℕ} (hf : fh ≠ n)
    (h0 : nameIn v name fh ≠ 0) : nameIn w name fh = nameIn v name fh := by
  unfold Resolve.nameIn at h0 ⊢
  rw [h.isDir hf]
  split_ifs with hd
  · obtain ⟨l,hl⟩ := h.dentries fh hf
    rw [if_pos hd] at h0
    rw [← hl, List.find?_append]
    cases hx : (v fh).dentries.find? (fun d => d.dName == name) with
    | none => simp [hx] at h0
    | some d => rfl
  · rfl

theorem Extends.walk (h : Extends v w n) (hn : Fresh v n) (h0 : (v 0).isDir = false)
    (segs : List Str) (fh : ℕ) (hf : fh ≠ n) (hr : walk v fh segs ≠ 0) :
    walk w fh segs = walk v fh segs := by
  induction segs generalizing fh with
  | nil => rfl
  | cons it segs ih =>
    rw [Resolve.walk] at hr ⊢
    rw [Resolve.walk]
    by_cases he : it = []
    · rw [if_pos he] at hr ⊢
      rw [if_pos he]
      exact ih fh hf hr
    · rw [if_neg he] at hr ⊢
      rw [if_neg he, h.isDir hf]
      split_ifs at hr ⊢ with hd
      · have hne : Resolve.nameIn v it fh ≠ 0 := by
          intro hz
          rw [hz, walk_zero h0] at hr
          exact hr rfl
        rw [h.nameIn hf hne]
        exact ih _ (hn.nameIn_ne it fh) hr
      · rfl

theorem Extends.followed (h : Extends v w n) (hn : Fresh v n) (h0 : (v 0).isDir = false)
    {fuel fh y : ℕ} (hf : fh ≠ n) (hy : y ≠ 0) (hr : followed v fuel fh = some y) :
    followed w fuel fh = some y := by
  have htext : linkText (w fh) = linkText (v fh) := by
    rw [linkText, linkText, h.data _ hf]
  rw [FreedCopy.followed] at hr ⊢
  rw [h.isLnk hf, htext]
  split_ifs at hr ⊢ with hl hz
  · exact hr
  · cases ht : linkText (v fh) with
    | none => simpa only [ht] using hr
    | some t =>
      simp only [ht] at hr
      obtain ⟨segs,hsplit,hwalk⟩ := Option.map_eq_some_iff.mp hr
      have hne : Resolve.walk v 2 segs ≠ 0 := by
        intro hz
        rw [hz] at hwalk
        exact hy hwalk.symm
      simp only [hsplit, Option.map_some, h.walk hn h0 segs 2 hn.ne_root.symm hne, hwalk]
  · exact hr

theorem extends_refl (v : View) (n : ℕ) : Extends v v n :=
  ⟨fun _ _ => rfl,fun _ _ => rfl,fun _ _ => List.prefix_rfl⟩

theorem extends_push (h : Extends v w n) (P : ℕ) (d : Dirent) :
    Extends v (put w P (File.push d)) n := by
  have hput : ∀ k, (put w P (File.push d) k).metadata = (w k).metadata ∧
      (put w P (File.push d) k).data = (w k).data ∧
      (w k).dentries <+: (put w P (File.push d) k).dentries := by
    intro k
    by_cases hk : k = P
    · subst hk
      rw [put_self]
      exact ⟨rfl,rfl,List.prefix_append _ _⟩
    · rw [put_of_ne _ _ hk]
      exact ⟨rfl,rfl,List.prefix_rfl⟩
  refine ⟨?_,?_,?_⟩
  · intro k hk
    rw [(hput k).1]
    exact h.stMode k hk
  · intro k hk
    rw [(hput k).2.1]
    exact h.data k hk
  · intro k hk
    exact (h.dentries k hk).trans (hput k).2.2

theorem extends_update (v : View) (n : ℕ) (f : File) : Extends v (Function.update v n f) n := by
  refine ⟨?_,?_,?_⟩ <;> intro k hk <;> rw [Function.update_of_ne hk]

theorem extends_nlink (v : View) (n k : ℕ) : Extends v (put v k (File.setStat incNlink)) n := by
  have hput : ∀ i, put v k (File.setStat incNlink) i = v i ∨
      put v k (File.setStat incNlink) i = (v i).setStat incNlink := by
    intro i
    by_cases hi : i = k
    · subst hi
      exact Or.inr (put_self _ _ _)
    · exact Or.inl (put_of_ne _ _ hi)
  refine ⟨?_,?_,?_⟩
  · intro i _
    rcases hput i with hi | hi
    · rw [hi]
    · rw [hi]
      rfl
  · intro i _
    rcases hput i with hi | hi
    · rw [hi]
    · rw [hi]
      rfl
  · intro i _
    rcases hput i with hi | hi
    · rw [hi]
    · rw [hi]
      exact List.prefix_rfl

theorem extends_effect {K K' : Set ℕ} {c : Call} {r : ℤ} {n' : ℕ} (hc : creates c = true)
    (he : Effect v K n c r w K' n') : Extends v w n := by
  cases he with
  | idle => exact extends_refl v n
  | leaked f => exact extends_update v n f
  | entered path f => exact extends_push (extends_update v n f) _ _
  | linked path newpath => exact extends_push (extends_nlink v n _) _ _
  | unlinked => simp [creates] at hc
  | removed => simp [creates] at hc
  | renamed => simp [creates] at hc
  | retyped => simp [creates] at hc
  | opened => simp [creates] at hc
  | closed => simp [creates] at hc
  | written => simp [creates] at hc
  | patched k g keeps other =>
    cases c <;> simp [Call.edits, Call.isNamespace] at other <;> simp [creates] at hc

def Keeps (before after : Option ℕ) : Prop := ∀ fh, fh ≠ 0 → before = some fh → after = some fh

/-- Where a path leads does not change between two states, whatever is left of
the copies that are read in each of them. -/
def KeepsMeaning (heap heap' : Heap) (path : Str) (s s' : Fs) : Prop :=
  ∀ m m' : ℕ → Copies, (∀ k, heap.Leaves (m k)) → (∀ k, heap'.Leaves (m' k)) → ∀ fuel,
    Keeps ((FreedCopy.findRealIno (m 0) fuel path s).map Prod.fst)
        ((FreedCopy.findRealIno (m' 0) fuel path s').map Prod.fst) ∧
      Keeps ((FreedCopy.findIno m fuel path s).map Prod.fst)
        ((FreedCopy.findIno m' fuel path s').map Prod.fst)

def isQuery : Call → Bool
  | .lstat .. | .fstat .. | .readlink .. | .access .. | .chmod .. | .chown .. | .utime ..
  | .openFile .. | .pread .. | .pwrite .. | .statvfs .. | .lsetxattr .. | .lgetxattr ..
  | .llistxattr .. | .lremovexattr .. | .ftruncate .. | .truncate .. => true
  | _ => false

theorem put_same_dirs {g : File → File} (k : ℕ) (hd : (g (v k)).isDir = (v k).isDir)
    (he : (g (v k)).dentries = (v k).dentries) (i : ℕ) :
    (put v k g i).isDir = (v i).isDir ∧ (put v k g i).dentries = (v i).dentries := by
  by_cases hi : i = k
  · subst hi
    rw [put_self]
    exact ⟨hd,he⟩
  · rw [put_of_ne _ _ hi]
    exact ⟨rfl,rfl⟩

/-- In any state at all, a call that is not about names leaves the directories
alone. -/
theorem query_same_dirs {env : Env} {s s' : Fs} {c : Call} {r : ℤ} (hq : isQuery c = true)
    (hm : c.permModes = true) (h : answer env c s = some (r,s')) (k : ℕ) :
    (s'.file k).isDir = (s.file k).isDir ∧ (s'.file k).dentries = (s.file k).dentries := by
  have hc : c.created = none := by
    cases c <;> first | rfl | simp [isQuery] at hq
  obtain ⟨he,-⟩ := did_of_plain hc h
  generalize s'.file = w at he
  generalize s'.keys = K' at he
  generalize s'.count = n' at he
  cases he with
  | idle => exact ⟨rfl,rfl⟩
  | leaked f create => simp [hc] at create
  | entered path f create => simp [hc] at create
  | linked => simp [isQuery] at hq
  | unlinked => simp [isQuery] at hq
  | removed => simp [isQuery] at hq
  | renamed => simp [isQuery] at hq
  | retyped p mode =>
    have hmode : typeBits mode = 0 := by simpa [Call.permModes] using hm
    exact put_same_dirs _ (chmodStat_isDir hmode _) rfl k
  | opened p flags => exact put_same_dirs _ rfl rfl k
  | closed => simp [isQuery] at hq
  | written => exact put_same_dirs _ rfl rfl k
  | patched i g keeps =>
    have hk := keeps.put s.file i
    exact ⟨(hk k).isDir,(hk k).dentries⟩

/-- `find_real_ino` returns the same in two states, whatever is left of the
copies that are read in each of them. -/
def SameMeaning (heap heap' : Heap) (path : Str) (s s' : Fs) : Prop :=
  ∀ m m', heap.Leaves m → heap'.Leaves m' → ∀ fuel,
    (FreedCopy.findRealIno m fuel path s).map Prod.fst =
      (FreedCopy.findRealIno m' fuel path s').map Prod.fst

end Bbfs.Meanings
