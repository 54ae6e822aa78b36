import Bbfs.Contents

/-!
# The stored size

The size of a file is kept beside its data. Truncation stores the new length;
`my_pwrite` stores the length of the string written, which is the length of
the file only when the file was empty.
-/

set_option autoImplicit false

namespace Bbfs.Sizes
open Bbfs.Strings Bbfs.Files Bbfs.Resolve Bbfs.Calls Bbfs.Session Bbfs.Walks Bbfs.Effects
open Bbfs.Outcomes Bbfs.Numbers Bbfs.Runs Bbfs.ZeroExtended Bbfs.Contents

def SizedFile (f : File) : Prop :=
  f.isReg = true ∨ f.isLnk = true → f.metadata.stSize = f.data.length

/-- The size of every regular file and symbolic link is the length of its
data. -/
def Sized (s : Fs) : Prop := ∀ k ∈ s.entry, SizedFile (s.file k)

def sizeCall : Call → Bool
  | .creat .. | .symlink .. | .pwrite .. | .ftruncate .. | .truncate .. | .link .. | .unlink ..
  | .rename .. => true
  | _ => false

def CStrings : Call → Prop
  | .pwrite _ buf size _ => size = buf.length ∧ '\x00' ∉ buf
  | .symlink path _ => path.length < 2^64 ∧ '\x00' ∉ path
  | _ => True

instance (c : Call) : Decidable (CStrings c) := by
  induction c using Call.casesOn <;> unfold CStrings <;> infer_instance

/-- A new file takes a number under which no data was left, and a write that is
not refused finds an empty file. -/
def KeepsSizes (s : Fs) : Call → Prop
  | .creat path mode => Takes s.file (.creat path mode) → (s.file s.count).data = []
  | .symlink path link => Takes s.file (.symlink path link) → (s.file s.count).data = []
  | .pwrite fh _ size _ => fh ≠ 0 → (s.file fh).isReg = true →
    (s.file fh).data.length % 2^32 = 0 ∧ size < 2^31
  | _ => True

instance (v : View) (c : Call) : Decidable (Takes v c) := by
  induction c using Call.casesOn <;> unfold Takes <;> infer_instance

instance (s : Fs) (c : Call) : Decidable (KeepsSizes s c) := by
  induction c using Call.casesOn <;> unfold KeepsSizes <;> infer_instance

def keepsSizes (l : Label) (s : Fs) : Prop :=
  (sizeCall l.2 = true ∧ CStrings l.2) ∧ KeepsSizes s l.2

instance (l : Label) (s : Fs) : Decidable (keepsSizes l s) := inferInstanceAs (Decidable (_ ∧ _))

variable {v w : View} {s s' : Fs} {env : Env} {r : ℤ}

theorem sizedFile_default : SizedFile default := by
  intro h
  simp at h

theorem sized_update (h : ∀ k, SizedFile (v k)) {n : ℕ} {f : File} (hf : SizedFile f) :
    ∀ k, SizedFile (Function.update v n f k) := by
  intro k
  by_cases hk : k = n
  · subst hk
    rw [Function.update_self]
    exact hf
  · rw [Function.update_of_ne hk]
    exact h k

theorem sized_put (h : ∀ k, SizedFile (v k)) {n : ℕ} {g : File → File}
    (hg : SizedFile (g (v n))) : ∀ k, SizedFile (put v n g k) :=
  sized_update h hg

theorem SizedFile.push {f : File} (h : SizedFile f) (d : Dirent) : SizedFile (f.push d) := h

theorem SizedFile.dropNamed {f : File} (h : SizedFile f) (name : Str) :
    SizedFile (f.dropNamed name) := h

theorem SizedFile.dropIno {f : File} (h : SizedFile f) (i : ℕ) : SizedFile (f.dropIno i) := h

theorem SizedFile.incNlink {f : File} (h : SizedFile f) : SizedFile (f.setStat incNlink) := h

theorem SizedFile.decNlink {f : File} (h : SizedFile f) : SizedFile (f.setStat decNlink) := h

theorem sized_dropLink (h : ∀ k, SizedFile (v k)) (fh : ℕ) : ∀ k, SizedFile (dropLink v fh k) := by
  unfold dropLink
  split_ifs
  · exact sized_update h sizedFile_default
  · exact sized_put h (h fh).decNlink

theorem sized_enter (h : ∀ k, SizedFile (v k)) {f : File} (hf : SizedFile f) (n P : ℕ)
    (name : Str) : ∀ k, SizedFile (enterView v n P name f k) := by
  have hu := sized_update (n := n) h hf
  exact sized_put hu ((hu P).push _)

theorem sized_clear (h : ∀ k, SizedFile (v k)) (P Q : ℕ) (name newname : Str) :
    ∀ k, SizedFile (clearView v P Q name newname k) := by
  have hdrop : ∀ u k m, (∀ i, SizedFile (u i)) → ∀ i, SizedFile (put u k (File.dropNamed m) i) :=
    fun u k m hu => sized_put hu ((hu k).dropNamed m)
  unfold clearView
  split_ifs
  · exact hdrop _ _ _ (hdrop _ _ _ h)
  · exact hdrop _ _ _ h

theorem overwrite_length {data str data' : Str} {size : ℕ} {offset : ℤ}
    (h : overwrite data str size offset = some data') :
    (data'.length : ℤ) = toInt32 (data.length+size) := by
  unfold overwrite at h
  generalize toInt32 (data.length+size) = newSize at h ⊢
  simp only at h
  by_cases hneg : newSize < 0
  · simp [hneg] at h
  · rw [if_neg hneg] at h
    rw [writeLoop_length h, length_resize]
    omega

theorem stop_le_length {str : Str} {stop fuel j : ℕ} {i : ℕ} {data data' : Str}
    (h : writeLoop str stop fuel i j data = some data') (hstop : stop < 2^64) (hi : i ≤ stop)
    (hd : i ≤ data.length) : stop ≤ data.length := by
  induction fuel generalizing i j data with
  | zero => simp [writeLoop] at h
  | succ fuel ih =>
    rw [writeLoop, toU64_natCast (by omega)] at h
    split_ifs at h with hlt hin
    · rw [show (i:ℤ)+1 = ((i+1:ℕ):ℤ) by omega] at h
      have hle := ih h (by omega) (by rw [List.length_set]; omega)
      rwa [List.length_set] at hle
    · omega

theorem toInt32_empty {n size : ℕ} (hn : n % 2^32 = 0) (hs : size < 2^31) :
    toInt32 ((n:ℤ)+size) = size := by
  have hq : ((n:ℤ)+size) = size+((2^32:ℕ):ℤ)*((n/2^32:ℕ):ℤ) := by omega
  rw [toInt32, hq, Int.add_mul_bmod_self_left]
  exact toInt32_natCast hs

theorem sizedFile_stored {f : File} {str data : Str} {size : ℕ} {offset : ℤ}
    (ho : overwrite f.data str size offset = some data) (hn : f.data.length % 2^32 = 0)
    (hs : size < 2^31) (hl : str.length = size) : SizedFile (stored data str f) := by
  intro _
  have hlen := overwrite_length ho
  rw [toInt32_empty hn hs] at hlen
  rw [stored, hlen, hl]

theorem sized_mknod (hs : Settled s) (h : ∀ k, SizedFile (s.file k))
    (he : (s.file s.count).data = []) {path : Str} {mode : Mode} {dev : ℕ}
    (hm : myMknod env path mode dev s = (r,s')) : ∀ k, SizedFile (s'.file k) := by
  obtain ⟨-,-,-,f,-,⟨hmeta,hdata⟩,hcase⟩ := myMknod_effect hs hm
  have hf : SizedFile f := by
    intro _
    rw [hmeta, hdata, he]
    rfl
  rcases hcase with ⟨-,-,-,hv⟩ | ⟨-,-,-,hv⟩
  · rw [hv]
    exact sized_update h hf
  · rw [hv]
    exact sized_enter h hf _ _ _

theorem mknod_data (hs : Settled s) {path : Str} {mode : Mode} {dev : ℕ}
    (hm : myMknod env path mode dev s = (r,s')) :
    (s'.file s.count).data = (s.file s.count).data := by
  obtain ⟨-,-,-,f,-,⟨-,hdata⟩,hcase⟩ := myMknod_effect hs hm
  rcases hcase with ⟨-,-,-,hv⟩ | ⟨-,-,-,hv⟩
  · rw [hv, Function.update_self, hdata]
  · have hP := hs.fresh.resolve_ne (parentPath path)
    rw [hv, enterView, put_of_ne _ _ hP.symm, Function.update_self, hdata]

theorem overwrite_start {data str data' : Str} (hs : str.length < 2^64)
    (h : overwrite data str str.length 0 = some data') :
    ∃ n, str.length ≤ n ∧ n < 2^31 ∧ data' = splice (resize n data) 0 str := by
  have hrange := toInt32_range (data.length+str.length)
  have hzero : toInt32 0 = ((0:ℕ):ℤ) := by decide
  have hstop : toU64 (0+(str.length:ℤ)) = str.length := by
    rw [zero_add, toU64_natCast hs]
  unfold overwrite at h
  generalize toInt32 (data.length+str.length) = newSize at h hrange
  simp only [toU64_zero, Nat.not_lt_zero, if_false, hstop, hzero] at h
  by_cases hneg : newSize < 0
  · rw [if_pos hneg] at h
    exact absurd h (by simp)
  rw [if_neg hneg] at h
  have hle := stop_le_length h hs (Nat.zero_le _) (Nat.zero_le _)
  rw [length_resize] at hle
  rw [writeLoop_eq hs _ 0 0 _ (by rw [length_resize]; exact hle) (by omega) (Nat.zero_le _)
    (by omega), List.drop_zero] at h
  exact ⟨newSize.toNat,hle,by omega,(Option.some.inj h).symm⟩

theorem overwrite_new {str data : Str} (hs : str.length < 2^64)
    (h : overwrite [] str str.length 0 = some data) : data.length = str.length := by
  obtain ⟨n,hle,hn,-⟩ := overwrite_start hs h
  have hlen := overwrite_length h
  have hsmall : str.length < 2^31 := by omega
  simp only [List.length_nil, Nat.cast_zero, zero_add, toInt32_natCast hsmall] at hlen
  omega

theorem sized_symlink (hs : Settled s) (h : ∀ k, SizedFile (s.file k)) {path link : Str}
    (hc : path.length < 2^64 ∧ '\x00' ∉ path)
    (he : Takes s.file (.symlink path link) → (s.file s.count).data = [])
    (hm : mySymlink env path link s = some (r,s')) : ∀ k, SizedFile (s'.file k) := by
  rcases mySymlink_cases hs hm with ⟨-,hlooked⟩ | ⟨htakes,err,t,hmk,hcases⟩
  · rw [hlooked.file]
    exact h
  have ht := sized_mknod (settled_touch hs _) (by rwa [Fs.touch_file])
    (by rw [Fs.touch_file, Fs.touch_count, he htakes]) hmk
  rcases hcases with ⟨-,-,rfl⟩ | ⟨rfl,-,-,⟨-,-,hv⟩ | ⟨-,-,data,ho,hv⟩⟩
  · exact ht
  · rw [hv]
    exact ht
  · rw [hv]
    apply sized_put ht
    intro _
    have hnew := mknod_data (settled_touch hs _) hmk
    rw [Fs.touch_count, Fs.touch_file, he htakes] at hnew
    rw [hnew, cstr_of_notMem hc.2] at ho
    change ((cstr path).length : ℤ) = data.length
    rw [cstr_of_notMem hc.2, overwrite_new hc.1 ho]

theorem sized_names {K K' : Set ℕ} {n n' : ℕ} {c : Call} (h : ∀ k, SizedFile (v k))
    (hc : c.isNamespace = true) (hnew : c.created = none) (he : Effect v K n c r w K' n') :
    ∀ k, SizedFile (w k) := by
  cases he with
  | idle => exact h
  | leaked f create => simp [hnew] at create
  | entered path f create => simp [hnew] at create
  | linked path newpath =>
    have hinc := sized_put h (h (resolve v path)).incNlink
    exact sized_put hinc ((hinc _).push _)
  | unlinked path => exact sized_dropLink (sized_put h ((h _).dropNamed _)) _
  | removed path =>
    have hdrop := sized_put h ((h (resolve v (parentPath path))).dropIno (resolve v path))
    unfold rmdirView
    split_ifs
    · exact sized_update hdrop sizedFile_default
    · exact hdrop
  | renamed path newpath =>
    have hclear := sized_clear h (resolve v (parentPath path)) (resolve v (parentPath newpath))
      (tail path) (tail newpath)
    exact sized_put hclear ((hclear _).push _)
  | patched k g keeps other =>
    have hedits : c.edits = true := by
      cases c <;> first | rfl | simp [Call.isNamespace] at hc
    simp [hedits] at other
  | _ => simp [Call.isNamespace] at hc

theorem sized_pwrite (h : ∀ k, SizedFile (s.file k)) {fh size : ℕ} {buf : Str} {offset : ℤ}
    (hc : size = buf.length ∧ '\x00' ∉ buf)
    (he : fh ≠ 0 → (s.file fh).isReg = true → (s.file fh).data.length % 2^32 = 0 ∧ size < 2^31)
    (hm : myPwrite fh buf size offset s = some (r,s')) : ∀ k, SizedFile (s'.file k) := by
  rcases myPwrite_some hm with ⟨-,-,rfl⟩ | ⟨h0,hr,-,data,ho,rfl⟩
  · rw [Fs.touch_file]
    exact h
  · obtain ⟨hn,hs⟩ := he h0 hr
    rw [Fs.modify_file, Fs.touch_file]
    apply sized_put h
    exact sizedFile_stored ho hn hs (by rw [cstr_of_notMem hc.2, hc.1])

theorem sizedFile_cutTo (n : ℕ) (f : File) : SizedFile (cutTo n f) := fun _ => rfl

theorem sized_step {c : Call} (hs : Settled s) (h : ∀ k, SizedFile (s.file k))
    (hc : sizeCall c = true) (hstr : CStrings c) (hk : KeepsSizes s c)
    (ha : answer env c s = some (r,s')) : ∀ k, SizedFile (s'.file k) := by
  cases c with
  | creat path mode =>
    have hm := Option.some.inj ha
    rw [myCreat] at hm
    split_ifs at hm with hd
    · rw [← (Prod.mk.inj hm).2]
      exact h
    · exact sized_mknod hs h (hk hd) hm
  | symlink path link => exact sized_symlink hs h hstr hk ha
  | pwrite fh buf size offset =>
    have hm : myPwrite fh buf size offset s = some (r,s') := ha
    exact sized_pwrite h hstr hk hm
  | ftruncate fh offset =>
    rcases myFtruncate_some (Option.some.inj ha) with ⟨-,-,hs'⟩ | ⟨-,-,-,-,hs'⟩
    · rw [hs']
      split_ifs
      · exact h
      · rw [Fs.touch_file]
        exact h
    · rw [hs', Fs.modify_file, Fs.touch_file]
      exact sized_put h (sizedFile_cutTo _ _)
  | truncate path newsize =>
    rcases myTruncate_some (Option.some.inj ha) with ⟨-,-,hv⟩ | ⟨-,-,-,-,hv⟩
    · rw [hv]
      exact h
    · rw [hv]
      exact sized_put h (sizedFile_cutTo _ _)
  | link path newpath => exact sized_names h rfl rfl (did_of_plain rfl ha).1
  | unlink path => exact sized_names h rfl rfl (did_of_plain rfl ha).1
  | rename path newpath => exact sized_names h rfl rfl (did_of_plain rfl ha).1
  | _ => simp [sizeCall] at hc

/-- In runs whose creations take numbers under which no data was left and whose
writes go to empty files, the stored size of every file and link is the length
of its data. -/
theorem size_is_length (h : Sessions env keepsSizes s) : Sized s := by
  have hsized : ∀ k, SizedFile (s.file k) := by
    apply sessions_invariant h
    · rw [(initialized_eq env).2.2.2]
      apply sized_update (fun _ => sizedFile_default)
      intro hf
      have hdir := (type_exclusive _).1 (rootFile_isDir env)
      simp [hdir] at hf
    · intro l t t' r ht _ hinv ⟨⟨hc,hstr⟩,hk⟩ ha _
      exact sized_step ht hinv hc hstr hk ha
  exact fun k _ => hsized k

theorem size_is_length_run :
    Sized (after [.creat ['/','f'] 0o644#32,.pwrite 3 ['a','b'] 2 0,.ftruncate 3 0,
      .pwrite 3 ['c'] 1 (-1),.symlink ['/','f'] ['/','s'],.truncate ['/','f'] 5]) :=
  size_is_length (after_session (by decide +kernel) (by decide +kernel))

/-- A second write stores its own length. -/
theorem second_write_shrinks_size :
    Sessions plainEnv anyCall (after [.creat ['/','f'] 0o644#32,.pwrite 3 ['a','b'] 2 0,
        .pwrite 3 ['c'] 1 2]) ∧
      ¬ Sized (after [.creat ['/','f'] 0o644#32,.pwrite 3 ['a','b'] 2 0,.pwrite 3 ['c'] 1 2]) := by
  refine ⟨after_session (by decide) (by decide),?_⟩
  intro h
  exact absurd (h 3 (by decide) (by decide)) (by decide)

end Bbfs.Sizes
