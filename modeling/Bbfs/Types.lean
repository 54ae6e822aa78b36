import Bbfs.Numbers

/-!
# File types

The type bits of a made file change only where `my_chmod` stores a mode of
permission bits over a file that is not a directory.
-/

set_option autoImplicit false

namespace Bbfs.Types
open Bbfs.Strings Bbfs.Files Bbfs.Resolve Bbfs.Calls Bbfs.Session Bbfs.Walks Bbfs.Effects
open Bbfs.Outcomes Bbfs.Numbers Bbfs.Runs

variable {v w : View} {n : ℕ}

/-- The file made under a number is still there. A zeroed file that a read
inserted again under the number of an erased one carries number 0. -/
def Present (v : View) (i : ℕ) : Prop := (v i).metadata.stIno = i

instance (v : View) (i : ℕ) : Decidable (Present v i) := inferInstanceAs (Decidable (_ = _))

def typeOf (v : View) (i : ℕ) : Mode := typeBits (v i).metadata.stMode

/-- `my_chmod` finds nothing, a directory, or a file without a type. -/
def ChmodKeeps (v : View) : Call → Prop
  | .chmod path _ => resolve v path = 0 ∨ typeOf v (resolve v path) = 0 ∨
    typeOf v (resolve v path) = S_IFDIR
  | _ => True

instance (v : View) (c : Call) : Decidable (ChmodKeeps v c) := by
  induction c using Call.casesOn <;> unfold ChmodKeeps <;> infer_instance

def keepsTypes (l : Label) (s : Fs) : Prop := l.2.permModes = true ∧ ChmodKeeps s.file l.2

instance (l : Label) (s : Fs) : Decidable (keepsTypes l s) := inferInstanceAs (Decidable (_ ∧ _))

/-- Where permission bits are stored, the type survives exactly in directories
and in files that have none. -/
theorem chmodStat_type {mode : Mode} (hm : typeBits mode = 0) (f : File) :
    typeBits (chmodStat mode f).metadata.stMode = typeBits f.metadata.stMode ↔
      typeBits f.metadata.stMode = 0 ∨ typeBits f.metadata.stMode = S_IFDIR := by
  unfold chmodStat
  rw [File.setStat_metadata]
  by_cases hd : f.isDir = true
  · have ht : typeBits f.metadata.stMode = S_IFDIR := by
      simpa [File.isDir, S_ISDIR_eq] using hd
    rw [hd, if_pos rfl, typeBits_or, hm, ht]
    decide
  · have ht : typeBits f.metadata.stMode ≠ S_IFDIR := by
      simpa [File.isDir, S_ISDIR_eq] using hd
    rw [if_neg hd]
    simp only [hm, ht, or_false]
    exact eq_comm

def SameType (v w : View) (i : ℕ) : Prop :=
  (w i).metadata.stIno = 0 ∨
    (w i).metadata.stIno = (v i).metadata.stIno ∧ typeOf w i = typeOf v i

variable {u : View} {i : ℕ}

theorem sameType_refl (v : View) (i : ℕ) : SameType v v i := Or.inr ⟨rfl,rfl⟩

theorem SameType.put (h : SameType v w i) {k : ℕ} {g : File → File}
    (hi : (g (w k)).metadata.stIno = (w k).metadata.stIno)
    (ht : typeBits (g (w k)).metadata.stMode = typeBits (w k).metadata.stMode) :
    SameType v (put w k g) i := by
  by_cases hk : i = k
  · subst hk
    rcases h with h | ⟨h1,h2⟩
    · left
      rw [put_self, hi, h]
    · right
      rw [typeOf, put_self, hi, ht]
      exact ⟨h1,h2⟩
  · unfold SameType typeOf
    rw [put_of_ne _ _ hk]
    exact h

theorem SameType.clear (h : SameType v w i) (k : ℕ) :
    SameType v (Function.update w k default) i := by
  by_cases hk : i = k
  · subst hk
    left
    rw [Function.update_self]
    rfl
  · unfold SameType typeOf
    rw [Function.update_of_ne hk]
    exact h

theorem SameType.dropLink (h : SameType v w i) (fh : ℕ) : SameType v (dropLink w fh) i := by
  unfold Effects.dropLink
  split_ifs
  · exact h.clear fh
  · exact h.put rfl rfl

theorem effect_type {K K' : Set ℕ} {c : Call} {r : ℤ} {n' : ℕ} (he : Effect v K n c r w K' n')
    (hm : c.permModes = true) (hc : ChmodKeeps v c) (hn : i ≠ n) : SameType v w i := by
  have h := sameType_refl v i
  have hnew : ∀ f, SameType v (Function.update v n f) i := by
    intro f
    unfold SameType typeOf
    rw [Function.update_of_ne hn]
    exact h
  cases he with
  | idle => exact h
  | leaked f => exact hnew f
  | entered path f => exact (hnew f).put rfl rfl
  | linked path newpath => exact (h.put rfl rfl).put rfl rfl
  | unlinked path => exact (h.put rfl rfl).dropLink _
  | removed path =>
    unfold rmdirView
    split_ifs
    · exact (h.put rfl rfl).clear _
    · exact h.put rfl rfl
  | renamed path newpath =>
    unfold renameView clearView
    split_ifs
    · exact ((h.put rfl rfl).put rfl rfl).put rfl rfl
    · exact (h.put rfl rfl).put rfl rfl
  | retyped path mode source =>
    refine h.put rfl ((chmodStat_type ?_ _).mpr ?_)
    · simpa [Call.permModes] using hm
    · exact hc.resolve_left source
  | opened path flags => exact h.put rfl rfl
  | closed fh => exact h.dropLink fh
  | written fh buf size offset data => exact h.put rfl rfl
  | patched k g keeps =>
    apply h.put (keeps.stIno _)
    rw [keeps.stMode]

theorem effect_made {K K' : Set ℕ} {c : Call} {r : ℤ} {n' : ℕ} (hf : Fresh v n)
    (he : Effect v K n c r w K' n') (hn : n' = n+1) :
    Present w n ∧ typeOf w n = c.makes r := by
  unfold Present typeOf
  cases he with
  | leaked f create spent stopped new =>
    rw [Function.update_self]
    exact ⟨new.ino,new.type⟩
  | entered path f create spent go new =>
    have hP := hf.resolve_ne (parentPath path)
    rw [enterView, put_of_ne _ _ hP.symm, Function.update_self]
    exact ⟨new.ino,new.type⟩
  | _ => omega

def madeType (r : ℤ) : Call → Mode
  | .mkdir .. => S_IFDIR
  | .creat .. => S_IFREG
  | .symlink .. => if r = ok then S_IFLNK else S_IFREG
  | _ => 0

theorem makes_eq {c : Call} (hm : c.permModes = true) (r : ℤ) : c.makes r = madeType r c := by
  have hbits : ∀ mode : Mode, (typeBits mode == 0) = true → typeBits mode = 0 :=
    fun mode h => by simpa using h
  cases c with
  | mknod path mode dev => exact hbits mode hm
  | mkdir path mode =>
    rw [Call.makes, typeBits_or, hbits mode hm]
    exact (by decide : typeBits S_IFDIR ||| 0 = S_IFDIR)
  | creat path mode =>
    rw [Call.makes, typeBits_or, hbits mode hm]
    exact (by decide : typeBits S_IFREG ||| 0 = S_IFREG)
  | _ => rfl

theorem type_step {s t : Fs} {l : Label} {i : ℕ} (hs : Settled s) (hi : i ≠ 0) (hlt : i < s.count)
    (hc : keepsTypes l s) (hm : advance l s = some t) (hp : Present t.file i) :
    Present s.file i ∧ typeOf t.file i = typeOf s.file i := by
  obtain ⟨-,r,-,he⟩ := advance_effect hs hm
  rcases effect_type he hc.1 hc.2 (Nat.ne_of_lt hlt) with h0 | ⟨hino,htype⟩
  · exact absurd (hp.symm.trans h0) hi
  · exact ⟨hino.symm.trans hp,htype⟩

end Bbfs.Types
