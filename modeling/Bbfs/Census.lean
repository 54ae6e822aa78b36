import Bbfs.Counting
import Bbfs.Directories

/-!
# Counting the entries of the table

`namings p s` counts the entries that `p` selects over all files, whether they
are directories or not. The lemmas give what each edit of a file adds to the
count or takes from it.
-/

set_option autoImplicit false

namespace Bbfs.Census
open Bbfs.Strings Bbfs.Files Bbfs.Resolve Bbfs.Calls Bbfs.Walks Bbfs.Effects Bbfs.Directories
open Bbfs.Counting

def entries (v : View) (k : ℕ) : List Dirent := (v k).dentries

def namings (p : Dirent → Bool) (s : Fs) : ℕ := census s.entry.keys p (entries s.file)

variable {s s' : Fs} {v : View} {p : Dirent → Bool} {B : Finset ℕ} {k : ℕ}

theorem real_mem (s : Fs) (path : Str) :
    real s.file path = resolve s.file path ∨ real s.file path ∈ s.entry := by
  by_cases hl : (s.file (real s.file path)).isLnk = true
  · exact Or.inr (mem_of_isLnk hl)
  · rw [Bool.not_eq_true] at hl
    exact Or.inl (resolve_not_lnk hl).symm

theorem keys_of_entries (h : entries s.file k ≠ []) : k ∈ s.entry.keys := by
  obtain ⟨d,hd⟩ := List.exists_mem_of_ne_nil _ h
  exact Finmap.mem_keys.mpr (mem_of_entry hd)

theorem namings_eq (h : s.entry.keys ⊆ B) : namings p s = census B p (entries s.file) :=
  census_extend h (fun _ => keys_of_entries)

theorem namings_pos : 0 < namings p s ↔ ∃ k, ∃ d ∈ (s.file k).dentries, p d = true :=
  census_pos (fun _ => keys_of_entries)

theorem namings_congr (h : entries s'.file = entries s.file) : namings p s' = namings p s := by
  have hleft : s'.entry.keys ⊆ s'.entry.keys ∪ s.entry.keys := Finset.subset_union_left
  rw [namings_eq hleft, namings_eq Finset.subset_union_right, h]

theorem entries_update (v : View) (k : ℕ) (f : File) :
    entries (Function.update v k f) = Function.update (entries v) k f.dentries := by
  funext i
  by_cases hi : i = k
  · subst hi
    simp [entries]
  · simp [entries, hi]

theorem census_put (hk : k ∈ B) (g : File → File) :
    census B p (entries (put v k g))+(v k).dentries.countP p =
      census B p (entries v)+(g (v k)).dentries.countP p := by
  rw [put, entries_update]
  exact census_update hk (g (v k)).dentries

theorem census_same {g : File → File} (hg : (g (v k)).dentries = (v k).dentries) :
    census B p (entries (put v k g)) = census B p (entries v) := by
  rw [put, entries_update, hg]
  exact congrArg (census B p) (Function.update_eq_self k (entries v))

theorem census_push (hk : k ∈ B) (d : Dirent) :
    census B p (entries (put v k (File.push d))) =
      census B p (entries v)+if p d = true then 1 else 0 := by
  have h := census_put (p := p) (v := v) hk (File.push d)
  rw [File.push_dentries, List.countP_append, List.countP_singleton] at h
  omega

theorem census_dropNamed (hk : k ∈ B) (name : Str) :
    census B p (entries (put v k (File.dropNamed name)))+
      (firstNamed name (v k)).toList.countP p = census B p (entries v) := by
  have h := census_put (p := p) (v := v) hk (File.dropNamed name)
  have he := countP_eraseP p (fun d => d.dName == name) (v k).dentries
  simp only [File.dropNamed, firstNamed] at h ⊢
  omega

theorem census_dropIno (hk : k ∈ B) (i : ℕ) :
    census B p (entries (put v k (File.dropIno i)))+
      ((v k).dentries.find? (fun d => d.dIno == i)).toList.countP p = census B p (entries v) := by
  have h := census_put (p := p) (v := v) hk (File.dropIno i)
  have he := countP_eraseP p (fun d => d.dIno == i) (v k).dentries
  simp only [File.dropIno] at h ⊢
  omega

theorem census_erase (hk : k ∈ B) :
    census B p (entries (Function.update v k default))+(v k).dentries.countP p =
      census B p (entries v) := by
  rw [entries_update]
  have h := census_update (p := p) (L := entries v) hk (default : File).dentries
  rw [File.default_dentries, List.countP_nil] at h
  exact h

theorem census_dropLink (hk : k ∈ B) :
    census B p (entries (dropLink v k))+
      (if LastLink v k then (v k).dentries.countP p else 0) = census B p (entries v) := by
  unfold dropLink
  split_ifs
  · exact census_erase hk
  · exact census_same rfl

theorem namings_linked {p : Dirent → Bool} {P j : ℕ} {name : Str} (hP : P ∈ s.entry)
    (hv : s'.file = put (put s.file j (File.setStat incNlink)) P (File.push ⟨name,j⟩)) :
    namings p s' = namings p s+if p ⟨name,j⟩ = true then 1 else 0 := by
  have hB : s.entry.keys ⊆ s.entry.keys ∪ s'.entry.keys := Finset.subset_union_left
  have hB' : s'.entry.keys ⊆ s.entry.keys ∪ s'.entry.keys := Finset.subset_union_right
  rw [namings_eq hB, namings_eq hB', hv,
    census_push (hB (Finmap.mem_keys.mpr hP)), census_same rfl]

theorem namings_unlinked {p : Dirent → Bool} {P j : ℕ} {name : Str} (hP : P ∈ s.entry)
    (hj : j ∈ s.entry) (hne : j ≠ P) (hv : s'.file = unlinkView s.file P name j) :
    namings p s'+(firstNamed name (s.file P)).toList.countP p+
      (if LastLink s.file j then (s.file j).dentries.countP p else 0) = namings p s := by
  have hB : s.entry.keys ⊆ s.entry.keys ∪ s'.entry.keys := Finset.subset_union_left
  have hB' : s'.entry.keys ⊆ s.entry.keys ∪ s'.entry.keys := Finset.subset_union_right
  have hmem : ∀ {k}, k ∈ s.entry → k ∈ s.entry.keys ∪ s'.entry.keys :=
    fun hk => hB (Finmap.mem_keys.mpr hk)
  have hname := census_dropNamed (p := p) (v := s.file) (hmem hP) name
  have hdrop := census_dropLink (p := p) (v := put s.file P (File.dropNamed name)) (hmem hj)
  simp only [lastLink_dropNamed, put_of_ne _ _ hne] at hdrop
  rw [namings_eq hB, namings_eq hB', hv, unlinkView]
  omega

theorem namings_dropLink {p : Dirent → Bool} (fh : ℕ) (hv : s'.file = dropLink s.file fh) :
    namings p s'+(if LastLink s.file fh then (s.file fh).dentries.countP p else 0) =
      namings p s := by
  have hB := Finset.subset_insert fh (s.entry.keys ∪ s'.entry.keys)
  rw [namings_eq (Finset.subset_union_left.trans hB),
    namings_eq (Finset.subset_union_right.trans hB), hv]
  exact census_dropLink (Finset.mem_insert_self fh _)

theorem namings_removed {p : Dirent → Bool} {P fh : ℕ} (hP : P ∈ s.entry) (hfh : fh ∈ s.entry)
    (hne : fh ≠ P) (hv : s'.file = rmdirView s.file P fh) :
    namings p s'+((s.file P).dentries.find? (fun d => d.dIno == fh)).toList.countP p+
      (if LastLink s.file fh then (s.file fh).dentries.countP p else 0) = namings p s := by
  have hB : s.entry.keys ⊆ s.entry.keys ∪ s'.entry.keys := Finset.subset_union_left
  have hB' : s'.entry.keys ⊆ s.entry.keys ∪ s'.entry.keys := Finset.subset_union_right
  have hmem : ∀ {k}, k ∈ s.entry → k ∈ s.entry.keys ∪ s'.entry.keys :=
    fun hk => hB (Finmap.mem_keys.mpr hk)
  have hino := census_dropIno (p := p) (v := s.file) (hmem hP) fh
  have herase := census_erase (p := p) (v := put s.file P (File.dropIno fh)) (hmem hfh)
  rw [put_of_ne _ _ hne] at herase
  rw [namings_eq hB, namings_eq hB', hv, rmdirView]
  split_ifs
  · omega
  · omega

end Bbfs.Census
