import Bbfs.Census
import Bbfs.Failure

/-!
# Opening a path

The test `fh >= 0` in `my_open` holds of every unsigned handle, so that the
branch that creates a file is never reached: a path that does not resolve is
opened under the error value it resolved to.
-/

set_option autoImplicit false

namespace Bbfs.Opening
open Bbfs.InsertingMap
open Bbfs.Strings Bbfs.Files Bbfs.Resolve Bbfs.Calls Bbfs.Session Bbfs.Walks Bbfs.Effects
open Bbfs.Outcomes Bbfs.Numbers Bbfs.Failure Bbfs.Census

variable {s s' : Fs} {path : Str} {flags : ℕ} {r : ℤ}

/-- What an open should do in each of its three cases; `s'` is the state it
leaves. -/
structure OpensRight (s : Fs) (path : Str) (flags : ℕ) (r : ℤ) (s' : Fs) : Prop where
  present : Resolves s.file path → r = resolve s.file path ∧
    (myClose (resolve s.file path) s').2.entry = s.entry
  made : ¬ Resolves s.file path → flags &&& O_CREAT ≠ 0 →
    (s.file (resolve s.file (parentPath path))).isDir = true →
    r = resolve s'.file path ∧ (s'.file (resolve s'.file path)).isReg = true
  missing : ¬ Resolves s.file path → flags &&& O_CREAT = 0 → r = anErr ∧ SameTable s s'

/-- The path resolves, and not to a key of link count 0; or it does not, and a
file is asked for in a place that is no directory. -/
def Openable (s : Fs) (path : Str) (flags : ℕ) : Prop :=
  if Resolves s.file path then
    resolve s.file path ∈ s.entry → (s.file (resolve s.file path)).metadata.stNlink ≠ 0
  else flags &&& O_CREAT ≠ 0 ∧ (s.file (resolve s.file (parentPath path))).isDir = false

instance (s : Fs) (path : Str) (flags : ℕ) : Decidable (Openable s path flags) := by
  unfold Openable
  infer_instance

theorem entry_ext (hk : ∀ k, k ∈ s'.entry ↔ k ∈ s.entry) (hf : s'.file = s.file) :
    s'.entry = s.entry :=
  Finmap.ext_lookup (fun k => lookup_eq_iff.mpr ⟨hk k,congrFun hf k⟩)

/-- A close right after an open puts the table back, unless it erases the file. -/
theorem open_close_iff (h0 : resolve s.file path ≠ 0) :
    (myClose (resolve s.file path) ((s.touch (real s.file path)).modify (resolve s.file path)
      (File.setStat incNlink))).2.entry = s.entry ↔
        (resolve s.file path ∈ s.entry → (s.file (resolve s.file path)).metadata.stNlink ≠ 0) := by
  have hreal := real_mem s path
  generalize real s.file path = R at hreal ⊢
  generalize resolve s.file path = I at h0 hreal ⊢
  rcases hc : myClose I ((s.touch R).modify I (File.setStat incNlink)) with ⟨r,t⟩
  obtain ⟨-,ht⟩ := myClose_some h0 hc
  have hlast : LastLink ((s.touch R).modify I (File.setStat incNlink)).file I ↔
      (s.file I).metadata.stNlink = 0 := by
    rw [Fs.modify_file, Fs.touch_file, lastLink_inc]
  have hback : ∀ k, put (put s.file I (File.setStat incNlink)) I (File.setStat decNlink) k =
      s.file k := by
    intro k
    by_cases hk : k = I
    · subst hk
      rw [put_self, put_self, dec_inc]
    · rw [put_of_ne _ _ hk, put_of_ne _ _ hk]
  by_cases hn : (s.file I).metadata.stNlink = 0
  · rw [if_pos (hlast.mpr hn)] at ht
    have hgone : I ∉ t.entry := by
      rw [ht]
      exact Finmap.notMem_erase_self
    constructor
    · intro he hmem
      rw [← he] at hmem
      exact absurd hmem hgone
    · intro hout
      have hI : I ∉ s.entry := fun hmem => hout hmem hn
      apply entry_ext
      · intro k
        change k ∈ t.keys ↔ k ∈ s.keys
        rw [ht]
        simp only [Fs.erase_keys, Fs.modify_keys, Fs.touch_keys, Set.mem_sdiff, Set.mem_insert_iff,
          Set.mem_singleton_iff]
        constructor
        · rintro ⟨hk | hk | rfl | hk,hne⟩
          · exact absurd hk hne
          · exact absurd hk hne
          · exact hreal.resolve_left hne
          · exact hk
        · intro hk
          exact ⟨Or.inr (Or.inr (Or.inr hk)),fun he => hI (he ▸ hk)⟩
      · funext k
        rw [ht, Fs.erase_file, Fs.modify_file, Fs.modify_file, Fs.touch_file]
        by_cases hk : k = I
        · subst hk
          rw [Function.update_self]
          exact (read_of_notMem hI).symm
        · rw [Function.update_of_ne hk]
          exact hback k
  · rw [if_neg (fun hl => hn (hlast.mp hl))] at ht
    have hmem : I ∈ s.entry := by
      apply mem_of_ne_default
      intro hd
      rw [hd] at hn
      exact hn rfl
    refine iff_of_true ?_ (fun _ => hn)
    apply entry_ext
    · intro k
      change k ∈ t.keys ↔ k ∈ s.keys
      rw [ht]
      simp only [Fs.modify_keys, Fs.touch_keys, Set.mem_insert_iff]
      constructor
      · rintro (rfl | rfl | rfl | hk)
        · exact hmem
        · exact hmem
        · exact hreal.elim (fun he => he ▸ hmem) id
        · exact hk
      · exact fun hk => Or.inr (Or.inr (Or.inr hk))
    · funext k
      rw [ht, Fs.modify_file, Fs.modify_file, Fs.touch_file]
      exact hback k

theorem unresolved_cases (h : ¬ Resolves s.file path) :
    resolve s.file path = 0 ∧ toInt32 (resolve s.file path) = 0 ∨
      resolve s.file path = errIno ∧ toInt32 (resolve s.file path) = -1 := by
  rw [Resolves, not_and_or, not_not, not_not] at h
  rcases h with h | h
  · rw [h]
    exact Or.inl ⟨rfl,by decide⟩
  · rw [h]
    exact Or.inr ⟨rfl,by decide⟩

theorem resolve_opened (s : Fs) (path : Str) (k : ℕ) :
    resolve (put s.file k (File.setStat incNlink)) path = resolve s.file path := by
  have hput : ∀ i, (put s.file k (File.setStat incNlink) i).metadata.stMode =
      (s.file i).metadata.stMode ∧
      (put s.file k (File.setStat incNlink) i).dentries = (s.file i).dentries ∧
      (put s.file k (File.setStat incNlink) i).data = (s.file i).data := by
    intro i
    by_cases hi : i = k
    · subst hi
      rw [put_self]
      exact ⟨rfl,rfl,rfl⟩
    · rw [put_of_ne _ _ hi]
      exact ⟨rfl,rfl,rfl⟩
  apply resolve_congr
  · intro i
    rw [File.isDir, (hput i).1, File.isDir]
    exact ⟨rfl,(hput i).2.1⟩
  · intro i
    rw [File.isLnk, (hput i).1, File.isLnk]
    exact ⟨rfl,fun _ => (hput i).2.2⟩

/-- In every state of a session, an open does what it should exactly when the
path resolves to a file that its close will not erase, or when nothing is asked
of it. -/
theorem open_right_iff {env env' : Env} (h : Sessions env anyCall s)
    (ho : myOpen env' path flags s = (r,s')) :
    OpensRight s path flags r s' ↔ Openable s path flags := by
  have hs := sessions_settled h
  rw [myOpen_eq] at ho
  obtain ⟨rfl,rfl⟩ := Prod.mk.inj ho
  unfold Openable
  split_ifs with hres
  · rw [← open_close_iff hres.1]
    constructor
    · exact fun hright => (hright.present hres).2
    · intro hback
      have hlt := (hs.resolve_lt hs.low path).resolve_right hres.2
      have hhigh := hs.high
      exact ⟨fun _ => ⟨toInt32_of_range (by omega) (by omega),hback⟩,
        fun hno => absurd hres hno,fun hno => absurd hres hno⟩
  · rw [← Bool.not_eq_true]
    constructor
    · intro hright
      have hcreat : flags &&& O_CREAT ≠ 0 := by
        intro hno
        obtain ⟨hr,hsame⟩ := hright.missing hres hno
        rcases unresolved_cases hres with ⟨-,hi⟩ | ⟨he,-⟩
        · rw [hi] at hr
          exact absurd hr (by decide)
        · have hfile := (sameTable_iff.mp hsame).2 errIno (by decide)
          rw [he, Fs.modify_file, Fs.touch_file, put_self] at hfile
          have hlink := congrArg (fun f => f.metadata.stNlink) hfile
          exact absurd hlink (Nat.succ_ne_self _)
      refine ⟨hcreat,fun hdir => ?_⟩
      obtain ⟨hr,hreg⟩ := hright.made hres hcreat hdir
      rw [Fs.modify_file, Fs.touch_file, resolve_opened] at hr hreg
      rcases unresolved_cases hres with ⟨hz,-⟩ | ⟨he,hi⟩
      · rw [hz, put_self] at hreg
        have hsentinel : (s.file 0).isReg = true := hreg
        simp [(untyped hs.sentinel).2.1] at hsentinel
      · rw [hi, he] at hr
        exact absurd hr (by decide)
    · rintro ⟨hcreat,hdir⟩
      exact ⟨fun hyes => absurd hyes hres,fun _ _ hd => absurd hd hdir,
        fun _ hno => absurd hno hcreat⟩

theorem open_right_run :
    OpensRight (after [.creat ['/','f'] 0o644#32]) ['/','f'] 0 3
      (after [.creat ['/','f'] 0o644#32,.openFile ['/','f'] 0]) := by
  have ha : answer plainEnv (.openFile ['/','f'] 0) (after [.creat ['/','f'] 0o644#32]) =
      some (3,after ([.creat ['/','f'] 0o644#32]++[.openFile ['/','f'] 0])) :=
    answer_after (by decide +kernel) (by decide +kernel)
  exact (open_right_iff (after_session (by decide) (by decide)) (Option.some.inj ha)).mpr
    (by decide +kernel)

/-- Opening a missing path returns 0 and not the error value. -/
theorem missing_path_opened :
    Sessions plainEnv anyCall (after []) ∧
      myOpen plainEnv ['/','x'] 0 (after []) = (0,after [.openFile ['/','x'] 0]) ∧
      ¬ Resolves (after []).file ['/','x'] ∧
      ¬ OpensRight (after []) ['/','x'] 0 0 (after [.openFile ['/','x'] 0]) := by
  have ha : answer plainEnv (.openFile ['/','x'] 0) (after []) =
      some (0,after ([]++[.openFile ['/','x'] 0])) :=
    answer_after (by decide +kernel) (by decide +kernel)
  have hres : ¬ Resolves (after []).file ['/','x'] := by decide +kernel
  refine ⟨after_session (by decide) (by decide),Option.some.inj ha,hres,?_⟩
  intro h
  exact absurd (h.missing hres (by decide)).1 (by decide)

end Bbfs.Opening
