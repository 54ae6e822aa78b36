import Bbfs.Numbers
import Bbfs.Contents

/-!
# Setting, reading and removing an extended attribute

`my_lsetxattr` and `my_lgetxattr` take the file itself, `my_lremovexattr`
follows a final link, and the value found is not copied to the caller.
-/

set_option autoImplicit false

namespace Bbfs.Attributes
open Bbfs.Strings Bbfs.Files Bbfs.Resolve Bbfs.Calls Bbfs.Session Bbfs.Walks Bbfs.InsertingMap
open Bbfs.Runs Bbfs.Outcomes Bbfs.Contents

variable {s s' : Fs} {p n x buf : Str}

/-- The link at the end of the path, if there is one, leads back to itself. -/
def LinksBack (v : View) (p : Str) : Prop :=
  (v (real v p)).isLnk = true → (linkText (v (real v p))).elim errIno (real v) = real v p

instance (v : View) (p : Str) : Decidable (LinksBack v p) := inferInstanceAs (Decidable (_ → _))

theorem linksBack_iff {v : View} (h : real v p ≠ 0) : LinksBack v p ↔ resolve v p = real v p := by
  rw [LinksBack, resolve, follow, if_neg h]
  by_cases hl : (v (real v p)).isLnk = true
  · simp [hl]
  · simp [hl]

def Stored (buf x : Str) : Prop := (x++['\x00']) <+: buf

instance (buf x : Str) : Decidable (Stored buf x) := inferInstanceAs (Decidable (_ <+: _))

theorem myLsetxattr_ok (h : myLsetxattr p n x s = (ok,s')) :
    real s.file p ≠ 0 ∧ n ∉ (s.file (real s.file p)).xattr ∧ real s.file p ∈ s'.entry ∧
      s'.file = put s.file (real s.file p) (mySetXattr n x) := by
  simp only [myLsetxattr, findRealIno_eq, Fs.touch_file] at h
  split_ifs at h with h0 hn
  · exact absurd (congrArg Prod.fst h) err_ne_ok
  · exact absurd (congrArg Prod.fst h) err_ne_ok
  · obtain ⟨-,rfl⟩ := Prod.mk.inj h
    exact ⟨h0,hn,mem_modify.mpr (Or.inl rfl),by simp⟩

theorem resolve_mySetXattr (v : View) (k : ℕ) (q : Str) :
    resolve (put v k (mySetXattr n x)) q = resolve v q ∧
      real (put v k (mySetXattr n x)) q = real v q := by
  have hsame : ∀ i, (put v k (mySetXattr n x) i).metadata = (v i).metadata ∧
      (put v k (mySetXattr n x) i).data = (v i).data ∧
      (put v k (mySetXattr n x) i).dentries = (v i).dentries := by
    intro i
    by_cases hi : i = k
    · subst hi
      rw [put_self]
      exact ⟨rfl,rfl,rfl⟩
    · rw [put_of_ne _ _ hi]
      exact ⟨rfl,rfl,rfl⟩
  have hdir : ∀ i, (put v k (mySetXattr n x) i).isDir = (v i).isDir ∧
      (put v k (mySetXattr n x) i).dentries = (v i).dentries :=
    fun i => ⟨by rw [File.isDir, (hsame i).1, File.isDir],(hsame i).2.2⟩
  have hlnk : ∀ i, (put v k (mySetXattr n x) i).isLnk = (v i).isLnk ∧
      ((v i).isLnk = true → (put v k (mySetXattr n x) i).data = (v i).data) :=
    fun i => ⟨by rw [File.isLnk, (hsame i).1, File.isLnk],fun _ => (hsame i).2.1⟩
  exact ⟨resolve_congr hdir hlnk q,real_congr hdir q⟩

/-- After the attribute is set, it is read back and removed. -/
structure RoundTrip (p n x buf : Str) (s s' : Fs) : Prop where
  length : (myLgetxattr p n buf s').1.1 = x.length
  value : Stored (myLgetxattr p n buf s').1.2 x
  removed : (myLremovexattr p n (myLgetxattr p n buf s').2).1 = ok
  restored : ∀ i, ((myLremovexattr p n (myLgetxattr p n buf s').2).2.file i).xattr =
    (s.file i).xattr

theorem myLgetxattr_set (hx : '\x00' ∉ x) (h : myLsetxattr p n x s = (ok,s')) (buf : Str) :
    myLgetxattr p n buf s' = ((toInt32 x.length,buf),s') := by
  obtain ⟨h0,-,hmem,hfile⟩ := myLsetxattr_ok h
  have hreal : real s'.file p = real s.file p := by
    rw [hfile]
    exact (resolve_mySetXattr s.file _ p).2
  have hlookup : (s'.file (real s.file p)).xattr.lookup n = some x := by
    rw [hfile, put_self]
    exact Finmap.lookup_insert _
  simp only [myLgetxattr, findRealIno_eq, hreal, if_neg h0, Fs.touch_of_mem hmem, hlookup,
    cstr_of_notMem hx]

theorem xattr_erase_insert (m : Finmap (fun _ : Str => Str)) (hn : n ∉ m) :
    (m.insert n x).erase n = m := by
  apply Finmap.ext_lookup
  intro a
  by_cases ha : a = n
  · subst ha
    rw [Finmap.lookup_erase, Finmap.lookup_eq_none.mpr hn]
  · rw [Finmap.lookup_erase_ne ha, Finmap.lookup_insert_of_ne _ ha]

/-- The removal undoes the setting exactly if it reaches the same file. -/
theorem myLremovexattr_set (h : myLsetxattr p n x s = (ok,s')) :
    (myLremovexattr p n s').1 = ok ∧
        (∀ i, ((myLremovexattr p n s').2.file i).xattr = (s.file i).xattr) ↔
      resolve s.file p = real s.file p := by
  obtain ⟨h0,hn,hmem,hfile⟩ := myLsetxattr_ok h
  obtain ⟨hresolve,hreal⟩ := resolve_mySetXattr (n := n) (x := x) s.file (real s.file p) p
  rw [← hfile] at hresolve hreal
  have hset : (s'.file (real s.file p)).xattr = (s.file (real s.file p)).xattr.insert n x := by
    rw [hfile, put_self]
    rfl
  simp only [myLremovexattr, findIno_eq, hresolve, hreal, Fs.touch_of_mem hmem, Fs.touch_file]
  constructor
  · rintro ⟨hok,hback⟩
    by_contra hne
    -- the attribute of the file itself is still there
    have hstill : ∀ t : Fs, t.file (real s.file p) = s'.file (real s.file p) →
        (t.file (real s.file p)).xattr ≠ (s.file (real s.file p)).xattr := by
      intro t ht he
      rw [ht, hset] at he
      exact hn (he ▸ Finmap.mem_insert.mpr (Or.inl rfl))
    split_ifs at hok hback with hz hmem'
    · exact absurd hok err_ne_ok
    · refine hstill _ ?_ (hback (real s.file p))
      rw [Fs.modify_file, put_of_ne _ _ (Ne.symm hne), Fs.touch_file]
    · exact absurd hok err_ne_ok
  · intro he
    have hin : n ∈ (s'.file (real s.file p)).xattr := by
      rw [hset]
      exact Finmap.mem_insert.mpr (Or.inl rfl)
    rw [he, if_neg h0, if_pos hin]
    apply And.intro rfl
    intro i
    by_cases hi : i = real s.file p
    · subst hi
      rw [Fs.modify_file, Fs.touch_file, put_self, hset]
      exact xattr_erase_insert _ hn
    · rw [Fs.modify_file, Fs.touch_file, put_of_ne _ _ hi, hfile, put_of_ne _ _ hi]

/-- The three calls agree exactly when the caller's array held the value
before, the length fits an `int`, and the path ends at no link but one that
leads back to itself. -/
theorem attribute_round_trip_iff (hx : '\x00' ∉ x) (hset : myLsetxattr p n x s = (ok,s')) :
    RoundTrip p n x buf s s' ↔ Stored buf x ∧ x.length < 2^31 ∧ LinksBack s.file p := by
  have hget := myLgetxattr_set hx hset buf
  have hrem := myLremovexattr_set hset
  rw [linksBack_iff (myLsetxattr_ok hset).1, ← hrem, ← toInt32_eq_iff]
  constructor
  · intro hr
    have hlen : toInt32 x.length = x.length := by simpa only [hget] using hr.length
    have hval : Stored buf x := by simpa only [hget] using hr.value
    have hok := hr.removed
    have hback := hr.restored
    rw [hget] at hok hback
    exact ⟨hval,hlen,hok,hback⟩
  · rintro ⟨hval,hlen,hok,hback⟩
    constructor
    · simpa only [hget] using hlen
    · simpa only [hget] using hval
    · simpa only [hget] using hok
    · simpa only [hget] using hback

def madeFile : List Call := [.creat ['/','f'] 0o644#32]

def attributed : List Call := madeFile++[.lsetxattr ['/','f'] ['n'] ['v']]

theorem madeFile_set :
    myLsetxattr ['/','f'] ['n'] ['v'] (after madeFile) = (ok,after attributed) := by
  have hset : answer plainEnv (.lsetxattr ['/','f'] ['n'] ['v']) (after madeFile) =
      some (ok,after attributed) := answer_after (by decide +kernel) (by decide +kernel)
  exact Option.some.inj hset

theorem attribute_round_trip_stored :
    RoundTrip ['/','f'] ['n'] ['v'] ['v','\x00'] (after madeFile) (after attributed) :=
  (attribute_round_trip_iff (by decide) madeFile_set).mpr
    ⟨by decide,by decide,by decide +kernel⟩

theorem attribute_round_trip_fails :
    ¬ ∀ (env : Env) (s s' : Fs) (p n x buf : Str), Sessions env anyCall s → '\x00' ∉ n →
      '\x00' ∉ x → n ∉ (s.file (real s.file p)).xattr → x.length < buf.length →
      myLsetxattr p n x s = (ok,s') → RoundTrip p n x buf s s' := by
  intro hall
  have hsession : Sessions plainEnv anyCall (after madeFile) :=
    after_session (by decide +kernel) (meets_of_forall (fun _ _ => trivial) _ _)
  have hget := myLgetxattr_set (by decide) madeFile_set ['x','x']
  have hround := hall plainEnv (after madeFile) (after attributed) ['/','f'] ['n'] ['v'] ['x','x']
    hsession (by decide) (by decide) (myLsetxattr_ok madeFile_set).2.1 (by decide) madeFile_set
  have hval := hround.value
  rw [hget] at hval
  exact absurd hval (by decide)

end Bbfs.Attributes
