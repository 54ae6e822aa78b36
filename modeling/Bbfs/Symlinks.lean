import Bbfs.Leftovers
import Bbfs.Sizes

/-!
# Making, reading and following links

`my_symlink` returns ok only when the name it was given leads to the new file
itself, whose data then starts with the target. `my_readlink` gives the target
back. `find_ino` reads a target once, through 50 bytes.
-/

set_option autoImplicit false

namespace Bbfs.Symlinks
open Bbfs.Strings Bbfs.Files Bbfs.Resolve Bbfs.Calls Bbfs.Session Bbfs.Walks Bbfs.Effects
open Bbfs.Outcomes Bbfs.Numbers Bbfs.Directories Bbfs.ZeroExtended Bbfs.Contents Bbfs.Sizes
open Bbfs.Leftovers

variable {v w : View} {s s' : Fs} {path link : Str} {f : File} {n P k : ℕ}

theorem entered_entry (hf : Fresh v n) (hP : P ≠ n) {name m : Str} (hd : f.isDir = false)
    (hk : (enterView v n P name f k).isDir = true)
    (h : nameIn (enterView v n P name f) m k = n) : k = P ∧ m = name := by
  have hkn : k ≠ n := by
    rintro rfl
    rw [entered_new hP, hd] at hk
    exact Bool.false_ne_true hk
  rcases nameIn_origin (v := enterView v n P name f) m k with h0 | ⟨-,d,hm,hn,hi⟩
  · rw [h] at h0
    exact absurd h0 hf.ne_zero
  rw [h] at hi
  rcases mem_pushed hm with hold | ⟨hkP,rfl⟩
  · rw [Function.update_of_ne hkn] at hold
    exact absurd hi (hf.unnamed k d hold)
  · exact ⟨hkP,hn.symm⟩

/-- A path that resolves to the file just made leads to it without a link: a
link of that name would be found first, and its target cannot lead to the entry
behind it. -/
theorem real_of_resolve_new (hs : Settled s) (hd : f.isDir = false) (hl : f.isLnk = false)
    (hgo : resolve s.file (parentPath link) ≠ 0 ∧ resolve s.file link = 0)
    (hw : w = enterView s.file s.count (resolve s.file (parentPath link)) (tail link) f)
    (h : resolve w link = s.count) : real w link = s.count := by
  have hfr := hs.fresh
  have hu := untyped hs.sentinel
  have hP := hfr.resolve_ne (parentPath link)
  by_cases hlnk : (w (real w link)).isLnk = false
  · rw [← resolve_not_lnk hlnk]
    exact h
  have hLn : real w link ≠ s.count := by
    intro he
    rw [he, hw, entered_new hP, hl] at hlnk
    exact hlnk rfl
  have hL0 : real w link ≠ 0 := by
    intro he
    have h0 : (w 0).isLnk = false := by
      rw [hw, enterView, File.isLnk, (Edit.push _).put_metadata, Function.update_of_ne
        hfr.ne_zero.symm]
      exact hu.2.2
    rw [he] at hlnk
    exact hlnk h0
  have hold : real w link = real s.file link := by
    rw [hw] at hL0 hLn ⊢
    rcases hfr.real_entered hu.1 f hd hP (tail link) link with hr | ⟨-,hr | hr⟩
    · exact hr
    · exact absurd hr hL0
    · exact absurd hr hLn
  have hne : real s.file link ≠ 0 := hold ▸ hL0
  have ht : tail link ≠ [] := by
    intro ht
    have hsame : resolve s.file link = resolve s.file (parentPath link) := by
      rw [resolve, resolve, real_parentPath hu.1, if_pos ht]
    exact hgo.1 (hsame.symm.trans hgo.2)
  obtain ⟨hdir,hname⟩ := real_found ht hne
  have hparent := resolve_dir hdir
  -- the target leads to the new entry, which is behind the link in its directory
  obtain ⟨t,ht'⟩ : ∃ t, real w t = s.count := by
    rcases resolve_real (v := w) link with he | ⟨t,ht⟩
    · rw [h] at he
      exact absurd he hfr.ne_err
    · exact ⟨t,ht.symm.trans h⟩
  rcases walk_named (v := w) (segments t) 2 with h0 | h2 | ⟨m,k,hk,hm⟩
  · exact absurd (ht'.symm.trans h0) hfr.ne_zero
  · exact absurd (ht'.symm.trans h2) hfr.ne_root
  · have hn : nameIn w m k = s.count := hm.trans ht'
    rw [hw] at hk hn
    obtain ⟨rfl,rfl⟩ := entered_entry hfr hP hd hk hn
    rw [nameIn_extended (entered_isDir hP (tail link) f) (entered_under hP (tail link) f _),
      hparent, hname] at hn
    · exact absurd (hold.trans hn) hLn
    · rw [hparent, hname]
      exact hne

theorem cstr_padded {str pad : Str} (hs : '\x00' ∉ str) (hp : ∀ c ∈ pad, c = '\x00') :
    cstr (str++pad) = str := by
  have hstr : ∀ c ∈ str, decide (c ≠ '\x00') = true := by
    intro c hc
    rw [decide_eq_true_eq]
    exact fun he => hs (he ▸ hc)
  rw [cstr, List.takeWhile_append_of_pos hstr]
  cases pad with
  | nil => simp
  | cons c pad =>
    have hc := hp c List.mem_cons_self
    rw [List.takeWhile_cons_of_neg (by simp [hc]), List.append_nil]

def Holding (str : Str) (f : File) : Prop :=
  f.data.length < 2^31 ∧ ∃ pad, f.data = str++pad ∧ ∀ c ∈ pad, c = '\x00'

theorem holding_overwrite {data str data' : Str} (hz : ∀ c ∈ data, c = '\x00')
    (hs : str.length < 2^64) (h : overwrite data str str.length 0 = some data') :
    data'.length < 2^31 ∧ ∃ pad, data' = str++pad ∧ ∀ c ∈ pad, c = '\x00' := by
  obtain ⟨m,hle,hm,rfl⟩ := overwrite_start hs h
  refine ⟨?_,(resize m data).drop str.length,?_,?_⟩
  · rw [length_splice, length_resize]
    · exact hm
    · rw [length_resize]
      omega
  · rw [splice, List.take_zero, List.nil_append, Nat.zero_add]
  · intro c hc
    exact zeros_resize hz m c (List.mem_of_mem_drop hc)

theorem mySymlink_takes {env : Env} (h : mySymlink env path link s = some (ok,s')) :
    Takes s.file (.symlink path link) := by
  have hok : anErr ≠ ok := by decide
  unfold mySymlink at h
  simp only [findIno_eq] at h
  by_cases hd : IsDots (tail link)
  · rw [if_pos hd] at h
    exact absurd (congrArg Prod.fst (Option.some.inj h)) hok
  by_cases hl : resolve s.file link ≠ 0
  · rw [if_neg hd, if_pos hl] at h
    exact absurd (congrArg Prod.fst (Option.some.inj h)) hok
  · exact ⟨hd,not_not.mp hl⟩

theorem mySymlink_ok {env env' : Env} (h : Sessions env anyCall s) (hc : '\x00' ∉ path)
    (hlen : path.length < 2^64) (ha : mySymlink env' path link s = some (ok,s')) :
    real s'.file link = s.count ∧ s.count ∈ s'.entry ∧ (s'.file s.count).isLnk = true ∧
      (s'.file s.count).metadata.stSize = path.length ∧ Holding path (s'.file s.count) := by
  have hs := sessions_settled h
  have hfr := hs.fresh
  have hok : ok ≠ anErr := by decide
  obtain ⟨-,err,t,hm,hcase⟩ :=
    (mySymlink_cases hs ha).resolve_left (fun hno => hno.1 (mySymlink_takes ha))
  obtain ⟨-,-,hkeys,f,hnew,-,hmk⟩ := myMknod_effect (settled_touch hs _) hm
  have hdata := mknod_data (settled_touch hs _) hm
  simp only [Fs.touch_count, Fs.touch_file] at hkeys hnew hmk hdata
  rcases hcase with ⟨-,hr,-⟩ | ⟨herr,-,hgrown,⟨-,hr,-⟩ | ⟨hres,-,data,how,hv⟩⟩
  · exact absurd hr hok
  · exact absurd hr hok
  obtain ⟨-,hgo,-,hw⟩ := hmk.resolve_left (fun hbad => hok (herr.symm.trans hbad.1))
  have htype : typeBits f.metadata.stMode = S_IFREG := by
    rw [hnew.type]
    decide
  have hreg : f.isReg = true := by
    rw [File.isReg, S_ISREG_eq, htype]
    decide
  have hlink := linkFile_type htype data (cstr path)
  have hfile : s'.file s.count = linkFile data (cstr path) f := by
    rw [hv, put_self, hw, entered_new (hfr.resolve_ne (parentPath link))]
  have hstay : ∀ k, (s'.file k).isDir = (t.file k).isDir ∧
      (s'.file k).dentries = (t.file k).dentries := by
    intro k
    by_cases hk : k = s.count
    · subst hk
      rw [hfile, hw, entered_new (hfr.resolve_ne (parentPath link)), isDir_of_isReg hreg]
      refine ⟨?_,rfl⟩
      rw [File.isDir, S_ISDIR_eq, hlink]
      decide
    · rw [hv, put_of_ne _ _ hk]
      exact ⟨rfl,rfl⟩
  refine ⟨?_,?_,?_,?_,?_⟩
  · rw [real_congr hstay]
    exact real_of_resolve_new hs (isDir_of_isReg hreg) ((type_exclusive f).2 hreg) hgo hw hres
  · exact (hgrown.keys s.count hfr.ne_zero).mpr (Or.inl ((hkeys _ hfr.ne_zero).mp (Or.inl rfl)))
  · rw [hfile, File.isLnk, S_ISLNK_eq, hlink]
    decide
  · rw [hfile, cstr_of_notMem hc]
    rfl
  · rw [hfile]
    rw [cstr_of_notMem hc] at how
    have hzero := (sessions_blank h).spare s.count le_rfl hfr.ne_err
    rw [Zeroed, ← hdata] at hzero
    exact holding_overwrite hzero hlen how

theorem myReadlink_holding {size : ℕ} (hr : real s.file link = k) (h0 : k ≠ 0)
    (hl : (s.file k).isLnk = true) (hc : '\x00' ∉ path) (hh : Holding path (s.file k))
    (hsize : path.length < size) (hu : size < 2^64) :
    (myReadlink link size s).1 = .stored ok path := by
  obtain ⟨hlen,pad,hdata,hpad⟩ := hh
  have hd : (s.file k).isDir = false := isDir_of_isLnk hl
  have hlong : toInt32 (s.file k).data.length = (s.file k).data.length := toInt32_natCast hlen
  have hend : toU64 (0+(size:ℤ)-1) = size-1 := by
    rw [show 0+(size:ℤ)-1 = ((size-1:ℕ):ℤ) by omega, toU64_natCast (by omega)]
  have hwhole : cstr (s.file k).data = path := by
    rw [hdata]
    exact cstr_padded hc hpad
  simp only [myReadlink, findRealIno_eq, hr, h0, if_false, Fs.touch_file, hl, Bool.true_eq_false,
    myPread, hd, Bool.false_eq_true, hlong, toU64_zero, Nat.not_lt_zero, hend, List.drop_zero]
  rw [if_neg (by omega), toU64_natCast (by omega)]
  by_cases hshort : (s.file k).data.length < size-1
  · have hret : toInt32 (((s.file k).data.length:ℤ)-0) ≠ anErr := by
      rw [sub_zero, hlong, anErr]
      omega
    rw [if_pos hshort, hwhole]
    simp only [if_neg hret]
  · have hret : toInt32 (size:ℤ) ≠ anErr := by
      obtain ⟨q,hq⟩ := toInt32_add (size:ℤ)
      rw [anErr]
      omega
    have htake : (s.file k).data.take size = path++pad.take (size-path.length) := by
      rw [hdata, List.take_append, List.take_of_length_le (by omega)]
    rw [if_neg hshort, htake, cstr_padded hc (fun c hmem => hpad c (List.mem_of_mem_take hmem))]
    simp only [if_neg hret]

def target (f : File) : Str := cstr f.data

def PATH_MAX : ℕ := 4096

/-- The chain of targets that starts at a file ends at the file `f`, which is no
link. -/
inductive Leads (v : View) (f : ℕ) : ℕ → Prop
  | here (file : (v f).isLnk = false) : Leads v f f
  | hop {k : ℕ} (lnk : (v k).isLnk = true) (short : (target (v k)).length < PATH_MAX)
      (next : Leads v f (real v (target (v k)))) : Leads v f k

/-- The whole target is read and leads to no further link; or 50 bytes of a
longer one are read and lead to `f` as well; or the data is too long for an
`int` and `f` is the error handle. -/
def OneHop (v : View) (k f : ℕ) : Prop :=
  if toInt32 (v k).data.length < 0 then f = errIno
  else if toInt32 (v k).data.length < 49 ∨ (target (v k)).length ≤ 50 then
    (v (real v (target (v k)))).isLnk = false
  else real v ((target (v k)).take 50) = f

instance (v : View) (k f : ℕ) : Decidable (OneHop v k f) := by
  unfold OneHop
  infer_instance

theorem Leads.end_file {f : ℕ} (h : Leads v f k) : (v f).isLnk = false := by
  induction h with
  | here file => exact file
  | hop lnk short next ih => exact ih

theorem Leads.next {f : ℕ} (h : Leads v f k) (hl : (v k).isLnk = true) :
    Leads v f (real v (target (v k))) := by
  cases h with
  | here file => exact absurd (file.symm.trans hl) Bool.false_ne_true
  | hop lnk short next => exact next

theorem Leads.real_target_iff {f : ℕ} (h : Leads v f k) (hl : (v k).isLnk = true) :
    real v (target (v k)) = f ↔ (v (real v (target (v k)))).isLnk = false := by
  constructor
  · intro he
    rw [he]
    exact h.end_file
  · intro hfile
    cases h.next hl with
    | here => rfl
    | hop lnk => exact absurd (hfile.symm.trans lnk) Bool.false_ne_true

theorem linkText_eq (f : File) : linkText f =
    if toInt32 f.data.length < 0 then none
    else if toInt32 f.data.length < 49 ∨ (target f).length ≤ 50 then some (target f)
    else some ((target f).take 50) := by
  have hrange := toInt32_range f.data.length
  unfold linkText target
  by_cases hneg : toInt32 f.data.length < 0
  · rw [if_pos hneg, if_pos hneg]
  have hcut : cstr (f.data.take 50) = (cstr f.data).take 50 := List.take_takeWhile.symm
  rw [if_neg hneg, if_neg hneg, hcut]
  have hsmall : toU64 (toInt32 f.data.length) < 49 ↔ toInt32 f.data.length < 49 := by
    rw [toU64]
    omega
  by_cases h49 : toInt32 f.data.length < 49
  · rw [if_pos (hsmall.mpr h49), if_pos (Or.inl h49)]
  · rw [if_neg (fun h => h49 (hsmall.mp h))]
    by_cases h50 : (cstr f.data).length ≤ 50
    · rw [if_pos (Or.inr h50), List.take_of_length_le h50]
    · rw [if_neg (fun h => h.elim h49 h50)]

/-- In every state of a session, `find_ino` gives the end of the chain of
targets exactly when the chain has one link whose target is read whole, up to
the two coincidences that `OneHop` names. -/
theorem findIno_follows_iff {env : Env} {f : ℕ} (h : Sessions env anyCall s)
    (hl : (s.file (real s.file path)).isLnk = true) (hf : Leads s.file f (real s.file path)) :
    (findIno path s).1 = f ↔ OneHop s.file (real s.file path) f := by
  have h0 : real s.file path ≠ 0 := by
    intro hz
    rw [hz, (untyped (sessions_settled h).sentinel).2.2] at hl
    exact Bool.false_ne_true hl
  have hvalue : (findIno path s).1 =
      (linkText (s.file (real s.file path))).elim errIno (real s.file) := by
    rw [findIno_eq, resolve, follow, if_pos hl, if_neg h0]
  rw [hvalue, linkText_eq, OneHop]
  split_ifs
  · exact eq_comm
  · exact hf.real_target_iff hl
  · exact Iff.rfl

theorem findIno_follows_run : (findIno ['/','s']
    (after [.creat ['/','f'] 0o644#32,.symlink ['/','f'] ['/','s']])).1 = 3 := by
  have hf : Leads (after [.creat ['/','f'] 0o644#32,.symlink ['/','f'] ['/','s']]).file 3
      (real (after [.creat ['/','f'] 0o644#32,.symlink ['/','f'] ['/','s']]).file ['/','s']) := by
    apply Leads.hop (by decide +kernel) (by decide +kernel)
    have hnext : real (after [.creat ['/','f'] 0o644#32,.symlink ['/','f'] ['/','s']]).file
        (target ((after [.creat ['/','f'] 0o644#32,.symlink ['/','f'] ['/','s']]).file
          (real (after [.creat ['/','f'] 0o644#32,.symlink ['/','f'] ['/','s']]).file
            ['/','s']))) = 3 := by decide +kernel
    rw [hnext]
    exact Leads.here (by decide +kernel)
  exact (findIno_follows_iff (after_session (by decide) (by decide)) (by decide +kernel) hf).mpr
    (by decide +kernel)

def longPath : Str := List.replicate 50 '/'++['f']

/-- A target of 51 bytes loses its last one, and leads to the root. -/
theorem long_target_cut :
    Sessions plainEnv anyCall (after [.creat ['/','f'] 0o644#32,.symlink longPath ['/','s']]) ∧
      real (after [.creat ['/','f'] 0o644#32,.symlink longPath ['/','s']]).file ['/','s'] = 4 ∧
      ((after [.creat ['/','f'] 0o644#32,.symlink longPath ['/','s']]).file 4).isLnk = true ∧
      Leads (after [.creat ['/','f'] 0o644#32,.symlink longPath ['/','s']]).file 3 4 ∧
      (findIno ['/','s']
        (after [.creat ['/','f'] 0o644#32,.symlink longPath ['/','s']])).1 = 2 := by
  have hl : ((after [.creat ['/','f'] 0o644#32,.symlink longPath ['/','s']]).file 4).isLnk =
      true := by decide +kernel
  refine ⟨after_session (by decide +kernel) (by decide +kernel),by decide +kernel,hl,?_,
    by decide +kernel⟩
  apply Leads.hop hl (by decide +kernel)
  have hnext : real (after [.creat ['/','f'] 0o644#32,.symlink longPath ['/','s']]).file
      (target ((after [.creat ['/','f'] 0o644#32,.symlink longPath ['/','s']]).file 4)) = 3 := by
    decide +kernel
  rw [hnext]
  exact Leads.here (by decide +kernel)

end Bbfs.Symlinks
