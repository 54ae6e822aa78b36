import Bbfs.Leftovers
import Bbfs.Sizes

/-!
# Reading and writing at an offset

`my_pread` compares the length, an `int`, with an unsigned end of the range, and
copies with `strcpy`; `my_pwrite` grows the string by the size of every write.
Both are held here against the calls of the C library, with offsets and sizes as
64-bit words.
-/

set_option autoImplicit false

namespace Bbfs.Bytes
open Bbfs.InsertingMap
open Bbfs.Strings Bbfs.Files Bbfs.Resolve Bbfs.Calls Bbfs.Session Bbfs.Walks Bbfs.Effects
open Bbfs.Outcomes Bbfs.Numbers Bbfs.ZeroExtended Bbfs.Contents Bbfs.Sizes Bbfs.Leftovers

variable {data bytes buf : Str} {s : Fs} {fh size off : ℕ} {offset : ℤ}

def readOut (data : Str) (size : ℕ) (offset : ℤ) : ReadOut :=
  if toInt32 data.length < offset then .failed
  else if data.length < toU64 offset then .threw
  else if toU64 (toInt32 data.length) < toU64 (offset+size-1) then
    .stored (toInt32 (toInt32 data.length-offset)) (cstr (data.drop (toU64 offset)))
  else .stored (toInt32 size) (cstr ((data.drop (toU64 offset)).take size))

def requested (data : Str) (size off : ℕ) : Str := (data.drop off).take size

/-- The bytes are stored, with at most one NUL behind them, and counted. -/
def Delivers (bytes : Str) (out : ReadOut) : Prop :=
  ∃ buf, out = .stored bytes.length buf ∧ (buf++['\x00'] = bytes ∨ buf = bytes)

def NoBytes (out : ReadOut) : Prop := out = .failed ∨ out = .stored 0 []

def ReadsExactly (data : Str) (size : ℕ) (offset : ℤ) (out : ReadOut) : Prop :=
  if 0 ≤ offset ∧ offset ≤ data.length then Delivers (requested data size offset.toNat) out
  else NoBytes out

/-- Within the file: the length as an `int` covers the offset; an empty range at
offset 0 is asked of an empty file; the end of the range does not wrap; a range
that ends more than one byte behind the `int` length finds it to be the length,
any other one ends within the file; and no requested byte but the last is NUL. -/
def Readable (data : Str) (size off : ℕ) : Prop :=
  off ≤ toInt32 data.length ∧
    (off+size = 0 → toInt32 data.length = 0 ∧ cstr data = []) ∧ off+size ≤ 2^64 ∧
    (0 < off+size → if toInt32 data.length < off+size-1 then toInt32 data.length = data.length
      else off+size ≤ data.length ∧ size < 2^31) ∧
    '\x00' ∉ (requested data size off).dropLast

instance (data : Str) (size off : ℕ) : Decidable (Readable data size off) :=
  inferInstanceAs (Decidable (_ ∧ _))

/-- Before the file, only a length that is negative as an `int` is refused;
within it, the range is readable; behind it, every range is. -/
def ReadsWell (data : Str) (size : ℕ) (offset : ℤ) : Prop :=
  if offset < 0 then toInt32 data.length < offset
  else offset ≤ data.length → Readable data size offset.toNat

instance (data : Str) (size : ℕ) (offset : ℤ) : Decidable (ReadsWell data size offset) := by
  unfold ReadsWell
  infer_instance

theorem myPread_eq (hd : (s.file fh).isDir = false) (size : ℕ) (offset : ℤ) :
    (myPread fh size offset s).1 = readOut (s.file fh).data size offset := by
  simp only [myPread, readOut, Fs.touch_file, hd, Bool.false_eq_true, if_false]
  split_ifs <;> rfl

theorem length_requested (data : Str) (size off : ℕ) :
    (requested data size off).length = min size (data.length-off) := by
  rw [requested, List.length_take, List.length_drop]

theorem cstr_whole_iff (bytes : Str) :
    cstr bytes++['\x00'] = bytes ∨ cstr bytes = bytes ↔ '\x00' ∉ bytes.dropLast := by
  have hfree : '\x00' ∉ cstr bytes := by
    intro hmem
    have htrue := List.mem_takeWhile_imp hmem
    simp at htrue
  constructor
  · rintro (h | h) hmem
    · rw [← h, List.dropLast_concat] at hmem
      exact hfree hmem
    · rw [← h] at hmem
      exact hfree (List.mem_of_mem_dropLast hmem)
  · intro h
    rcases List.eq_nil_or_concat bytes with rfl | ⟨init,c,rfl⟩
    · exact Or.inr rfl
    rw [List.concat_eq_append] at h ⊢
    rw [List.dropLast_concat] at h
    have hinit : ∀ a ∈ init, decide (a ≠ '\x00') = true := by
      intro a ha
      rw [decide_eq_true_eq]
      exact fun he => h (he ▸ ha)
    rw [cstr, List.takeWhile_append_of_pos hinit]
    by_cases hc : c = '\x00'
    · subst hc
      left
      simp
    · right
      simp [hc]

theorem delivers_stored {ret : ℤ} : Delivers bytes (.stored ret buf) ↔
    ret = bytes.length ∧ (buf++['\x00'] = bytes ∨ buf = bytes) := by
  constructor
  · rintro ⟨b,he,hb⟩
    cases he
    exact ⟨rfl,hb⟩
  · rintro ⟨rfl,hb⟩
    exact ⟨buf,rfl,hb⟩

theorem not_delivers_failed : ¬ Delivers bytes .failed := by
  rintro ⟨b,he,-⟩
  cases he

theorem toInt32_le (n : ℕ) : toInt32 n ≤ n := by
  obtain ⟨q,hq⟩ := toInt32_add (n:ℤ)
  have hrange := toInt32_range n
  omega

theorem rest_counted {F : ℕ} (data : Str) (hF : F < 2^31) (hle : F ≤ data.length)
    (hoff : off ≤ F) (hlong : F < off+size-1) :
    toInt32 ((F:ℤ)-off) = (requested data size off).length ↔ F = data.length := by
  have hret : toInt32 ((F:ℤ)-off) = (F-off : ℕ) := by
    rw [show (F:ℤ)-off = ((F-off:ℕ):ℤ) by omega, toInt32_natCast (by omega)]
  rw [hret, length_requested]
  omega

theorem range_counted {F : ℕ} (data : Str) (size : ℕ) (hF : F < 2^31) (hle : F ≤ data.length)
    (hoff : off ≤ F) (hshort : off+size ≤ F+1) :
    toInt32 (size:ℤ) = (requested data size off).length ↔
      off+size ≤ data.length ∧ size < 2^31 := by
  have hrange := toInt32_range size
  rw [length_requested]
  by_cases hs : size < 2^31
  · rw [toInt32_natCast hs]
    omega
  · obtain ⟨q,hq⟩ := toInt32_add (size:ℤ)
    omega

theorem wrapped_negative (off : ℕ) (hoff : off < 2^31) (hsize : size < 2^64)
    (hwrap : 2^64 < off+size) : toInt32 (size:ℤ) < 0 := by
  obtain ⟨q,hq⟩ := toInt32_add (size:ℤ)
  have hrange := toInt32_range size
  omega

theorem delivers_iff (hcover : off ≤ toInt32 data.length) (hsize : size < 2^64) :
    Delivers (requested data size off) (readOut data size off) ↔ Readable data size off := by
  have hrange := toInt32_range data.length
  have hle := toInt32_le data.length
  have hat : toU64 (off:ℤ) = off := toU64_natCast (by omega)
  obtain ⟨F,hF⟩ : ∃ F : ℕ, toInt32 data.length = F := ⟨_,(Int.toNat_of_nonneg (by omega)).symm⟩
  have hu : toU64 (F:ℤ) = F := toU64_natCast (by omega)
  unfold readOut Readable
  rw [hat]
  simp only [hF] at hle hcover hrange ⊢
  rw [hu, if_neg (by omega), if_neg (by omega)]
  by_cases hzero : off+size = 0
  · obtain ⟨rfl,rfl⟩ : off = 0 ∧ size = 0 := by omega
    have hend : toU64 (((0:ℕ):ℤ)+(0:ℕ)-1) = 2^64-1 := by decide
    have hret : toInt32 ((F:ℤ)-(0:ℕ)) = F := by
      rw [Nat.cast_zero, sub_zero, toInt32_natCast (by omega)]
    rw [hend, if_pos (by omega), delivers_stored, hret]
    simp [requested]
  by_cases hwrap : off+size ≤ 2^64
  · have hend : toU64 ((off:ℤ)+size-1) = off+size-1 := by
      rw [show (off:ℤ)+size-1 = ((off+size-1:ℕ):ℤ) by omega, toU64_natCast (by omega)]
    rw [hend]
    by_cases hlong : F < off+size-1
    · have hiff := rest_counted data (by omega) (by omega) (by omega) hlong
      rw [if_pos hlong, delivers_stored, hiff, if_pos (by omega : (F:ℤ) < off+size-1)]
      have hall : F = data.length → data.drop off = requested data size off := by
        intro hlen
        rw [requested, List.take_of_length_le (by rw [List.length_drop]; omega)]
      constructor
      · rintro ⟨hlen,hcopy⟩
        rw [hall hlen, cstr_whole_iff] at hcopy
        exact ⟨hcover,fun h => absurd h hzero,hwrap,fun _ => congrArg Nat.cast hlen,hcopy⟩
      · rintro ⟨-,-,-,hlen,hplain⟩
        have hlen' : F = data.length := Int.ofNat_inj.mp (hlen (by omega))
        rw [hall hlen', cstr_whole_iff]
        exact ⟨hlen',hplain⟩
    · have hiff := range_counted data size (by omega) (by omega)
        (by omega : off ≤ F) (by omega)
      rw [if_neg hlong, delivers_stored, hiff, ← requested, cstr_whole_iff,
        if_neg (by omega : ¬ (F:ℤ) < off+size-1)]
      constructor
      · rintro ⟨hin,hplain⟩
        exact ⟨hcover,fun h => absurd h hzero,hwrap,fun _ => hin,hplain⟩
      · rintro ⟨-,-,-,hin,hplain⟩
        exact ⟨hin (by omega),hplain⟩
  · have hend : toU64 ((off:ℤ)+size-1) = off+size-1-2^64 := by
      rw [toU64]
      omega
    have hneg := wrapped_negative off (by omega) hsize (by omega)
    rw [hend, if_neg (by omega), delivers_stored]
    constructor
    · intro h
      omega
    · intro h
      exact absurd h.2.2.1 hwrap

theorem readsExactly_iff (size offset : BitVec 64) (hdata : data.length < 2^63) :
    ReadsExactly data size.toNat offset.toInt (readOut data size.toNat offset.toInt) ↔
      ReadsWell data size.toNat offset.toInt := by
  have hsize := size.isLt
  have hlow := BitVec.le_two_mul_toInt (x := offset)
  have hhigh := BitVec.two_mul_toInt_lt (x := offset)
  have hle := toInt32_le data.length
  generalize offset.toInt = o at hlow hhigh ⊢
  unfold ReadsExactly ReadsWell
  by_cases hneg : o < 0
  · rw [if_neg (by omega), if_pos hneg, readOut]
    have hu : data.length < toU64 o := by
      rw [toU64]
      omega
    by_cases hlt : toInt32 data.length < o
    · rw [if_pos hlt]
      exact iff_of_true (Or.inl rfl) hlt
    · rw [if_neg hlt, if_pos hu]
      refine iff_of_false ?_ hlt
      rintro (h | h)
      · cases h
      · cases h
  obtain ⟨off,rfl⟩ : ∃ off : ℕ, o = off := ⟨o.toNat,(Int.toNat_of_nonneg (by omega)).symm⟩
  rw [if_neg hneg, Int.toNat_natCast]
  by_cases hin : (off:ℤ) ≤ data.length
  · rw [if_pos ⟨by omega,hin⟩]
    by_cases hcover : off ≤ toInt32 data.length
    · rw [delivers_iff hcover hsize]
      exact ⟨fun h _ => h,fun h => h hin⟩
    · rw [readOut, if_pos (by omega)]
      exact iff_of_false not_delivers_failed (fun h => hcover (h hin).1)
  · rw [if_neg (fun h => hin h.2), readOut, if_pos (by omega)]
    exact iff_of_true (Or.inl rfl) (fun h => absurd h hin)

/-- Of a handle that denotes no file, one byte at offset 0 is counted as read,
and a negative offset leaves with an exception. -/
theorem noBytes_iff (size offset : BitVec 64) :
    NoBytes (readOut [] size.toNat offset.toInt) ↔
      0 ≤ offset.toInt ∧ ¬ (offset.toInt = 0 ∧ size.toNat = 1) := by
  have hsize := size.isLt
  have hlow := BitVec.le_two_mul_toInt (x := offset)
  have hhigh := BitVec.two_mul_toInt_lt (x := offset)
  generalize offset.toInt = o at hlow hhigh ⊢
  generalize size.toNat = m at hsize ⊢
  have hlen : toInt32 (([]:Str).length:ℤ) = 0 := by decide
  unfold readOut NoBytes
  rw [hlen, List.length_nil, toU64_zero]
  rcases lt_trichotomy o 0 with hneg | rfl | hpos
  · have hu : 0 < toU64 o := by
      rw [toU64]
      omega
    rw [if_neg (by omega), if_pos hu]
    simp [hneg]
  · rw [toU64_zero, if_neg (lt_irrefl 0), if_neg (lt_irrefl 0)]
    by_cases hone : m = 1
    · subst hone
      have hend : ¬ 0 < toU64 (0+((1:ℕ):ℤ)-1) := by decide
      have hret : toInt32 1 ≠ 0 := by decide
      rw [if_neg hend]
      simp [hret]
    · have hend : 0 < toU64 (0+(m:ℤ)-1) := by
        rw [toU64]
        omega
      rw [if_pos hend]
      simp [hone]
      decide
  · rw [if_pos hpos]
    simp only [true_or, true_iff]
    omega

/-- In every state of a session, a read of a regular file delivers exactly the
requested bytes when it reads well; a read of a handle that denotes no file
delivers none unless it is of one byte at offset 0 or at a negative offset. -/
theorem pread_exact_iff {env : Env} (h : Sessions env anyCall s) (fh : ℕ)
    (size offset : BitVec 64) :
    ((s.file fh).isReg = true → (s.file fh).data.length < 2^63 →
      (ReadsExactly (s.file fh).data size.toNat offset.toInt
          (myPread fh size.toNat offset.toInt s).1 ↔
        ReadsWell (s.file fh).data size.toNat offset.toInt)) ∧
    (fh = 0 ∨ fh ∉ s.entry → (NoBytes (myPread fh size.toNat offset.toInt s).1 ↔
      0 ≤ offset.toInt ∧ ¬ (offset.toInt = 0 ∧ size.toNat = 1))) := by
  constructor
  · intro hr hdata
    rw [myPread_eq (isDir_of_isReg hr)]
    exact readsExactly_iff size offset hdata
  · intro hnone
    have hempty : (s.file fh).isDir = false ∧ (s.file fh).data = [] := by
      rcases hnone with rfl | hout
      · exact ⟨(untyped (sessions_settled h).sentinel).1,(sessions_blank h).sentinel⟩
      · rw [Fs.file, read_of_notMem hout]
        exact ⟨File.default_isDir,rfl⟩
    rw [myPread_eq hempty.1, hempty.2]
    exact noBytes_iff size offset

theorem pread_exact_run :
    ReadsExactly ((after [.creat ['/','f'] 0o644#32,.pwrite 3 ['a','b','c'] 3 0]).file 3).data
      2 1 (myPread 3 2 1 (after [.creat ['/','f'] 0o644#32,.pwrite 3 ['a','b','c'] 3 0])).1 :=
  ((pread_exact_iff (after_session (by decide +kernel) (by decide +kernel)) 3 2 1).1
    (by decide +kernel) (by decide +kernel)).mpr (by decide +kernel)

/-- A read of no bytes counts and copies the whole file. -/
theorem empty_read_copies_all :
    Sessions plainEnv anyCall (after [.creat ['/','f'] 0o644#32,.pwrite 3 ['a','b','c'] 3 0]) ∧
      (myPread 3 0 0 (after [.creat ['/','f'] 0o644#32,.pwrite 3 ['a','b','c'] 3 0])).1 =
        .stored 3 ['a','b','c'] ∧
      ¬ ReadsExactly
        ((after [.creat ['/','f'] 0o644#32,.pwrite 3 ['a','b','c'] 3 0]).file 3).data 0 0
        (.stored 3 ['a','b','c']) := by
  refine ⟨after_session (by decide +kernel) (by decide +kernel),by decide +kernel,?_⟩
  rw [ReadsExactly, if_pos ⟨le_rfl,Int.natCast_nonneg _⟩]
  rintro ⟨buf,he,-⟩
  cases he

/-- What the C library's `pwrite` leaves of the data. -/
structure GlibcWrite (old new buf : Str) (off : ℕ) : Prop where
  length : new.length = max old.length (off+buf.length)
  written : (new.drop off).take buf.length = buf
  gap : ∀ i, old.length ≤ i → i < off → new[i]? = some '\x00'
  rest : ∀ i, i < old.length → i < off ∨ off+buf.length ≤ i → new[i]? = old[i]?

theorem splice_end (data buf : Str) :
    splice (resize (data.length+buf.length) data) data.length buf = data++buf := by
  have htake : (resize (data.length+buf.length) data).take data.length = data := by
    rw [resize, List.take_of_length_le (Nat.le_add_right _ _), List.take_left]
  have hdrop : (resize (data.length+buf.length) data).drop (data.length+buf.length) = [] :=
    List.drop_of_length_le (length_resize _ _).le
  rw [splice, htake, hdrop, List.append_nil]

theorem glibcWrite_append (data buf : Str) : GlibcWrite data (data++buf) buf data.length where
  length := by
    rw [List.length_append]
    omega
  written := by
    rw [List.drop_left, List.take_length]
  gap := by
    intro i hlo hhi
    omega
  rest := by
    intro i hi _
    exact List.getElem?_append_left hi

theorem appended_of_length {data' : Str} {size : ℕ} (hpos : 0 < size)
    (hnew : (data'.length:ℤ) = toInt32 (data.length+size))
    (hmax : data'.length = max data.length (off+size)) :
    off = data.length ∧ data.length+size < 2^31 := by
  obtain ⟨q,hq⟩ := toInt32_add ((data.length:ℤ)+size)
  have hrange := toInt32_range ((data.length:ℤ)+size)
  omega

/-- In every state of a session, a write to a regular file gives what the C
library gives exactly when it is an append that stays within an `int`. -/
theorem pwrite_glibc_iff {env : Env} (h : Sessions env anyCall s)
    (hr : (s.file fh).isReg = true) (hne : buf ≠ []) (hnul : '\x00' ∉ buf) (offset : BitVec 64)
    (ho : 0 ≤ offset.toInt) :
    (∃ r s', myPwrite fh buf buf.length offset.toInt s = some (r,s') ∧
      GlibcWrite (s.file fh).data (s'.file fh).data buf offset.toInt.toNat) ↔
    offset.toInt = (s.file fh).data.length ∧ (s.file fh).data.length+buf.length < 2^31 := by
  have h0 : fh ≠ 0 := by
    rintro rfl
    simp [(untyped (sessions_settled h).sentinel).2.1] at hr
  have hpos := List.length_pos_of_ne_nil hne
  constructor
  · rintro ⟨r,s',hw,hg⟩
    rcases myPwrite_some hw with ⟨hbad,-,-⟩ | ⟨-,-,-,data',how,rfl⟩
    · simp [h0, hr] at hbad
    rw [cstr_of_notMem hnul] at how hg
    have hdata : (((s.touch fh).modify fh (stored data' buf)).file fh).data = data' := by
      rw [Fs.modify_file, put_self]
      rfl
    rw [hdata] at hg
    obtain ⟨hat,hfits⟩ := appended_of_length hpos (overwrite_length how) hg.length
    exact ⟨by omega,hfits⟩
  · rintro ⟨hat,hfits⟩
    have hplace : place (s.file fh).data.length offset = (s.file fh).data.length := by
      rw [place, if_pos ⟨ho,hat.le⟩, hat, Int.toNat_natCast]
    have hw : myPwrite fh buf buf.length offset.toInt s = some (toInt32 buf.length,
        (s.touch fh).modify fh (stored ((s.file fh).data++buf) buf)) := by
      simp only [myPwrite, Fs.touch_file, h0, if_false, hr, Bool.true_eq_false,
        cstr_of_notMem hnul, overwrite_eq hfits, hplace, splice_end]
    refine ⟨_,_,hw,?_⟩
    rw [Fs.modify_file, put_self, hat, Int.toNat_natCast]
    exact glibcWrite_append (s.file fh).data buf

theorem pwrite_glibc_run :
    ∃ r s', myPwrite 3 ['c'] 1 2
        (after [.creat ['/','f'] 0o644#32,.pwrite 3 ['a','b'] 2 0]) = some (r,s') ∧
      GlibcWrite ((after [.creat ['/','f'] 0o644#32,.pwrite 3 ['a','b'] 2 0]).file 3).data
        (s'.file 3).data ['c'] 2 :=
  (pwrite_glibc_iff (after_session (by decide +kernel) (by decide +kernel)) (by decide +kernel)
    (by decide) (by decide) 2 (by decide)).mpr (by decide +kernel)

/-- An overwritten byte makes the file longer by one. -/
theorem overwrite_lengthens :
    Sessions plainEnv anyCall (after [.creat ['/','f'] 0o644#32,.pwrite 3 ['a','b'] 2 0]) ∧
      ((after [.creat ['/','f'] 0o644#32,.pwrite 3 ['a','b'] 2 0]).file 3).isReg = true ∧
      ∀ r s', myPwrite 3 ['c'] 1 0 (after [.creat ['/','f'] 0o644#32,.pwrite 3 ['a','b'] 2 0]) =
        some (r,s') →
        ¬ GlibcWrite ((after [.creat ['/','f'] 0o644#32,.pwrite 3 ['a','b'] 2 0]).file 3).data
          (s'.file 3).data ['c'] 0 := by
  refine ⟨after_session (by decide +kernel) (by decide +kernel),by decide +kernel,?_⟩
  intro r s' hw hg
  have hlen : (myPwrite 3 ['c'] 1 0
      (after [.creat ['/','f'] 0o644#32,.pwrite 3 ['a','b'] 2 0])).map
        (fun x => (x.2.file 3).data.length) = some 3 := by decide +kernel
  have hold : ((after [.creat ['/','f'] 0o644#32,.pwrite 3 ['a','b'] 2 0]).file 3).data.length =
      2 := by decide +kernel
  rw [hw, Option.map_some] at hlen
  have hnew : (s'.file 3).data.length = 3 := Option.some.inj hlen
  have hmax := hg.length
  rw [hnew, hold] at hmax
  exact absurd hmax (by decide)

end Bbfs.Bytes
