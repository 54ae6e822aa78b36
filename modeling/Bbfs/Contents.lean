import Mathlib.Data.List.TakeWhile
import Bbfs.Numbers
import Bbfs.ZeroExtended

/-!
# File contents

`my_pwrite` grows the string by the size of every write and overwrites it in
place; `my_ftruncate` cuts it or fills it with zeroes. Read as a zero-extended
array, a file is changed exactly in the range written, or set to zero from the
new length on.
-/

set_option autoImplicit false

namespace Bbfs.Contents
open Bbfs.Strings Bbfs.Files Bbfs.Resolve Bbfs.Calls Bbfs.Session Bbfs.Walks Bbfs.Effects
open Bbfs.Outcomes Bbfs.Numbers Bbfs.Runs Bbfs.ZeroExtended

structure Image where
  bytes : ℕ → Char
  length : ℕ

def image (f : File) : Image := ⟨extend '\x00' f.data,f.data.length⟩

inductive FileOp where
  | write (buf : Str) (offset : BitVec 64)
  | truncate (size : BitVec 64)

/-- Where a write takes place: at its offset, or at the end when the offset is
not within the file. -/
def place (length : ℕ) (offset : BitVec 64) : ℕ :=
  if 0 ≤ offset.toInt ∧ offset.toInt ≤ length then offset.toInt.toNat else length

namespace FileOp

def call (fh : ℕ) : FileOp → Call
  | write buf offset => .pwrite fh buf buf.length offset.toInt
  | truncate size => .ftruncate fh size.toInt

/-- The buffer is a C string, and the length stays an `int`. -/
def Fits : FileOp → Image → Prop
  | write buf _, c => '\x00' ∉ buf ∧ c.length+buf.length < 2^31
  | truncate size, _ => 0 ≤ size.toInt ∧ size.toInt < 2^31

instance (op : FileOp) (c : Image) : Decidable (op.Fits c) := by
  induction op using FileOp.casesOn <;> unfold Fits <;> infer_instance

def apply (c : Image) : FileOp → Image
  | write buf offset => ⟨replaceAt c.bytes (place c.length offset) buf,c.length+buf.length⟩
  | truncate size => ⟨zeroFrom '\x00' c.bytes size.toInt.toNat,size.toInt.toNat⟩

end FileOp

def fileStep (env : Env) (fh : ℕ) (op : FileOp) (s : Fs) : Option Fs :=
  (answer env (op.call fh) s).map Prod.snd

theorem length_resize (n : ℕ) (data : Str) : (resize n data).length = n := by
  simp only [resize, List.length_append, List.length_take, List.length_replicate]
  omega

theorem extend_resize (n : ℕ) (data : Str) :
    extend '\x00' (resize n data) = zeroFrom '\x00' (extend '\x00' data) n := by
  rw [resize, extend_append_replicate, extend_take]

theorem extend_grow {n : ℕ} {data : Str} (h : data.length ≤ n) :
    extend '\x00' (resize n data) = extend '\x00' data := by
  rw [resize, extend_append_replicate, List.take_of_length_le h]

theorem cstr_of_notMem {buf : Str} (h : '\x00' ∉ buf) : cstr buf = buf := by
  apply List.takeWhile_eq_self_iff.mpr
  intro c hc
  rw [decide_eq_true_eq]
  exact fun he => h (he ▸ hc)

theorem toU64_natCast {n : ℕ} (h : n < 2^64) : toU64 (n:ℤ) = n := by
  rw [toU64]
  omega

theorem toInt32_natCast {n : ℕ} (h : n < 2^31) : toInt32 (n:ℤ) = n :=
  toInt32_of_range (by omega) (by omega)

theorem toInt32_eq_iff {n : ℕ} : toInt32 n = n ↔ n < 2^31 := by
  constructor
  · intro h
    have hr := (toInt32_range n).2
    omega
  · exact toInt32_natCast

theorem toInt32_add (x : ℤ) : ∃ q, toInt32 x+2^32*q = x :=
  ⟨x.bdiv (2^32),Int.bmod_add_bdiv x (2^32)⟩

theorem writeLoop_length {str : Str} {stop fuel j : ℕ} {i : ℤ} {data data' : Str}
    (h : writeLoop str stop fuel i j data = some data') : data'.length = data.length := by
  induction fuel generalizing i j data with
  | zero => simp [writeLoop] at h
  | succ fuel ih =>
    rw [writeLoop] at h
    split_ifs at h with hi hin
    · rw [ih h, List.length_set]
    · rw [Option.some.inj h]

theorem writeLoop_eq {str : Str} {stop : ℕ} (hstop : stop < 2^64) (fuel i j : ℕ) (data : Str)
    (hdata : stop ≤ data.length) (hrange : i+(str.length-j) = stop) (hj : j ≤ str.length)
    (hfuel : str.length-j < fuel) :
    writeLoop str stop fuel i j data = some (splice data i (str.drop j)) := by
  induction fuel generalizing i j data with
  | zero => omega
  | succ fuel ih =>
    rw [writeLoop, toU64_natCast (by omega)]
    by_cases hi : i < stop
    · have hlt : j < str.length := by omega
      have hin : (0:ℤ) ≤ i ∧ (i:ℤ) < data.length := by omega
      rw [if_pos hi, if_pos hin, Int.toNat_natCast, List.drop_eq_getElem_cons hlt,
        ← splice_set (by omega), List.getD_eq_getElem _ _ hlt]
      have hnext : (i:ℤ)+1 = ((i+1:ℕ):ℤ) := by omega
      rw [hnext]
      apply ih
      · rw [List.length_set]
        exact hdata
      · omega
      · omega
      · omega
    · have hdone : str.length ≤ j := by omega
      rw [if_neg hi, List.drop_of_length_le hdone, splice_nil]

/-- A negative offset compares as an unsigned number above any length. -/
theorem place_eq {length : ℕ} (h : length < 2^31) (offset : BitVec 64) :
    (if length < toU64 offset.toInt then (length:ℤ) else offset.toInt) = place length offset := by
  have hlo := BitVec.two_mul_toInt_lt (x := offset)
  have hhi := BitVec.le_two_mul_toInt (x := offset)
  unfold place toU64
  split_ifs <;> omega

theorem place_le (length : ℕ) (offset : BitVec 64) : place length offset ≤ length := by
  unfold place
  split_ifs
  · omega
  · exact le_rfl

theorem overwrite_eq {data str : Str} (h : data.length+str.length < 2^31) (offset : BitVec 64) :
    overwrite data str str.length offset.toInt =
      some (splice (resize (data.length+str.length) data) (place data.length offset) str) := by
  have hplace := place_le data.length offset
  have hsize : toInt32 ((data.length:ℤ)+str.length) = (data.length+str.length : ℕ) := by
    rw [← Nat.cast_add, toInt32_natCast h]
  have hat : toInt32 (place data.length offset) = place data.length offset :=
    toInt32_natCast (by omega)
  have hstop : toU64 ((place data.length offset : ℤ)+str.length) =
      place data.length offset+str.length := by
    rw [← Nat.cast_add, toU64_natCast (by omega)]
  simp only [overwrite, place_eq (by omega : data.length < 2^31), hsize, hat, hstop]
  rw [if_neg (by omega), Int.toNat_natCast, writeLoop_eq (by omega) _ _ 0 _ _ _ (Nat.zero_le _),
    List.drop_zero]
  · omega
  · rw [length_resize]
    omega
  · omega

variable {env : Env} {s : Fs} {fh : ℕ}

theorem write_step (h0 : fh ≠ 0) (hr : (s.file fh).isReg = true) {buf : Str} {offset : BitVec 64}
    (hf : (FileOp.write buf offset).Fits (image (s.file fh))) :
    fileStep env fh (.write buf offset) s = some ((s.touch fh).modify fh
      (stored (splice (resize ((s.file fh).data.length+buf.length) (s.file fh).data)
        (place (s.file fh).data.length offset) buf) buf)) := by
  have hc := cstr_of_notMem hf.1
  simp only [fileStep, FileOp.call, answer, myPwrite, Fs.touch_file, h0, if_false, hr,
    Bool.true_eq_false, hc, overwrite_eq hf.2, Option.map_some]

theorem truncate_step (h0 : fh ≠ 0) (hr : (s.file fh).isReg = true) {size : BitVec 64}
    (hf : 0 ≤ size.toInt) :
    fileStep env fh (.truncate size) s =
      some ((s.touch fh).modify fh (cutTo size.toInt.toNat)) := by
  have hd : (s.file fh).isDir = false := isDir_of_isReg hr
  rcases h : myFtruncate fh size.toInt s with ⟨r,s'⟩
  rcases myFtruncate_some h with ⟨hbad,-,-⟩ | ⟨-,-,-,-,hs'⟩
  · simp only [h0, hd, Bool.false_eq_true, or_false, false_or] at hbad
    omega
  · rw [← hs', fileStep, FileOp.call, answer, h, Option.map_some]

/-- One step does to the file what the operation is for. -/
theorem fileStep_apply (h0 : fh ≠ 0) (op : FileOp) (hr : (s.file fh).isReg = true)
    (hf : op.Fits (image (s.file fh))) :
    ∃ s', fileStep env fh op s = some s' ∧ (s'.file fh).isReg = true ∧
      image (s'.file fh) = op.apply (image (s.file fh)) := by
  cases op with
  | write buf offset =>
    have hlen := length_resize ((s.file fh).data.length+buf.length) (s.file fh).data
    have hplace := place_le (s.file fh).data.length offset
    refine ⟨_,write_step h0 hr hf,?_,?_⟩
    · simpa [stored, File.isReg] using hr
    · simp only [image, FileOp.apply, Fs.modify_file, put_self, stored, Fs.touch_file]
      rw [length_splice (by omega), hlen, extend_splice _ (by omega), extend_grow (by omega)]
  | truncate size =>
    refine ⟨_,truncate_step h0 hr hf.1,?_,?_⟩
    · simpa [cutTo, File.isReg] using hr
    · simp only [image, FileOp.apply, Fs.modify_file, put_self, cutTo, Fs.touch_file]
      rw [length_resize, extend_resize]

theorem pread_written (h0 : fh ≠ 0) (hr : (s.file fh).isReg = true) {buf : Str}
    {offset : BitVec 64} (hne : buf ≠ [])
    (hf : (FileOp.write buf offset).Fits (image (s.file fh))) :
    ∃ s', fileStep env fh (.write buf offset) s = some s' ∧
      (myPread fh buf.length (place (s.file fh).data.length offset) s').1 =
        .stored buf.length buf := by
  have hplace := place_le (s.file fh).data.length offset
  have hpos := List.length_pos_of_ne_nil hne
  have hlt : (s.file fh).data.length+buf.length < 2^31 := hf.2
  refine ⟨_,write_step h0 hr hf,?_⟩
  set data := splice (resize ((s.file fh).data.length+buf.length) (s.file fh).data)
    (place (s.file fh).data.length offset) buf with hdata
  have hlen : data.length = (s.file fh).data.length+buf.length := by
    rw [hdata, length_splice, length_resize]
    rw [length_resize]
    omega
  have hread : (data.drop (place (s.file fh).data.length offset)).take buf.length = buf := by
    apply take_drop_splice
    rw [length_resize]
    omega
  have hd : (stored data buf (s.file fh)).isDir = false := isDir_of_isReg hr
  have hfile : (((s.touch fh).modify fh (stored data buf)).touch fh).file fh =
      stored data buf (s.file fh) := by
    rw [Fs.touch_file, Fs.modify_file, put_self, Fs.touch_file]
  have hsize : toInt32 (buf.length:ℤ) = buf.length := toInt32_natCast (by omega)
  have hfileLen : toInt32 (data.length:ℤ) = data.length := toInt32_natCast (by omega)
  have hat := toU64_natCast (n := place (s.file fh).data.length offset) (by omega)
  have hlast : ((place (s.file fh).data.length offset:ℕ):ℤ)+buf.length-1 =
      ((place (s.file fh).data.length offset+buf.length-1:ℕ):ℤ) := by omega
  simp only [myPread, hfile, hd, Bool.false_eq_true, if_false]
  simp only [stored, hfileLen, hat, hlast, hread, hsize, cstr_of_notMem hf.1]
  rw [if_neg (by omega), if_neg (by omega), toU64_natCast (by omega), toU64_natCast (by omega),
    if_neg (by omega)]

/-- From any state of any session, a run of writes and truncations of a regular
file is answered to its end and leaves the bytes and the length that the
operations are for; what a further write stores is read back. -/
theorem contents_refine (h : Sessions env anyCall s) (hr : (s.file fh).isReg = true)
    (ops : List FileOp)
    (hops : Meets (fun op c => some (FileOp.apply c op)) FileOp.Fits ops (image (s.file fh))) :
    ∃ s', exec (fileStep env fh) ops s = some s' ∧
      image (s'.file fh) = ops.foldl FileOp.apply (image (s.file fh)) ∧
      ∀ buf offset, buf ≠ [] → (FileOp.write buf offset).Fits (image (s'.file fh)) →
        ∃ s'', fileStep env fh (.write buf offset) s' = some s'' ∧
          (myPread fh buf.length (place (image (s'.file fh)).length offset) s'').1 =
            .stored buf.length buf := by
  have h0 : fh ≠ 0 := by
    rintro rfl
    simp [(untyped (sessions_settled h).sentinel).2.1] at hr
  have hstep : ∀ op (t : Fs) c, (t.file fh).isReg = true ∧ image (t.file fh) = c →
      op.Fits c → ∃ t', fileStep env fh op t = some t' ∧
        (t'.file fh).isReg = true ∧ image (t'.file fh) = op.apply c := by
    rintro op t c ⟨ht,rfl⟩ hf
    exact fileStep_apply h0 op ht hf
  obtain ⟨s',hexec,hr',himage⟩ := exec_simulates hstep ops ⟨hr,rfl⟩ hops
  exact ⟨s',hexec,himage,fun buf offset hne hf => pread_written h0 hr' hne hf⟩

theorem contents_refine_run :
    ∃ s', exec (fileStep plainEnv 3) [.write ['a','b','c'] 0,.write ['x'] (-1),.truncate 2]
        (after [.creat ['/','f'] 0o644#32]) = some s' ∧
      image (s'.file 3) = [.write ['a','b','c'] 0,.write ['x'] (-1),.truncate 2].foldl FileOp.apply
        (image ((after [.creat ['/','f'] 0o644#32]).file 3)) ∧
      ∀ buf offset, buf ≠ [] → (FileOp.write buf offset).Fits (image (s'.file 3)) →
        ∃ s'', fileStep plainEnv 3 (.write buf offset) s' = some s'' ∧
          (myPread 3 buf.length (place (image (s'.file 3)).length offset) s'').1 =
            .stored buf.length buf :=
  contents_refine (after_session (by decide) (by decide)) (by decide) _ (by decide)

end Bbfs.Contents
