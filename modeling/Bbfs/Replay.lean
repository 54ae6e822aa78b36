import Bbfs.Dialog

/-!
# Playing a record back

The record is a sequence of lines, read back word by word: a command that puts
down each operand as it was read is repeated when the record is read. The
operations that put down less, or read from `cin` whatever happens, are not.
-/

set_option autoImplicit false

namespace Bbfs.Replay
open Bbfs.Files Bbfs.Streams Bbfs.Dialog

/-- The operations whose operands are all put down, and read from the file. -/
def Recorded (o : Op) : Prop :=
  o ∉ [Op.pread,.pwrite,.symlink,.utime,.truncate,.lsetxattr,.lgetxattr,.lremovexattr]

instance (o : Op) : Decidable (Recorded o) := inferInstanceAs (Decidable (_ ∉ _))

def Ready (r : Console) : Prop := r.myin.good = true ∧ r.cin.fail = false

def Echoes (f : (ℕ → ℤ) → Console → Outcome × Console) : Prop :=
  ∀ stale s a s', s.myin.good = false → f stale s = (.went a, s') → s'.cin.fail = false →
    s.cin.fail = false ∧ s'.myin = s.myin ∧ ∃ body, s'.record = s.record++body ∧
      ∀ stale r rest, Ready r → r.myin.rest = '\n'::(body++rest) →
        ∃ r', f stale r = (.went a, r') ∧ Ready r' ∧ r'.myin.rest = '\n'::rest

variable {s s' r : Console} {stale : ℕ → ℤ} {a : Option Action} {o : Op} {w rest : Text} {b m : ℕ}
  {α : Type}

theorem ask_prompt (hs : s.myin.good = false) (f : Stream → α × Stream) :
    ask f s = ((f s.cin).1,{ s with cin := (f s.cin).2 }) := by
  rw [ask, hs]
  rfl

theorem ask_file (hr : r.myin.good = true) (f : Stream → α × Stream) :
    ask f r = ((f r.myin).1,{ r with myin := (f r.myin).2 }) := by
  rw [ask, if_pos hr]

theorem blank_newline : Blank ['\n'] := by
  intro c hc
  rw [List.mem_singleton.mp hc]
  rfl

theorem word_some {st : Stream} (h : (word st).2.fail = false) :
    st.fail = false ∧ Word (word st).1 := by
  have hread : (getWord st).2.fail = false := h
  obtain ⟨w,hw,hword⟩ := getWord_some hread
  constructor
  · by_contra hfail
    have hst : st.fail = true := by simpa using hfail
    rw [word, getWord_fails hst] at h
    exact hfail h
  · rw [word, hw]
    exact hword

theorem word_read {st : Stream} (hg : st.good = true) {ws : Text} (hws : Blank ws) (hw : Word w)
    {c : Char} (hc : isSpace c = true) (hr : st.rest = ws++w++c::rest) :
    word st = (w,{ st with rest := c::rest }) := by
  rw [word, getWord_word hg hws hw hc hr]
  rfl

theorem unsigned_some {st : Stream} (h : (inBase b getUnsigned st).2.fail = false) :
    st.fail = false ∧ ∃ m : ℕ, m < 2^32 ∧ (inBase b getUnsigned st).1 = some (m : ℤ) := by
  constructor
  · by_contra hfail
    have hst : (st.inBase b).fail = true := by simpa [Stream.inBase] using hfail
    rw [inBase, getUnsigned, getNumber_fails hst, hst] at h
    exact Bool.false_ne_true h.symm
  · obtain ⟨negative,n,hn,hfits⟩ := getNumber_some h
    obtain ⟨m,hm,hvalue⟩ := fitUnsigned_value hfits
    exact ⟨m,hm,hn.trans (congrArg some hvalue)⟩

theorem unsigned_read {st : Stream} (hb : 1 < b) (hb' : b ≤ 10) (hg : st.good = true)
    (hm : m < 2^32) (hr : st.rest = '\n'::(printed b m++ '\n'::rest)) :
    inBase b getUnsigned st = (some (m : ℤ),{ st with rest := '\n'::rest, base := b }) := by
  have hgood : (st.inBase b).good = true := hg
  have hrest : (st.inBase b).rest = ['\n']++printed (st.inBase b).base m++ '\n'::rest := hr
  exact getNumber_printed hb hb' hgood blank_newline rfl hrest (fitUnsigned_of_lt hm)

theorem resetCin_kept (h : s.cin.fail = false) : resetCin s = (false,s) := by
  rw [resetCin, h]
  rfl

theorem resetCin_refused (h : s.cin.fail = true) : (resetCin s).1 = true := by
  rw [resetCin, if_pos h]

theorem echoes_idle (a : Option Action) : Echoes (fun _ s => (.went a,s)) := by
  intro stale s a' s' _ h hread
  obtain ⟨ha,rfl⟩ := Prod.mk.inj h
  refine ⟨hread,rfl,[],(List.append_nil _).symm,?_⟩
  intro stale r rest hr hrest
  exact ⟨r,by rw [ha],hr,hrest⟩

theorem unsigned_echo (hb : 1 < b) (hb' : b ≤ 10) (hs : s.myin.good = false)
    (h : (ask (inBase b getUnsigned) s).2.cin.fail = false) :
    s.cin.fail = false ∧ ∃ (m : ℕ) (st : Stream),
      ask (inBase b getUnsigned) s = (some (m : ℤ),{ s with cin := st }) ∧ st.fail = false ∧
        ∀ r rest, Ready r → r.myin.rest = '\n'::(printed b m++ '\n'::rest) →
          ∃ r', ask (inBase b getUnsigned) r = (some (m : ℤ),r') ∧ Ready r' ∧
            r'.myin.rest = '\n'::rest := by
  rw [ask_prompt hs] at h ⊢
  obtain ⟨hcin,m,hm,hvalue⟩ := unsigned_some h
  refine ⟨hcin,m,_,by rw [hvalue],h,?_⟩
  intro r rest hr hrest
  rw [ask_file hr.1, unsigned_read hb hb' hr.1 hm hrest]
  exact ⟨_,rfl,⟨hr.1,hr.2⟩,rfl⟩

theorem withMode_echoes (act : Mode → Action) : Echoes (fun stale s => withMode stale act s) := by
  intro stale s a s' hs h hread
  have hcin : (ask (inBase 8 getUnsigned) s).2.cin.fail = false := by
    by_contra hfail
    have hrefused := resetCin_refused (by simpa using hfail)
    simp only [withMode, hrefused, if_true] at h
    exact nomatch (Prod.mk.inj h).1
  obtain ⟨hbefore,m,st,hask,hst,hfile⟩ := unsigned_echo (by decide) (by decide) hs hcin
  have hkept : resetCin { s with cin := st } = (false,{ s with cin := st }) := resetCin_kept hst
  simp only [withMode, hask, hkept, Bool.false_eq_true, if_false, Option.getD_some,
    Int.toNat_natCast] at h
  obtain ⟨ha,hs'⟩ := Prod.mk.inj h
  subst hs'
  refine ⟨hbefore,rfl,printed 8 m++['\n'],List.append_assoc _ _ _,?_⟩
  intro stale r rest hr hrest
  rw [List.append_assoc] at hrest
  obtain ⟨r',hask',hr',hrest'⟩ := hfile r rest hr hrest
  have hkept' := resetCin_kept hr'.2
  refine ⟨note (printed 8 m) r',?_,hr',hrest'⟩
  simp only [withMode, hask', hkept', Bool.false_eq_true, if_false, Option.getD_some,
    Int.toNat_natCast, ← ha]

theorem chown_echoes (file : Text) : Echoes (fun stale s => Dialog.chown stale file s) := by
  intro stale s a s' hs h hread
  have hcin : (ask (inBase 10 getUnsigned) s).2.cin.fail = false := by
    by_contra hfail
    have hrefused := resetCin_refused (by simpa using hfail)
    simp only [Dialog.chown, hrefused, if_true] at h
    exact nomatch (Prod.mk.inj h).1
  obtain ⟨hbefore,u,st,hask,hst,hfile⟩ := unsigned_echo (by decide) (by decide) hs hcin
  have hkept : resetCin { s with cin := st } = (false,{ s with cin := st }) := resetCin_kept hst
  simp only [Dialog.chown, hask, hkept, Bool.false_eq_true, if_false, Option.getD_some,
    Int.toNat_natCast] at h
  -- the group is read by the console that has put down the user
  have hcin₂ : (ask (inBase 10 getUnsigned) (note (printed 10 u) { s with cin := st })).2.cin.fail =
      false := by
    by_contra hfail
    have hrefused := resetCin_refused (by simpa using hfail)
    simp only [hrefused, if_true] at h
    exact nomatch (Prod.mk.inj h).1
  have hs₂ : (note (printed 10 u) { s with cin := st }).myin.good = false := hs
  obtain ⟨-,g,st₂,hask₂,hst₂,hfile₂⟩ := unsigned_echo (by decide) (by decide) hs₂ hcin₂
  have hkept₂ : resetCin { note (printed 10 u) { s with cin := st } with cin := st₂ } =
      (false,{ note (printed 10 u) { s with cin := st } with cin := st₂ }) := resetCin_kept hst₂
  simp only [hask₂, hkept₂, Bool.false_eq_true, if_false, Option.getD_some,
    Int.toNat_natCast] at h
  obtain ⟨ha,hs'⟩ := Prod.mk.inj h
  subst hs'
  refine ⟨hbefore,rfl,printed 10 u++ '\n'::(printed 10 g++['\n']),by simp [note],?_⟩
  intro stale r rest hr hrest
  simp only [List.append_assoc, List.cons_append, List.nil_append] at hrest
  obtain ⟨r',hask',hr',hrest'⟩ := hfile r _ hr hrest
  obtain ⟨r₂,hask₂',hr₂,hrest₂⟩ := hfile₂ (note (printed 10 u) r') rest hr' hrest'
  have hkept' := resetCin_kept hr'.2
  have hkept₂' := resetCin_kept hr₂.2
  refine ⟨note (printed 10 g) r₂,?_,hr₂,hrest₂⟩
  simp only [Dialog.chown, hask', hkept', hask₂', hkept₂', Bool.false_eq_true, if_false,
    Option.getD_some, Int.toNat_natCast, ← ha]

theorem withPath_echoes (act : Text → Action) : Echoes (fun _ s => withPath act s) := by
  intro stale s a s' hs h hread
  simp only [withPath, ask_prompt hs] at h
  obtain ⟨ha,hs'⟩ := Prod.mk.inj h
  subst hs'
  obtain ⟨hbefore,hword⟩ := word_some hread
  refine ⟨hbefore,rfl,(word s.cin).1++['\n'],List.append_assoc _ _ _,?_⟩
  intro stale r rest hr hrest
  have hread' := word_read hr.1 blank_newline hword (c := '\n') rfl (by simpa using hrest)
  simp only [withPath, ask_file hr.1, hread', ← ha]
  exact ⟨_,rfl,⟨hr.1,hr.2⟩,rfl⟩

theorem branch_echoes (ho : Recorded o) (file : Text) :
    Echoes (fun stale s => branch stale file o s) := by
  cases o with
  | mkdir => exact withMode_echoes (.mkdir file)
  | creat => exact withMode_echoes (.creat file)
  | chmod => exact withMode_echoes (.chmod file)
  | access => exact withMode_echoes (.access file)
  | chown => exact chown_echoes file
  | link => exact withPath_echoes (.link file)
  | rename => exact withPath_echoes (.rename file)
  | exit | «break» => exact fun _ _ _ _ _ h => nomatch (Prod.mk.inj h).1
  | pread | pwrite | symlink | utime | truncate | lsetxattr | lgetxattr | lremovexattr =>
    exact absurd ho (by decide)
  | _ => exact echoes_idle _

theorem opOf_exit (h : opOf w = .exit) : w = "exit".toList := by
  have honly : ∀ p ∈ opNames, p.2 = .exit → p.1 = "exit".toList := by decide
  rw [opOf] at h
  cases hl : opNames.lookup w with
  | none => simp [hl] at h
  | some o =>
    rw [hl, Option.getD_some] at h
    obtain ⟨before,after,hsplit,-⟩ := List.lookup_eq_some_iff.mp hl
    exact honly (w,o) (by simp [hsplit]) h

theorem branch_exit {file : Text} (h : command stale s = (.exit file,s')) :
    opOf (ask words s).1.1 = .exit := by
  obtain ⟨o,ho⟩ : ∃ o, opOf (ask words s).1.1 = o := ⟨_,rfl⟩
  simp only [command, ho] at h
  rw [ho]
  cases o with
  | exit => rfl
  | mkdir | creat | chmod | access =>
    simp only [branch, withMode] at h
    split_ifs at h <;> exact nomatch (Prod.mk.inj h).1
  | chown =>
    simp only [branch, Dialog.chown] at h
    split_ifs at h <;> exact nomatch (Prod.mk.inj h).1
  | _ => exact nomatch (Prod.mk.inj h).1

theorem words_some {st : Stream} (h : (words st).2.fail = false) :
    st.fail = false ∧ Word (words st).1.1 ∧ Word (words st).1.2 := by
  obtain ⟨hfirst,hfile⟩ := word_some h
  obtain ⟨hbefore,hop⟩ := word_some hfirst
  exact ⟨hbefore,hop,hfile⟩

theorem words_read {st : Stream} (hg : st.good = true) {ws op file : Text} (hws : Blank ws)
    (hop : Word op) (hfile : Word file) (hr : st.rest = ws++(op++ ' '::(file++ '\n'::rest))) :
    words st = ((op,file),{ st with rest := '\n'::rest }) := by
  have hspace : Blank [' '] := by
    intro c hc
    rw [List.mem_singleton.mp hc]
    rfl
  have hop' : word st = (op,{ st with rest := ' '::(file++ '\n'::rest) }) :=
    word_read hg hws hop rfl (by simpa using hr)
  have hgood : ({ st with rest := ' '::(file++ '\n'::rest) } : Stream).good = true := hg
  have hfile' := word_read hgood hspace hfile (c := '\n') rfl rfl
  rw [words, hop']
  simp only [hfile']

/-- A round of a recorded operation at the prompt, and the round that its part
of the record leads to. -/
theorem command_echoes (hs : s.myin.good = false) (h : command stale s = (.went a,s'))
    (hread : s'.cin.fail = false) (ho : Recorded (nextOp s)) :
    s'.myin = s.myin ∧ ∃ text, s'.record = s.record++text ∧
      ∀ stale r ws rest, Ready r → Blank ws → r.myin.rest = ws++(text++rest) →
        ∃ r', command stale r = (.went a,r') ∧ Ready r' ∧ r'.myin.rest = '\n'::rest := by
  obtain ⟨⟨op,file⟩,hwords⟩ : ∃ p, (words s.cin).1 = p := ⟨_,rfl⟩
  rw [nextOp, ask_prompt hs, hwords] at ho
  simp only [command, ask_prompt hs, hwords] at h
  have hne : op ≠ "exit".toList := by
    rintro rfl
    exact nomatch (Prod.mk.inj h).1
  rw [if_neg hne] at h
  have hnoted : (note (op++[' ']++file) { s with cin := (words s.cin).2 }).myin.good = false := hs
  obtain ⟨hcin,hmyin,body,hbody,hfile⟩ := branch_echoes ho file stale _ a s' hnoted h hread
  have hread' : (words s.cin).2.fail = false := hcin
  obtain ⟨-,hop,hpath⟩ := words_some hread'
  rw [hwords] at hop hpath
  refine ⟨hmyin,op++ ' '::(file++ '\n'::body),?_,?_⟩
  · rw [hbody]
    simp [note]
  · intro stale r ws rest hr hws hrest
    have hfound : words r.myin = ((op,file),{ r.myin with rest := '\n'::(body++rest) }) :=
      words_read hr.1 hws hop hpath (by simpa using hrest)
    obtain ⟨r',hr',hready,hrest'⟩ := hfile stale (note (op++[' ']++file)
      { r with myin := { r.myin with rest := '\n'::(body++rest) } }) rest hr rfl
    refine ⟨r',?_,hready,hrest'⟩
    simp only [command, ask_file hr.1, hfound, if_neg hne]
    exact hr'

theorem command_over (stale : ℕ → ℤ) (hr : Ready r) (hb : Blank r.myin.rest) :
    ∃ r', command stale r = (.went none,r') ∧ r'.myin.good = false := by
  have hdrop : r.myin.rest.dropWhile isSpace = [] := List.dropWhile_eq_nil_iff.mpr hb
  have hsentry : sentry r.myin = (false,{ r.myin with rest := [], eof := true, fail := true }) := by
    simp [sentry, hr.1, hdrop]
  have hover : ∀ st : Stream, st.fail = true → word st = ([],st) := by
    intro st hst
    rw [word, getWord_fails hst]
    rfl
  have hwords : words r.myin = (([],[]),{ r.myin with rest := [], eof := true, fail := true }) := by
    rw [words, word, getWord, hsentry]
    simp only [hover, Option.getD_none]
  have hne : ([] : Text) ≠ "exit".toList := by decide
  refine ⟨note [' '] { r with
    myin := { r.myin with rest := [], eof := true, fail := true } },?_,rfl⟩
  simp only [command, ask_file hr.1, hwords, if_neg hne]
  rfl

theorem saves_plays {stale : Console → ℕ → ℤ} (stale' : Console → ℕ → ℤ) {ops : List Op}
    {acts : List Action} {record : Text} (h : Saves stale s ops acts record)
    (hs : s.myin.good = false) (ho : ∀ o ∈ ops, Recorded o) : ∃ text, record = s.record++text ∧
      ∀ r ws, Ready r → Blank ws → r.myin.rest = ws++text →
        ∃ fuel, plays stale' fuel r = some acts := by
  induction h with
  | @exit s s' file h read =>
    have hop := branch_exit h
    rw [ask_prompt hs] at hop
    have hword : (words s.cin).1.1 = "exit".toList := opOf_exit hop
    refine ⟨[],?_,?_⟩
    · simp only [command, ask_prompt hs, hword, if_true] at h
      have hsame : { s with cin := (words s.cin).2 } = s' := (Prod.mk.inj h).2
      rw [← hsame, List.append_nil]
    · intro r ws hr hws hrest
      rw [List.append_nil] at hrest
      obtain ⟨r',hcommand,hover⟩ := command_over (stale' r) hr (hrest ▸ hws)
      refine ⟨2,?_⟩
      simp [plays, hr.1, hcommand, hover]
  | @step s s' a ops acts record h read rest ih =>
    obtain ⟨hfirst,hrest⟩ := List.forall_mem_cons.mp ho
    obtain ⟨hmyin,line,hline,hplay⟩ := command_echoes hs h read hfirst
    obtain ⟨text,htext,hplays⟩ := ih (hmyin ▸ hs) hrest
    refine ⟨line++text,by rw [htext, hline, List.append_assoc],?_⟩
    intro r ws hr hws hlines
    obtain ⟨r',hcommand,hr',hleft⟩ := hplay (stale' r) r ws text hr hws hlines
    obtain ⟨fuel,hfuel⟩ := hplays r' _ hr' blank_newline hleft
    refine ⟨fuel+1,?_⟩
    simp only [plays, hr.1, if_true, hcommand, hfuel, Option.map_some]

/-- Every dialog of the operations is repeated when its record is read,
whatever is typed then. -/
def Replays (used : Op → Prop) : Prop :=
  ∀ stale typed ops acts record, Saves stale (prompt typed) ops acts record → (∀ o ∈ ops, used o) →
    ∀ stale' typed', ∃ fuel, plays stale' fuel (given record typed') = some acts

theorem plays_mono {stale : Console → ℕ → ℤ} {n k : ℕ} {acts : List Action} (hn : n ≤ k)
    (h : plays stale n s = some acts) : plays stale k s = some acts := by
  induction n generalizing s k acts with
  | zero => exact nomatch h
  | succ n ih =>
    obtain ⟨k,rfl⟩ : ∃ j, k = j+1 := ⟨k-1,by omega⟩
    have hle : n ≤ k := by omega
    rw [plays] at h ⊢
    split_ifs at h ⊢ with hg
    · rcases hc : command (stale s) s with ⟨outcome,s'⟩
      rw [hc] at h
      cases outcome with
      | went a =>
        obtain ⟨rest,hrest,hacts⟩ := Option.map_eq_some_iff.mp h
        simp only [ih hle hrest, Option.map_some, hacts]
      | error => exact ih hle h
      | exit file => exact h
      | left => exact h
    · exact h

theorem recorded_replays : Replays Recorded := by
  intro stale typed ops acts record h ho stale' typed'
  obtain ⟨text,htext,hplays⟩ := saves_plays stale' h rfl ho
  rw [prompt, List.nil_append] at htext
  subst htext
  exact hplays (given record typed') [] ⟨rfl,rfl⟩ (fun c hc => absurd hc List.not_mem_nil) rfl

theorem not_replays {used : Op → Prop} (ho : used o) {typed record : Text} (typed' : Text)
    {act : Action} {acts : List Action} (hs : Saves (fun _ _ => 0) (prompt typed) [o] [act] record)
    (hp : plays (fun _ _ => 0) 3 (given record typed') = some acts) (hne : acts ≠ [act]) :
    ¬ Replays used := by
  intro h
  obtain ⟨fuel,hfuel⟩ := h _ typed [o] [act] record hs (by simpa using ho) (fun _ _ => 0) typed'
  have hlong := plays_mono (Nat.le_max_left fuel 3) hfuel
  have hshort := plays_mono (Nat.le_max_right fuel 3) hp
  exact hne (Option.some.inj (hshort.symm.trans hlong))

theorem unrecorded_not_replays {used : Op → Prop} (ho : used o) (hr : ¬ Recorded o) :
    ¬ Replays used := by
  cases o with
  | pread =>
    have hs : Saves (fun _ _ => 0) (prompt "pread f 0 5 exit g".toList) [.pread] _ _ :=
      Saves.step (a := some _) rfl rfl (Saves.exit rfl rfl)
    exact not_replays ho "6".toList hs rfl (by decide)
  | pwrite =>
    have hs : Saves (fun _ _ => 0) (prompt "pwrite f 0\nabc\nexit g".toList) [.pwrite] _ _ :=
      Saves.step (a := some _) rfl rfl (Saves.exit rfl rfl)
    exact not_replays ho "\nxyz".toList hs rfl (by decide)
  | symlink =>
    have hs : Saves (fun _ _ => 0) (prompt "symlink f l exit g".toList) [.symlink] _ _ :=
      Saves.step (a := some _) rfl rfl (Saves.exit rfl rfl)
    exact not_replays ho "".toList hs rfl (by decide)
  | utime =>
    have hs : Saves (fun _ _ => 0) (prompt "utime f 1 2 exit g".toList) [.utime] _ _ :=
      Saves.step (a := some _) rfl rfl (Saves.exit rfl rfl)
    exact not_replays ho "3 4".toList hs rfl (by decide)
  | truncate =>
    have hs : Saves (fun _ _ => 0) (prompt "truncate f 5 exit g".toList) [.truncate] _ _ :=
      Saves.step (a := some _) rfl rfl (Saves.exit rfl rfl)
    exact not_replays ho "6".toList hs rfl (by decide)
  | lsetxattr =>
    have hs : Saves (fun _ _ => 0) (prompt "lsetxattr f n v exit g".toList) [.lsetxattr] _ _ :=
      Saves.step (a := some _) rfl rfl (Saves.exit rfl rfl)
    exact not_replays ho "n w".toList hs rfl (by decide)
  | lgetxattr =>
    have hs : Saves (fun _ _ => 0) (prompt "lgetxattr f n 5 exit g".toList) [.lgetxattr] _ _ :=
      Saves.step (a := some _) rfl rfl (Saves.exit rfl rfl)
    exact not_replays ho "n 6".toList hs rfl (by decide)
  | lremovexattr =>
    have hs : Saves (fun _ _ => 0) (prompt "lremovexattr f n exit g".toList) [.lremovexattr] _ _ :=
      Saves.step (a := some _) rfl rfl (Saves.exit rfl rfl)
    exact not_replays ho "m".toList hs rfl (by decide)
  | _ => exact absurd (by decide) hr

/-- The record repeats every dialog of some operations exactly when all operands
of these are put down. -/
theorem dialogs_replay_iff (used : Op → Prop) : Replays used ↔ ∀ o, used o → Recorded o := by
  constructor
  · intro h o ho
    by_contra hr
    exact unrecorded_not_replays ho hr h
  · intro h stale typed ops acts record hs ho
    exact recorded_replays stale typed ops acts record hs (fun o hm => h o (ho o hm))

/-- The new length of a file is asked for again. -/
theorem truncate_asked_again :
    Saves (fun _ _ => 0) (prompt "truncate f 5 exit g".toList) [.truncate] [.truncate ['f'] 5]
        "truncate f\n".toList ∧
      ¬ ∃ fuel, plays (fun _ _ => 0) fuel (given "truncate f\n".toList "6".toList) =
        some [.truncate ['f'] 5] := by
  have hs : Saves (fun _ _ => 0) (prompt "truncate f 5 exit g".toList) [.truncate] _ _ :=
    Saves.step (a := some _) rfl rfl (Saves.exit rfl rfl)
  refine ⟨hs,?_⟩
  intro ⟨fuel,hfuel⟩
  have hshort : plays (fun _ _ => 0) 3 (given "truncate f\n".toList "6".toList) =
      some [.truncate ['f'] 6] := rfl
  have hlong := plays_mono (Nat.le_max_left fuel 3) hfuel
  have hsame := hlong.symm.trans (plays_mono (Nat.le_max_right fuel 3) hshort)
  exact absurd hsame (by decide)

end Bbfs.Replay
