import Picorv32Soc.Printnum
import Picorv32Soc.Steps

/-!
# `vprintfmt`

The formatter behind `printf` and `sprintf` as a machine that reads one character of the format in a
step. `text` is the loop over ordinary characters, `switch` the label `reswitch`, `digits` the loop over
a field width. After an unknown conversion the machine goes back to `lastFmt`, so that what it has read
since the `%` is read again as ordinary text. `vprintfmt_robust` says that it always returns, does not
read behind the end of the format, and puts a format without conversions as it is.
-/

namespace Picorv32Soc.Mylib
open Numeral Steps

/-- The characters of a string before its NUL. -/
structure CString where
  chars : List (BitVec 8)
  nonzero : 0 ∉ chars

/-- The character at offset `i`; `none` behind the NUL. -/
def CString.read (p : CString) (i : Nat) : Option (BitVec 8) := (p.chars ++ [0])[i]?

/-- The cases of the `switch`. -/
inductive Case
  | minus | zero | digit | star | dot | sharp | long
  | char | double | string | decimal | unsigned | octal | pointer | hex | percent
  | other
deriving DecidableEq

def caseOf (ch : BitVec 8) : Case :=
  match Char.ofNat ch.toNat with
  | '-' => .minus
  | '0' => .zero
  | '1' | '2' | '3' | '4' | '5' | '6' | '7' | '8' | '9' => .digit
  | '*' => .star
  | '.' => .dot
  | '#' => .sharp
  | 'l' => .long
  | 'c' => .char
  | 'f' => .double
  | 's' => .string
  | 'd' => .decimal
  | 'u' => .unsigned
  | 'o' => .octal
  | 'p' => .pointer
  | 'x' => .hex
  | '%' => .percent
  | _ => .other

/-- What leads back to `reswitch`. -/
def Case.flag : Case → Bool
  | .minus | .zero | .digit | .star | .dot | .sharp | .long => true
  | _ => false

/-- The loop of `strnlen`. -/
def strnlenLoop (maxsize : BitVec 32) : List (BitVec 8) → BitVec 32 → BitVec 32
  | [], n => n
  | _ :: cs, n => if n < maxsize then strnlenLoop maxsize cs (n + 1) else n

def strnlen (p : CString) (maxsize : BitVec 32) : BitVec 32 := strnlenLoop maxsize p.chars 0

section
variable {σ : Type} (putch : BitVec 32 → σ → σ)

/-- `for (; width > 0; width--) putch(c, putdat)` -/
def fill (c : BitVec 32) (width : BitVec 32) (s : σ) : BitVec 32 × σ :=
  if 0 < width.toInt then fill c (width - 1) (putch c s) else (width, s)
termination_by width.toInt.toNat
decreasing_by rw [toInt_sub_one (by omega)]; omega

/-- `for (; (ch = *p) != '\0' && (precision < 0 || --precision >= 0); width--)` -/
def putString : List (BitVec 8) → BitVec 32 → BitVec 32 → σ → BitVec 32 × σ
  | [], _, width, s => (width, s)
  | ch :: p, precision, width, s =>
    if precision.toInt < 0 then putString p precision (width - 1) (putch (ch.setWidth 32) s)
    else if 0 ≤ (precision - 1).toInt then putString p (precision - 1) (width - 1) (putch (ch.setWidth 32) s)
    else (width, s)

end

/-- What `vprintfmt` is called with, besides the format: `putch`, the arguments that are left in a
`va_list` (`none` is the null pointer), and the functions that are not modelled further. -/
structure Env (V σ : Type) where
  putch : BitVec 32 → σ → σ
  vaInt : V → BitVec 32 × V
  vaLongLong : V → BitVec 64 × V
  vaDouble : V → BitVec 64 × V
  vaString : V → Option CString × V
  /-- `print_double(putch, putdat, num, width, prec)` -/
  printDouble : BitVec 64 → BitVec 32 → BitVec 32 → σ → σ
  /-- the array of `printnum` before it is written -/
  digs : Nat → BitVec 32

inductive Pc
  | text | switch | digits
  /-- returned -/
  | ret
  /-- a character behind the NUL of the format was read -/
  | overrun
  /-- a digit was stored outside the array of `printnum` -/
  | smashed
deriving DecidableEq

/-- The variables of `vprintfmt`; `altflag` is never read. -/
structure Vprintfmt (V σ : Type) where
  pc : Pc
  fmt : Nat
  lastFmt : Nat
  padc : BitVec 32
  width : BitVec 32
  precision : BitVec 32
  lflag : Bool
  ap : V
  out : σ

namespace Vprintfmt

variable {V σ : Type}

/-- The variables are not initialised before the first `%`. -/
def start (ap : V) (out : σ) : Vprintfmt V σ := ⟨.text, 0, 0, 0, 0, 0, false, ap, out⟩

def processPrecision (s : Vprintfmt V σ) : Vprintfmt V σ :=
  if s.width.toInt < 0 then { s with width := s.precision, precision := -1 } else s

variable (e : Env V σ)

def bad (s : Vprintfmt V σ) : Vprintfmt V σ :=
  { s with pc := .text, fmt := s.lastFmt, out := e.putch (chr '%') s.out }

def getuint (ap : V) (lflag : Bool) : BitVec 64 × V :=
  if lflag then e.vaLongLong ap else ((e.vaInt ap).1.setWidth 64, (e.vaInt ap).2)

def getint (ap : V) (lflag : Bool) : BitVec 64 × V :=
  if lflag then e.vaLongLong ap else ((e.vaInt ap).1.signExtend 64, (e.vaInt ap).2)

/-- `signed_number` -/
def number (num : BitVec 64) (base : BitVec 32) (s : Vprintfmt V σ) : Vprintfmt V σ :=
  match printnum e.putch e.digs num base s.width s.padc s.out with
  | some out => { s with pc := .text, out := out }
  | none => { s with pc := .smashed }

/-- `unsigned_number` -/
def unsignedNumber (base : BitVec 32) (s : Vprintfmt V σ) : Vprintfmt V σ :=
  number e (getuint e s.ap s.lflag).1 base { s with ap := (getuint e s.ap s.lflag).2 }

def decimal (s : Vprintfmt V σ) : Vprintfmt V σ :=
  let num := (getint e s.ap s.lflag).1
  let s := { s with ap := (getint e s.ap s.lflag).2 }
  if num.toInt < 0 then number e (-num) 10 { s with out := e.putch (chr '-') s.out } else number e num 10 s

def null : CString := ⟨[0x28, 0x6e, 0x75, 0x6c, 0x6c, 0x29], by decide⟩

def string (s : Vprintfmt V σ) : Vprintfmt V σ :=
  let p := (e.vaString s.ap).1.getD null
  let padded := if 0 < s.width.toInt ∧ s.padc ≠ chr '-' then
      fill e.putch s.padc (s.width - strnlen p s.precision) s.out
    else (s.width, s.out)
  let put := putString e.putch p.chars s.precision padded.1 padded.2
  { s with pc := .text, ap := (e.vaString s.ap).2, out := (fill e.putch (chr ' ') put.1 put.2).2 }

/-- The `switch` on a character, with `fmt` already behind it. -/
def switch (ch : BitVec 8) (s : Vprintfmt V σ) : Vprintfmt V σ :=
  match caseOf ch with
  | .minus => { s with padc := chr '-' }
  | .zero => { s with padc := chr '0' }
  | .digit => { s with pc := .digits, precision := ch.setWidth 32 - chr '0' }
  | .star => processPrecision { s with precision := (e.vaInt s.ap).1, ap := (e.vaInt s.ap).2 }
  | .dot => if s.width.toInt < 0 then { s with width := 0 } else s
  | .sharp => s
  | .long => if s.lflag then s.bad e else s
  | .char => { s with pc := .text, out := e.putch (e.vaInt s.ap).1 s.out, ap := (e.vaInt s.ap).2 }
  | .double =>
    { s with
      pc := .text
      out := e.printDouble (e.vaDouble s.ap).1 s.width s.precision s.out
      ap := (e.vaDouble s.ap).2 }
  | .string => s.string e
  | .decimal => s.decimal e
  | .unsigned => s.unsignedNumber e 10
  | .octal => s.unsignedNumber e 8
  | .pointer =>
    unsignedNumber e 16 { s with lflag := true, out := e.putch (chr 'x') (e.putch (chr '0') s.out) }
  | .hex => s.unsignedNumber e 16
  | .percent => { s with pc := .text, out := e.putch (ch.setWidth 32) s.out }
  | .other => s.bad e

def textStep (ch : BitVec 8) (s : Vprintfmt V σ) : Vprintfmt V σ :=
  if ch = 0x25 then
    { s with
      pc := .switch
      fmt := s.fmt + 1
      lastFmt := s.fmt + 1
      padc := chr ' '
      width := -1
      precision := -1
      lflag := false }
  else if ch = 0 then { s with pc := .ret }
  else { s with fmt := s.fmt + 1, out := e.putch (ch.setWidth 32) s.out }

def isDigit (ch : BitVec 8) : Bool := caseOf ch = .zero || caseOf ch = .digit

def digitsStep (ch : BitVec 8) (s : Vprintfmt V σ) : Vprintfmt V σ :=
  if isDigit ch then
    { s with fmt := s.fmt + 1, precision := s.precision * 10 + ch.setWidth 32 - chr '0' }
  else { s.processPrecision with pc := .switch }

/-- The next character of the format is read and handled. -/
def step (f : CString) (s : Vprintfmt V σ) : Vprintfmt V σ :=
  match s.pc, f.read s.fmt with
  | .text, some ch => s.textStep e ch
  | .switch, some ch => switch e ch { s with fmt := s.fmt + 1 }
  | .digits, some ch => s.digitsStep ch
  | .text, none | .switch, none | .digits, none => { s with pc := .overrun }
  | _, _ => s

/-! ### One step -/

variable {e : Env V σ} {f : CString} {s : Vprintfmt V σ} {ch : BitVec 8}

theorem step_text (hpc : s.pc = .text) (h : f.read s.fmt = some ch) : step e f s = s.textStep e ch := by
  rw [step, hpc, h]

theorem step_switch (hpc : s.pc = .switch) (h : f.read s.fmt = some ch) :
    step e f s = switch e ch { s with fmt := s.fmt + 1 } := by
  rw [step, hpc, h]

theorem step_digits (hpc : s.pc = .digits) (h : f.read s.fmt = some ch) : step e f s = s.digitsStep ch := by
  rw [step, hpc, h]

theorem step_ret (hpc : s.pc = .ret) : step e f s = s := by
  rw [step, hpc]

theorem step_overrun (hpc : s.pc = .overrun) : (step e f s).pc = .overrun := by
  rw [step, hpc]; exact hpc

/-- What is printed by a number conversion. -/
theorem number_eq {base : BitVec 32} (hb : 2 ≤ base.toNat) (num : BitVec 64) (s : Vprintfmt V σ) :
    number e num base s =
      { s with
        pc := .text
        out := puts e.putch (List.replicate (s.width.toInt - (numeral base.toNat num.toNat).length).toNat s.padc ++
          digitChars (numeral base.toNat num.toNat)) s.out } := by
  rw [number, printnum_eq hb]

theorem unsignedNumber_spec {base : BitVec 32} (hb : 2 ≤ base.toNat) (s : Vprintfmt V σ) :
    (s.unsignedNumber e base).pc = .text ∧ (s.unsignedNumber e base).fmt = s.fmt := by
  rw [unsignedNumber, number_eq hb]
  exact ⟨rfl, rfl⟩

theorem decimal_spec (s : Vprintfmt V σ) : (s.decimal e).pc = .text ∧ (s.decimal e).fmt = s.fmt := by
  rw [decimal]
  split_ifs with hneg
  · rw [number_eq (by decide)]; exact ⟨rfl, rfl⟩
  · rw [number_eq (by decide)]; exact ⟨rfl, rfl⟩

/-- What is kept while the machine is between a `%` and its conversion. -/
structure Parsing (l : Nat) (o : σ) (s : Vprintfmt V σ) : Prop where
  pc : s.pc = .switch ∨ s.pc = .digits
  lastFmt : s.lastFmt = l
  lflag : s.lflag = false
  out : s.out = o

theorem Parsing.processPrecision {l : Nat} {o : σ} (h : Parsing l o s) : Parsing l o s.processPrecision := by
  rw [Vprintfmt.processPrecision]
  split_ifs with hw
  · exact ⟨h.pc, h.lastFmt, h.lflag, h.out⟩
  · exact h

theorem fmt_processPrecision (s : Vprintfmt V σ) : s.processPrecision.fmt = s.fmt := by
  rw [processPrecision]; split_ifs <;> rfl

theorem Parsing.switch {l : Nat} {o : σ} (h : Parsing l o s) (hch : (caseOf ch).flag) :
    Parsing l o (switch e ch s) ∧ (switch e ch s).fmt = s.fmt := by
  rw [Vprintfmt.switch]
  revert hch
  cases caseOf ch with
  | minus => exact fun _ => ⟨⟨h.pc, h.lastFmt, h.lflag, h.out⟩, rfl⟩
  | zero => exact fun _ => ⟨⟨h.pc, h.lastFmt, h.lflag, h.out⟩, rfl⟩
  | digit => exact fun _ => ⟨⟨Or.inr rfl, h.lastFmt, h.lflag, h.out⟩, rfl⟩
  | star =>
    intro _
    refine ⟨Parsing.processPrecision ⟨h.pc, h.lastFmt, h.lflag, h.out⟩, ?_⟩
    exact fmt_processPrecision _
  | dot =>
    intro _
    dsimp only
    split_ifs with hw
    · exact ⟨⟨h.pc, h.lastFmt, h.lflag, h.out⟩, rfl⟩
    · exact ⟨h, rfl⟩
  | sharp => exact fun _ => ⟨h, rfl⟩
  | long =>
    -- only `%p` sets `lflag`, and no flag follows it
    intro _
    dsimp only
    rw [h.lflag]; exact ⟨h, rfl⟩
  | _ => exact fun hch => absurd hch (by decide)

theorem switch_conversion (hch : (caseOf ch).flag = false) (hother : caseOf ch ≠ .other) (s : Vprintfmt V σ) :
    (switch e ch s).pc = .text ∧ (switch e ch s).fmt = s.fmt := by
  rw [switch]
  revert hch hother
  cases caseOf ch with
  | char | double | string | percent => exact fun _ _ => ⟨rfl, rfl⟩
  | decimal => exact fun _ _ => decimal_spec s
  | unsigned | octal | hex => exact fun _ _ => unsignedNumber_spec (by decide) s
  | pointer => exact fun _ _ => unsignedNumber_spec (by decide) _
  | other => exact fun _ hother => absurd rfl hother
  | _ => exact fun hch _ => absurd hch (by decide)

theorem switch_other (hch : caseOf ch = .other) (s : Vprintfmt V σ) : switch e ch s = s.bad e := by
  rw [switch, hch]

/-! ### Runs -/

/-- The rest of the format, from the next character on. -/
structure At (f : CString) (s : Vprintfmt V σ) (rest : List (BitVec 8)) : Prop where
  le : s.fmt ≤ f.chars.length
  rest : f.chars.drop s.fmt = rest

theorem At.read {rest : List (BitVec 8)} (h : At f s rest) : f.read s.fmt = some (rest.headD 0) := by
  have hread : f.read s.fmt = ((f.chars ++ [0]).drop s.fmt).head? := List.head?_drop.symm
  rw [hread, List.drop_append_of_le_length h.le, h.rest]
  cases rest <;> rfl

theorem At.next {c : BitVec 8} {rest : List (BitVec 8)} (h : At f s (c :: rest)) {s' : Vprintfmt V σ}
    (hs : s'.fmt = s.fmt + 1) : At f s' rest := by
  have hlen := congrArg List.length h.rest
  rw [List.length_drop, List.length_cons] at hlen
  refine ⟨by omega, ?_⟩
  rw [hs, ← List.drop_drop, h.rest]; rfl

/-- A conversion character that is reached over flags, digits and the like. -/
def Recognised (post : List (BitVec 8)) : Prop :=
  ∃ flags c rest, post = flags ++ c :: rest ∧ (∀ d ∈ flags, (caseOf d).flag) ∧
    (caseOf c).flag = false ∧ caseOf c ≠ .other

theorem Recognised.cons {c : BitVec 8} {post : List (BitVec 8)} (hc : (caseOf c).flag) (h : Recognised post) :
    Recognised (c :: post) := by
  obtain ⟨flags, d, rest, rfl, hflags, hd⟩ := h
  refine ⟨c :: flags, d, rest, rfl, ?_, hd⟩
  intro x hx
  rcases List.mem_cons.1 hx with rfl | hx
  · exact hc
  · exact hflags x hx

/-- How a conversion ends: it was not recognised, and the machine is back behind the `%`; or it was. -/
def Converted (e : Env V σ) (f : CString) (l : Nat) (o : σ) (post : List (BitVec 8)) (s s' : Vprintfmt V σ) : Prop :=
  s'.pc = .text ∧ (s'.fmt = l ∧ s'.out = e.putch (chr '%') o ∨
    s.fmt < s'.fmt ∧ s'.fmt ≤ f.chars.length ∧ Recognised post)

theorem Converted.cons {l : Nat} {o : σ} {c : BitVec 8} {post : List (BitVec 8)} {s₁ s' : Vprintfmt V σ}
    (hc : (caseOf c).flag) (hs : s₁.fmt = s.fmt + 1) (h : Converted e f l o post s₁ s') :
    Converted e f l o (c :: post) s s' := by
  obtain ⟨hpc, hbad | ⟨hlt, hle, hrec⟩⟩ := h
  · exact ⟨hpc, Or.inl hbad⟩
  · exact ⟨hpc, Or.inr ⟨by omega, hle, hrec.cons hc⟩⟩

theorem caseOf_zero : caseOf 0 = .other := by decide

theorem flag_of_isDigit (h : isDigit ch) : (caseOf ch).flag := by
  rw [isDigit, Bool.or_eq_true, decide_eq_true_eq, decide_eq_true_eq] at h
  rcases h with h | h
  · rw [h]; rfl
  · rw [h]; rfl

/-- A flag or a digit is read. -/
def Skips (e : Env V σ) (f : CString) (l : Nat) (o : σ) (post : List (BitVec 8)) (s : Vprintfmt V σ) : Prop :=
  ∃ c rest, post = c :: rest ∧ (caseOf c).flag ∧ Parsing l o (step e f s) ∧ (step e f s).fmt = s.fmt + 1

section
variable {l : Nat} {o : σ} {post : List (BitVec 8)}

theorem Parsing.step_switch (h : Parsing l o s) (hat : At f s post) (hpc : s.pc = .switch) :
    Converted e f l o post s (step e f s) ∨ Skips e f l o post s := by
  have hstep := Vprintfmt.step_switch (e := e) hpc hat.read
  have h' : Parsing l o { s with fmt := s.fmt + 1 } := ⟨h.pc, h.lastFmt, h.lflag, h.out⟩
  rw [Skips, hstep]
  cases post with
  | nil =>
    left
    rw [List.headD_nil, switch_other caseOf_zero]
    exact ⟨rfl, Or.inl ⟨h.lastFmt, congrArg _ h.out⟩⟩
  | cons c rest =>
    by_cases hc : (caseOf c).flag
    · exact Or.inr ⟨c, rest, rfl, hc, h'.switch hc⟩
    · left
      rw [Bool.not_eq_true] at hc
      by_cases hother : caseOf c = .other
      · rw [List.headD_cons, switch_other hother]
        exact ⟨rfl, Or.inl ⟨h.lastFmt, congrArg _ h.out⟩⟩
      · obtain ⟨htext, hfmt⟩ := switch_conversion (e := e) hc hother { s with fmt := s.fmt + 1 }
        have hle := (hat.next hfmt).le
        exact ⟨htext, Or.inr ⟨by rw [List.headD_cons, hfmt]; exact Nat.lt_succ_self _, hle,
          [], c, rest, rfl, fun _ hd => absurd hd List.not_mem_nil, hc, hother⟩⟩

theorem Parsing.step_digits (h : Parsing l o s) (hat : At f s post) (hpc : s.pc = .digits) :
    Parsing l o (step e f s) ∧ (step e f s).pc = .switch ∧ (step e f s).fmt = s.fmt ∨ Skips e f l o post s := by
  have hstep := Vprintfmt.step_digits (e := e) hpc hat.read
  rw [Skips, hstep, digitsStep]
  split_ifs with hd
  · right
    cases post with
    | nil => exact absurd hd (by decide)
    | cons c rest => exact ⟨c, rest, rfl, flag_of_isDigit hd, ⟨h.pc, h.lastFmt, h.lflag, h.out⟩, rfl⟩
  · have h' := h.processPrecision
    exact Or.inl ⟨⟨Or.inl rfl, h'.lastFmt, h'.lflag, h'.out⟩, rfl, fmt_processPrecision s⟩

/-- From a `%` on the machine comes back to ordinary text. -/
theorem Parsing.run (h : Parsing l o s) (hat : At f s post) :
    ∃ s', Leads (step e f) s s' ∧ Converted e f l o post s s' := by
  -- every step reads a character of the rest or ends the loop over digits
  obtain ⟨n, hn⟩ : ∃ n, 2 * post.length + (if s.pc = .digits then 1 else 0) = n := ⟨_, rfl⟩
  induction n using Nat.strong_induction_on generalizing s post with
  | _ n ih =>
    have hskip : Skips e f l o post s → ∃ s', Leads (step e f) s s' ∧ Converted e f l o post s s' := by
      rintro ⟨c, rest, rfl, hc, h₁, hfmt⟩
      have hlt : 2 * rest.length + (if (step e f s).pc = .digits then 1 else 0) < n := by
        rw [List.length_cons] at hn
        split_ifs <;> omega
      obtain ⟨s', hrun, hconv⟩ := ih _ hlt h₁ (hat.next hfmt) rfl
      exact ⟨s', hrun.head, hconv.cons hc hfmt⟩
    rcases h.pc with hpc | hpc
    · rcases h.step_switch (e := e) hat hpc with hconv | hsk
      · exact ⟨_, .head (.refl _), hconv⟩
      · exact hskip hsk
    · rcases h.step_digits (e := e) hat hpc with ⟨h₁, hpc₁, hfmt⟩ | hsk
      · have hat₁ : At f (step e f s) post := ⟨hfmt ▸ hat.le, hfmt ▸ hat.rest⟩
        have hlt : 2 * post.length + (if (step e f s).pc = .digits then 1 else 0) < n := by
          rw [if_neg (by rw [hpc₁]; decide), ← hn, if_pos hpc]
          exact Nat.lt_succ_self _
        obtain ⟨s', hrun, htext, hconv⟩ := ih _ hlt h₁ hat₁ rfl
        rw [hfmt] at hconv
        exact ⟨s', hrun.head, htext, hconv⟩
      · exact hskip hsk

end

/-- After a `%` the flags are as the conversion begins. -/
theorem Parsing.start (hpc : s.pc = .text) {rest : List (BitVec 8)} (hat : At f s (0x25 :: rest)) :
    Parsing (s.fmt + 1) s.out (step e f s) ∧ At f (step e f s) rest := by
  have hstep : step e f s = textStep e 0x25 s := step_text hpc hat.read
  have hfmt : (step e f s).fmt = s.fmt + 1 := by rw [hstep]; rfl
  refine ⟨?_, hat.next hfmt⟩
  rw [hstep]
  exact ⟨Or.inl rfl, rfl, rfl, rfl⟩

theorem step_plain (hpc : s.pc = .text) {rest : List (BitVec 8)} (hat : At f s (ch :: rest))
    (hch : ch ≠ 0x25) (h0 : ch ≠ 0) :
    step e f s = { s with fmt := s.fmt + 1, out := e.putch (ch.setWidth 32) s.out } := by
  rw [step_text hpc hat.read, List.headD_cons, textStep, if_neg hch, if_neg h0]

theorem step_end (hpc : s.pc = .text) (hat : At f s []) : step e f s = { s with pc := .ret } :=
  step_text hpc hat.read

theorem At.ne_zero {c : BitVec 8} {rest : List (BitVec 8)} (h : At f s (c :: rest)) : c ≠ 0 := by
  rintro rfl
  have hmem : (0 : BitVec 8) ∈ f.chars.drop s.fmt := h.rest ▸ List.mem_cons_self
  exact f.nonzero (List.mem_of_mem_drop hmem)

/-- No `%` of the text leads to a conversion. -/
def Unrecognised (text : List (BitVec 8)) : Prop :=
  ∀ pre post, text = pre ++ 0x25 :: post → ¬ Recognised post

theorem Unrecognised.tail {c : BitVec 8} {text : List (BitVec 8)} (h : Unrecognised (c :: text)) :
    Unrecognised text := by
  rintro pre post rfl
  exact h (c :: pre) post rfl

/-- The machine returns, by induction on the rest of the format: what is read again after an unknown
conversion stands behind its `%`. -/
theorem run_ret {rest : List (BitVec 8)} (hpc : s.pc = .text) (hat : At f s rest) :
    ∃ s', Leads (step e f) s s' ∧ s'.pc = .ret ∧
      (Unrecognised rest → s'.out = puts e.putch (rest.map (·.setWidth 32)) s.out) := by
  obtain ⟨n, hn⟩ : ∃ n, rest.length = n := ⟨_, rfl⟩
  induction n using Nat.strong_induction_on generalizing s rest with
  | _ n ih =>
    cases rest with
    | nil =>
      refine ⟨_, .head (.refl _), ?_⟩
      rw [step_end hpc hat]
      exact ⟨rfl, fun _ => rfl⟩
    | cons c rest =>
      rw [List.length_cons] at hn
      by_cases hc : c = 0x25
      · subst hc
        obtain ⟨hparse, hat₁⟩ := Parsing.start (e := e) hpc hat
        have hfmt : (step e f s).fmt = s.fmt + 1 := by rw [step_text hpc hat.read]; rfl
        obtain ⟨s₂, hrun, htext, hend⟩ := hparse.run (e := e) hat₁
        rcases hend with ⟨hl, hout⟩ | ⟨hlt, hle, hrec⟩
        · obtain ⟨s', hrun', hret, hput⟩ := ih _ (by omega) htext (hat.next hl) rfl
          refine ⟨s', (hrun.trans hrun').head, hret, ?_⟩
          intro hun
          rw [hput hun.tail, hout]; rfl
        · have hlen : (f.chars.drop s₂.fmt).length < n := by
            have hrest := congrArg List.length hat.rest
            rw [List.length_drop, List.length_cons] at hrest
            rw [List.length_drop]; omega
          obtain ⟨s', hrun', hret, -⟩ := ih _ hlen htext ⟨hle, rfl⟩ rfl
          exact ⟨s', (hrun.trans hrun').head, hret, fun hun => absurd hrec (hun [] rest rfl)⟩
      · have hstep := step_plain (e := e) hpc hat hc hat.ne_zero
        have hat₁ : At f (step e f s) rest := hat.next (by rw [hstep])
        obtain ⟨s', hrun, hret, hput⟩ := ih _ (by omega) (by rw [hstep]; exact hpc) hat₁ rfl
        refine ⟨s', hrun.head, hret, ?_⟩
        intro hun
        rw [hput hun.tail, hstep]; rfl

/-- `vprintfmt` returns on every format and never reads behind its end; a format without conversions is
put as it is. -/
theorem vprintfmt_robust (e : Env V σ) (f : CString) (ap : V) (out : σ) :
    ∃ s', (∃ n, ∀ m, n ≤ m → (step e f)^[m] (start ap out) = s') ∧ s'.pc = .ret ∧
      (∀ m, ((step e f)^[m] (start ap out)).pc ≠ .overrun) ∧
      (Unrecognised f.chars → s'.out = puts e.putch (f.chars.map (·.setWidth 32)) out) := by
  have hat : At f (start ap out) f.chars := ⟨Nat.zero_le _, rfl⟩
  obtain ⟨s', hrun, hret, hput⟩ := run_ret (e := e) rfl hat
  have hstay : step e f s' = s' := step_ret hret
  refine ⟨s', hrun.stays hstay, hret, ?_, hput⟩
  refine hrun.never (P := fun s => s.pc = .overrun) hstay (fun _ => step_overrun) ?_
  rw [hret]; decide

end Vprintfmt

end Picorv32Soc.Mylib
