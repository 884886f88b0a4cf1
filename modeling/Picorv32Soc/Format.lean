import Picorv32Soc.Vprintfmt

/-!
# Formats

Formats of ordinary characters and conversions `%[-][0][width]c`, together with their arguments: the
text of such a format, the characters that the C standard prescribes for it, and how `vprintfmt` gets
from a `%` to the character of the conversion (`run_flags`).
-/

namespace Picorv32Soc.Mylib
open Numeral Steps

/-- An argument of a variadic function; `str none` is the null pointer. -/
inductive Arg
  | int (x : BitVec 32)
  | longLong (x : BitVec 64)
  | double (x : BitVec 64)
  | str (p : Option CString)

/-- `va_arg` gives the next argument when it is of the type asked for; otherwise it has no meaning. -/
def argEnv {σ : Type} (putch : BitVec 32 → σ → σ) (printDouble : BitVec 64 → BitVec 32 → BitVec 32 → σ → σ)
    (digs : Nat → BitVec 32) : Env (List Arg) σ where
  putch := putch
  vaInt
    | .int x :: ap => (x, ap)
    | ap => (0, ap.tail)
  vaLongLong
    | .longLong x :: ap => (x, ap)
    | ap => (0, ap.tail)
  vaDouble
    | .double x :: ap => (x, ap)
    | ap => (0, ap.tail)
  vaString
    | .str p :: ap => (p, ap)
    | ap => (none, ap.tail)
  printDouble := printDouble
  digs := digs

/-- A conversion with its argument. -/
inductive Conversion
  | d (n : BitVec 32)
  | u (n : BitVec 32)
  | o (n : BitVec 32)
  | x (n : BitVec 32)
  | s (p : CString)
  | percent

def digits8 (b n : Nat) : List (BitVec 8) := (numeral b n).map digit8

/-- What stands between the `%` and the conversion: `-`, zeros, and a width (none for 0). As in C, a zero
in front of the width is a flag. -/
structure Flags where
  minus : Bool
  zeros : Nat
  width : Nat

namespace Flags

def text (k : Flags) : List (BitVec 8) :=
  (if k.minus then [0x2d] else []) ++ (List.replicate k.zeros 0x30 ++ if k.width = 0 then [] else digits8 10 k.width)

/-- A field of the prescribed width: blanks behind the text under `-`; otherwise zeros between sign and
text under `0`, or else blanks before the text. -/
def field (k : Flags) (sign body : List (BitVec 8)) : List (BitVec 8) :=
  let fill := k.width - (sign.length + body.length)
  if k.minus then sign ++ body ++ List.replicate fill 0x20
  else if 0 < k.zeros then sign ++ List.replicate fill 0x30 ++ body
  else List.replicate fill 0x20 ++ sign ++ body

/-- What `vprintfmt` has in `padc` and `width` when it comes to the conversion. -/
def padc (k : Flags) : BitVec 8 := if 0 < k.zeros then 0x30 else if k.minus then 0x2d else 0x20

def fieldWidth (k : Flags) : BitVec 32 := if k.width = 0 then -1 else BitVec.ofNat 32 k.width

end Flags

namespace Conversion

def char : Conversion → BitVec 8
  | .d _ => 0x64
  | .u _ => 0x75
  | .o _ => 0x6f
  | .x _ => 0x78
  | .s _ => 0x73
  | .percent => 0x25

def arg : Conversion → List Arg
  | .d n | .u n | .o n | .x n => [.int n]
  | .s p => [.str (some p)]
  | .percent => []

/-- The characters of a conversion as the C standard has them. -/
def prescribed (k : Flags) : Conversion → List (BitVec 8)
  | .d n => k.field (if n.toInt < 0 then [0x2d] else []) (digits8 10 n.toInt.natAbs)
  | .u n => k.field [] (digits8 10 n.toNat)
  | .o n => k.field [] (digits8 8 n.toNat)
  | .x n => k.field [] (digits8 16 n.toNat)
  | .s p => k.field [] p.chars
  | .percent => [0x25]

end Conversion

/-- A piece of a format. -/
inductive Item
  | literal (c : BitVec 8) (h0 : c ≠ 0) (hc : c ≠ 0x25)
  | conv (k : Flags) (c : Conversion)

namespace Item

def text : Item → List (BitVec 8)
  | literal c _ _ => [c]
  | conv k c => 0x25 :: (k.text ++ [c.char])

def arg : Item → List Arg
  | literal .. => []
  | conv _ c => c.arg

def prescribed : Item → List (BitVec 8)
  | literal c _ _ => [c]
  | conv k c => c.prescribed k

end Item

theorem digit8_ne_zero : ∀ d, d < 10 → digit8 d ≠ 0 := by decide

theorem zero_not_mem_digits8 (n : Nat) : 0 ∉ digits8 10 n := by
  intro h
  obtain ⟨d, hd, h0⟩ := List.mem_map.1 h
  exact digit8_ne_zero d (digit_lt (by decide) hd) h0

theorem Flags.zero_not_mem_text (k : Flags) : 0 ∉ k.text := by
  rw [text, List.mem_append, List.mem_append]
  rintro (h | h | h)
  · split_ifs at h
    · exact absurd (List.mem_singleton.1 h) (by decide)
    · exact List.not_mem_nil h
  · exact absurd (List.eq_of_mem_replicate h) (by decide)
  · split_ifs at h
    · exact List.not_mem_nil h
    · exact zero_not_mem_digits8 _ h

theorem Conversion.char_ne_zero (c : Conversion) : c.char ≠ 0 := by
  cases c <;> simp [char]

theorem Item.zero_not_mem_text (it : Item) : 0 ∉ it.text := by
  cases it with
  | literal c h0 hc => exact fun h => h0 (List.mem_singleton.1 h).symm
  | conv k c =>
    rw [text, List.mem_cons, List.mem_append]
    rintro (h | h | h)
    · exact absurd h (by decide)
    · exact k.zero_not_mem_text h
    · exact c.char_ne_zero (List.mem_singleton.1 h).symm

/-- The format string, the arguments and the prescribed characters of a list of pieces. -/
def format (items : List Item) : CString where
  chars := items.flatMap Item.text
  nonzero h := by
    obtain ⟨it, -, h⟩ := List.mem_flatMap.1 h
    exact it.zero_not_mem_text h

def args (items : List Item) : List Arg := items.flatMap Item.arg

def prescribed (items : List Item) : List (BitVec 8) := items.flatMap Item.prescribed

/-! ### From the `%` to the conversion -/

namespace Vprintfmt

variable {V σ : Type} {e : Env V σ} {f : CString} {s : Vprintfmt V σ} {rest : List (BitVec 8)}

theorem At.skip {text : List (BitVec 8)} (h : At f s (text ++ rest)) {s' : Vprintfmt V σ}
    (hs : s'.fmt = s.fmt + text.length) : At f s' rest := by
  have hlen := congrArg List.length h.rest
  have hle := h.le
  rw [List.length_drop, List.length_append] at hlen
  refine ⟨by omega, ?_⟩
  rw [hs, ← List.drop_drop, h.rest, List.drop_left]

theorem leads_step (hpc : s.pc = .switch) {ch : BitVec 8} (hat : At f s (ch :: rest)) :
    Leads (step e f) s (switch e ch { s with fmt := s.fmt + 1 }) :=
  .head (step_switch hpc hat.read ▸ .refl _)

/-- The machine behind an optional `-`, behind zeros, and behind an optional width. -/
def minusRead (minus : Bool) (s : Vprintfmt V σ) : Vprintfmt V σ :=
  { s with
    fmt := s.fmt + (if minus then [0x2d] else [] : List (BitVec 8)).length
    padc := if minus then chr '-' else s.padc }

def zerosRead (zeros : Nat) (s : Vprintfmt V σ) : Vprintfmt V σ :=
  { s with fmt := s.fmt + zeros, padc := if 0 < zeros then chr '0' else s.padc }

def widthRead (k : Flags) (s : Vprintfmt V σ) : Vprintfmt V σ :=
  { s with
    fmt := s.fmt + (if k.width = 0 then [] else digits8 10 k.width).length
    width := k.fieldWidth }

theorem run_minus (minus : Bool) (hpc : s.pc = .switch) (hat : At f s ((if minus then [0x2d] else []) ++ rest)) :
    Leads (step e f) s (minusRead minus s) := by
  cases minus with
  | false => exact .refl _
  | true => exact leads_step hpc hat

theorem run_zeros (zeros : Nat) (hpc : s.pc = .switch) (hat : At f s (List.replicate zeros 0x30 ++ rest)) :
    Leads (step e f) s (zerosRead zeros s) := by
  induction zeros generalizing s with
  | zero => exact .refl _
  | succ zeros ih =>
    rw [List.replicate_succ, List.cons_append] at hat
    have hnext : Leads (step e f) s { s with fmt := s.fmt + 1, padc := chr '0' } := leads_step hpc hat
    have hrun := ih (s := { s with fmt := s.fmt + 1, padc := chr '0' }) hpc (hat.next rfl)
    rw [zerosRead, ite_self] at hrun
    rw [zerosRead, if_pos (Nat.succ_pos zeros), ← Nat.add_assoc, Nat.add_right_comm]
    exact hnext.trans hrun

theorem caseOf_digit8 : ∀ d, d < 10 → caseOf (digit8 d) = if d = 0 then .zero else .digit := by decide

theorem isDigit_digit8 {d : Nat} (hd : d < 10) : isDigit (digit8 d) := by
  rw [isDigit, caseOf_digit8 d hd]
  split_ifs <;> rfl

theorem setWidth_digit8 : ∀ d, d < 10 → (digit8 d).setWidth 32 - chr '0' = BitVec.ofNat 32 d := by decide

/-- The loop over the digits of a width has the width in `precision`: by induction on the number, whose
last digit is read last. -/
theorem run_digits {n : Nat} (hn : n ≠ 0) (hpc : s.pc = .switch) (hat : At f s (digits8 10 n ++ rest)) :
    Leads (step e f) s
      { s with pc := .digits, fmt := s.fmt + (digits8 10 n).length, precision := BitVec.ofNat 32 n } := by
  induction n using Nat.strong_induction_on generalizing rest with
  | _ n ih =>
    by_cases hlt : n < 10
    · have htext : digits8 10 n = [digit8 n] := by rw [digits8, numeral_of_lt hlt]; rfl
      rw [htext] at hat ⊢
      have hswitch : switch e (digit8 n) { s with fmt := s.fmt + 1 } =
          { s with pc := .digits, fmt := s.fmt + 1, precision := BitVec.ofNat 32 n } := by
        rw [switch, caseOf_digit8 n hlt, if_neg hn, setWidth_digit8 n hlt]
      exact hswitch ▸ leads_step hpc hat
    · have htext : digits8 10 n = digits8 10 (n / 10) ++ [digit8 (n % 10)] := by
        rw [digits8, numeral_of_le (by decide) (by omega), List.map_append]; rfl
      rw [htext, List.append_assoc] at hat
      have hmod : n % 10 < 10 := Nat.mod_lt n (by decide)
      have hval : BitVec.ofNat 32 (n / 10) * 10 + (digit8 (n % 10)).setWidth 32 - chr '0' = BitVec.ofNat 32 n := by
        have hten : (10 : BitVec 32) = BitVec.ofNat 32 10 := rfl
        rw [add_sub_assoc, setWidth_digit8 _ hmod, hten, ← BitVec.ofNat_mul, ← BitVec.ofNat_add, Nat.div_add_mod']
      have hrun := ih (n / 10) (by omega) (by omega) hat
      refine hrun.trans (.head ?_)
      rw [step_digits rfl (hat.skip rfl).read, digitsStep, List.singleton_append, List.headD_cons,
        if_pos (isDigit_digit8 hmod), hval, htext, List.length_append, ← Nat.add_assoc]
      exact .refl _

theorem run_width (k : Flags) (hpc : s.pc = .switch) (hw : s.width = -1) (hp : s.precision = -1) {c : BitVec 8}
    (hc : isDigit c = false) (hat : At f s ((if k.width = 0 then [] else digits8 10 k.width) ++ c :: rest)) :
    Leads (step e f) s (widthRead k s) := by
  rw [widthRead, Flags.fieldWidth]
  by_cases h0 : k.width = 0
  · rw [if_pos h0, if_pos h0, ← hw]
    exact .refl _
  · rw [if_neg h0] at hat ⊢
    rw [if_neg h0]
    have hrun := run_digits (e := e) h0 hpc hat
    refine hrun.trans (.head ?_)
    rw [step_digits rfl (hat.skip rfl).read, digitsStep, List.headD_cons, hc, if_neg (by decide)]
    -- there is no width yet, so the number is the width
    have hnone : (-1 : BitVec 32).toInt < 0 := by decide
    rw [processPrecision, hw, if_pos hnone, ← hp, ← hpc]
    exact .refl _

/-- At the character of the conversion; the arguments and the output are as before the `%`. -/
structure Ready (k : Flags) (s s' : Vprintfmt V σ) : Prop where
  pc : s'.pc = .switch
  padc : s'.padc = k.padc.setWidth 32
  width : s'.width = k.fieldWidth
  precision : s'.precision = -1
  lflag : s'.lflag = false
  ap : s'.ap = s.ap
  out : s'.out = s.out

theorem run_flags (k : Flags) (hpc : s.pc = .text) {c : BitVec 8} (hc : isDigit c = false)
    (hat : At f s (0x25 :: (k.text ++ c :: rest))) :
    ∃ s', Leads (step e f) s s' ∧ Ready k s s' ∧ At f s' (c :: rest) := by
  have hstep : step e f s = textStep e 0x25 s := step_text hpc hat.read
  have hat₁ : At f (textStep e 0x25 s) (k.text ++ c :: rest) := hat.next rfl
  rw [Flags.text, List.append_assoc, List.append_assoc] at hat₁
  have hat₂ : At f (minusRead k.minus (textStep e 0x25 s)) _ := hat₁.skip rfl
  have hat₃ : At f (zerosRead k.zeros (minusRead k.minus (textStep e 0x25 s))) _ :=
    hat₂.skip (by rw [List.length_replicate]; rfl)
  have hminus := run_minus (e := e) k.minus rfl hat₁
  have hzeros := run_zeros (e := e) k.zeros rfl hat₂
  have hwidth := run_width (e := e) k rfl rfl rfl hc hat₃
  refine ⟨widthRead k (zerosRead k.zeros (minusRead k.minus (textStep e 0x25 s))), .head ?_, ?_, hat₃.skip rfl⟩
  · rw [hstep]; exact hminus.trans (hzeros.trans hwidth)
  · refine ⟨rfl, ?_, rfl, rfl, rfl, rfl, rfl⟩
    show (if 0 < k.zeros then chr '0' else if k.minus then chr '-' else chr ' ') = _
    rw [Flags.padc]
    split_ifs <;> rfl

end Vprintfmt

end Picorv32Soc.Mylib
