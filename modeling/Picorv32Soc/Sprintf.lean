import Picorv32Soc.Cells
import Picorv32Soc.Format

/-!
# `sprintf`

What `sprintf` stores for a format of conversions `%[-][0][width]c`, and when that is what the C
standard prescribes.
-/

namespace Picorv32Soc.Mylib
open Cells Numeral Steps

/-- `*str` and the memory it points into. -/
structure Buffer where
  mem : BitVec 32 → BitVec 8
  str : BitVec 32

def sprintfPutch (ch : BitVec 32) (b : Buffer) : Buffer :=
  ⟨Function.update b.mem b.str (ch.setWidth 8), b.str + 1⟩

/-- The memory and the result of `sprintf(str, f, ap...)`; `none` while it has not returned. -/
def sprintf (printDouble : BitVec 64 → BitVec 32 → BitVec 32 → Buffer → Buffer) (digs : Nat → BitVec 32)
    (fuel : Nat) (mem : BitVec 32 → BitVec 8) (str : BitVec 32) (f : CString) (ap : List Arg) :
    Option ((BitVec 32 → BitVec 8) × BitVec 32) :=
  let s := (Vprintfmt.step (argEnv sprintfPutch printDouble digs) f)^[fuel] (Vprintfmt.start ap ⟨mem, str⟩)
  if s.pc = .ret then some (Function.update s.out.mem s.out.str 0, s.out.str - str) else none

/-! ### What a conversion puts -/

/-- The padding and the digits that `printnum` puts. -/
def Flags.numberPut (k : Flags) (body : List (BitVec 8)) : List (BitVec 8) :=
  List.replicate (k.fieldWidth.toInt - body.length).toNat k.padc ++ body

/-- The three loops for a string, which count down one `width`. -/
def Flags.stringPut (k : Flags) (p : CString) : List (BitVec 8) :=
  let width := k.fieldWidth - strnlen p (-1)
  let padded := 0 < k.fieldWidth.toInt ∧ k.padc ≠ 0x2d
  let left := if padded then width.toInt.toNat else 0
  let width := if padded then (if 0 < width.toInt then 0 else width) else k.fieldWidth
  List.replicate left k.padc ++
    (p.chars ++ List.replicate (width - BitVec.ofNat 32 p.chars.length).toInt.toNat 0x20)

def Conversion.put (k : Flags) : Conversion → List (BitVec 8)
  | .d n => (if n.toInt < 0 then [0x2d] else []) ++ k.numberPut (digits8 10 n.toInt.natAbs)
  | .u n => k.numberPut (digits8 10 n.toNat)
  | .o n => k.numberPut (digits8 8 n.toNat)
  | .x n => k.numberPut (digits8 16 n.toNat)
  | .s p => k.stringPut p
  | .percent => [0x25]

def Item.put : Item → List (BitVec 8)
  | .literal c _ _ => [c]
  | .conv k c => c.put k

/-- Bytes as the arguments of `putch`. -/
def wide (bs : List (BitVec 8)) : List (BitVec 32) := bs.map (·.setWidth 32)

theorem wide_append (bs cs : List (BitVec 8)) : wide (bs ++ cs) = wide bs ++ wide cs := List.map_append

theorem wide_replicate (n : Nat) (b : BitVec 8) : wide (List.replicate n b) = List.replicate n (b.setWidth 32) :=
  List.map_replicate

section
variable {σ : Type} {putch : BitVec 32 → σ → σ}

theorem fill_eq (c width : BitVec 32) (s : σ) :
    fill putch c width s =
      (if 0 < width.toInt then 0 else width, puts putch (List.replicate width.toInt.toNat c) s) := by
  fun_induction fill putch c width s with
  | case1 width s h ih =>
    have hsub := toInt_sub_one h
    have hn : width.toInt.toNat = (width - 1).toInt.toNat + 1 := by omega
    rw [ih, if_pos h, hn, List.replicate_succ, puts_cons]
    congr 1
    split_ifs with hpos
    · rfl
    · -- the last round
      apply BitVec.eq_of_toInt_eq
      show (width - 1).toInt = 0
      omega
  | case2 width s h =>
    have hn : width.toInt.toNat = 0 := by omega
    rw [if_neg h, hn]; rfl

theorem putString_eq (p : List (BitVec 8)) (width : BitVec 32) (s : σ) :
    putString putch p (-1) width s = (width - BitVec.ofNat 32 p.length, puts putch (wide p) s) := by
  induction p generalizing width s with
  | nil => rw [List.length_nil, BitVec.sub_zero]; rfl
  | cons ch p ih =>
    have hneg : (-1 : BitVec 32).toInt < 0 := by decide
    rw [putString, if_pos hneg, ih, List.length_cons, ofNat_succ, ← BitVec.sub_sub]
    rfl

end

theorem strnlenLoop_eq (p : List (BitVec 8)) (n : Nat) (h : n + p.length < 2 ^ 32) :
    strnlenLoop (-1) p (BitVec.ofNat 32 n) = BitVec.ofNat 32 (n + p.length) := by
  induction p generalizing n with
  | nil => rfl
  | cons ch p ih =>
    rw [List.length_cons] at h
    have hlt : BitVec.ofNat 32 n < -1 := by
      rw [BitVec.lt_def, BitVec.toNat_ofNat, Nat.mod_eq_of_lt (by omega)]
      show n < 2 ^ 32 - 1
      omega
    have hlen : n + (p.length + 1) = n + 1 + p.length := by omega
    rw [strnlenLoop, if_pos hlt, List.length_cons, hlen, ← ih (n + 1) (by omega), BitVec.ofNat_add]
    rfl

theorem strnlen_eq (p : CString) (h : p.chars.length < 2 ^ 32) :
    strnlen p (-1) = BitVec.ofNat 32 p.chars.length := by
  rw [strnlen]
  exact (strnlenLoop_eq p.chars 0 (by omega)).trans (by rw [Nat.zero_add])

theorem digitChars_numeral {b : Nat} (hb : 2 ≤ b) (hb' : b ≤ 16) (n : Nat) :
    digitChars (numeral b n) = wide (digits8 b n) := by
  rw [digitChars, wide, digits8, List.map_map]
  exact List.map_congr_left fun d hd => digitChar_eq d (Nat.lt_of_lt_of_le (digit_lt hb hd) hb')

theorem length_digits8 (b n : Nat) : (digits8 b n).length = (numeral b n).length := List.length_map _

theorem toNat_neg_of_neg {x : BitVec 64} (h : x.toInt < 0) : (-x).toNat = x.toInt.natAbs := by
  have hx := x.isLt
  rw [BitVec.toInt_eq_toNat_cond] at h ⊢
  rw [BitVec.toNat_neg]
  split_ifs at h ⊢ <;> omega

theorem toNat_of_nonneg {x : BitVec 64} (h : ¬ x.toInt < 0) : x.toNat = x.toInt.natAbs := by
  have hx := x.isLt
  rw [BitVec.toInt_eq_toNat_cond] at h ⊢
  split_ifs at h ⊢ <;> omega

namespace Vprintfmt

variable {σ : Type} {putch : BitVec 32 → σ → σ} {printDouble : BitVec 64 → BitVec 32 → BitVec 32 → σ → σ}
  {digs : Nat → BitVec 32} {f : CString} {s t : Vprintfmt (List Arg) σ} {k : Flags} {ap : List Arg}

/-- What the conversion finds. -/
structure Fields (k : Flags) (t : Vprintfmt (List Arg) σ) : Prop where
  padc : t.padc = k.padc.setWidth 32
  width : t.width = k.fieldWidth
  precision : t.precision = -1
  lflag : t.lflag = false

theorem number_put (h : Fields k t) {base : BitVec 32} (hb : 2 ≤ base.toNat) (hb' : base.toNat ≤ 16) (num : BitVec 64) :
    number (argEnv putch printDouble digs) num base t =
      { t with pc := .text, out := puts putch (wide (k.numberPut (digits8 base.toNat num.toNat))) t.out } := by
  rw [number_eq hb, Flags.numberPut, wide_append, wide_replicate, ← digitChars_numeral hb hb', length_digits8,
    ← h.padc, ← h.width]
  rfl

theorem unsigned_put (h : Fields k t) {base : BitVec 32} (hb : 2 ≤ base.toNat) (hb' : base.toNat ≤ 16) {n : BitVec 32}
    (hap : t.ap = .int n :: ap) :
    t.unsignedNumber (argEnv putch printDouble digs) base =
      { t with
        pc := .text
        ap := ap
        out := puts putch (wide (k.numberPut (digits8 base.toNat n.toNat))) t.out } := by
  have hget : getuint (argEnv putch printDouble digs) t.ap t.lflag = (n.setWidth 64, ap) := by
    rw [getuint, h.lflag, hap]; rfl
  have h' : Fields k { t with ap := ap } := ⟨h.padc, h.width, h.precision, h.lflag⟩
  rw [unsignedNumber, hget, number_put h' hb hb', toNat_setWidth_64]

theorem decimal_put (h : Fields k t) {n : BitVec 32} (hap : t.ap = .int n :: ap) :
    t.decimal (argEnv putch printDouble digs) =
      { t with
        pc := .text
        ap := ap
        out := puts putch (wide (Conversion.put k (.d n))) t.out } := by
  have hget : getint (argEnv putch printDouble digs) t.ap t.lflag = (n.signExtend 64, ap) := by
    rw [getint, h.lflag, hap]; rfl
  have hint : (n.signExtend 64).toInt = n.toInt := BitVec.toInt_signExtend_of_le (by decide)
  rw [decimal, hget, Conversion.put, wide_append, puts_append, hint]
  split_ifs with hneg
  · have h' : Fields k { t with ap := ap, out := putch (chr '-') t.out } :=
      ⟨h.padc, h.width, h.precision, h.lflag⟩
    have habs : (-(n.signExtend 64)).toNat = n.toInt.natAbs := by rw [toNat_neg_of_neg (by rwa [hint]), hint]
    exact (number_put h' (by decide) (by decide) _).trans (by rw [habs]; rfl)
  · have h' : Fields k { t with ap := ap } := ⟨h.padc, h.width, h.precision, h.lflag⟩
    have habs : (n.signExtend 64).toNat = n.toInt.natAbs := by rw [toNat_of_nonneg (by rwa [hint]), hint]
    exact (number_put h' (by decide) (by decide) _).trans (by rw [habs]; rfl)

theorem padc_ne_minus (h : Fields k t) : t.padc ≠ chr '-' ↔ k.padc ≠ 0x2d := by
  rw [h.padc, Flags.padc]
  split_ifs <;> decide

theorem string_put (h : Fields k t) {p : CString} (hap : t.ap = .str (some p) :: ap) :
    t.string (argEnv putch printDouble digs) =
      { t with
        pc := .text
        ap := ap
        out := puts putch (wide (k.stringPut p)) t.out } := by
  have hget : (argEnv putch printDouble digs).vaString t.ap = (some p, ap) := by rw [hap]; rfl
  have hspace : chr ' ' = (0x20 : BitVec 8).setWidth 32 := rfl
  rw [string, hget, h.precision, Flags.stringPut, wide_append, wide_append, wide_replicate, wide_replicate,
    puts_append, puts_append, ← hspace, ← h.padc, ← h.width]
  simp only [padc_ne_minus h, putString_eq, fill_eq, Option.getD_some]
  split_ifs <;> rfl

theorem isDigit_char (c : Conversion) : isDigit c.char = false := by
  cases c <;> rfl

theorem switch_put (c : Conversion) (h : Fields k t) (hap : t.ap = c.arg ++ ap) :
    switch (argEnv putch printDouble digs) c.char t =
      { t with pc := .text, ap := ap, out := puts putch (wide (c.put k)) t.out } := by
  cases c with
  | d n => exact decimal_put h hap
  | u n => exact unsigned_put h (by decide) (by decide) hap
  | o n => exact unsigned_put h (by decide) (by decide) hap
  | x n => exact unsigned_put h (by decide) (by decide) hap
  | s p => exact string_put h hap
  | percent =>
    have hap' : t.ap = ap := hap
    rw [← hap']; rfl

variable (putch printDouble digs)

/-- One piece of the format. -/
theorem run_item (it : Item) {rest : List (BitVec 8)} (hpc : s.pc = .text) (hat : At f s (it.text ++ rest))
    (hap : s.ap = it.arg ++ ap) :
    ∃ s', Leads (step (argEnv putch printDouble digs) f) s s' ∧ s'.pc = .text ∧ At f s' rest ∧ s'.ap = ap ∧
      s'.out = puts putch (wide it.put) s.out := by
  cases it with
  | literal c h0 hc =>
    have hstep := step_plain (e := argEnv putch printDouble digs) hpc hat hc h0
    refine ⟨_, .head (.refl _), ?_⟩
    rw [hstep]
    exact ⟨hpc, hat.next rfl, hap, rfl⟩
  | conv k c =>
    rw [Item.text, List.cons_append, List.append_assoc] at hat
    obtain ⟨s₁, hrun, hready, hat₁⟩ := run_flags (e := argEnv putch printDouble digs) k hpc (isDigit_char c) hat
    have hfields : Fields k { s₁ with fmt := s₁.fmt + 1 } :=
      ⟨hready.padc, hready.width, hready.precision, hready.lflag⟩
    have hconv := leads_step (e := argEnv putch printDouble digs) hready.pc hat₁
    rw [switch_put c hfields (hready.ap.trans hap)] at hconv
    exact ⟨_, hrun.trans hconv, rfl, hat₁.next rfl, rfl, by rw [← hready.out]; rfl⟩

/-- A whole format, piece by piece. -/
theorem run_items (items : List Item) (hpc : s.pc = .text) (hat : At f s (items.flatMap Item.text))
    (hap : s.ap = args items ++ ap) :
    ∃ s', Leads (step (argEnv putch printDouble digs) f) s s' ∧ s'.pc = .ret ∧
      s'.out = puts putch (wide (items.flatMap Item.put)) s.out := by
  induction items generalizing s with
  | nil =>
    refine ⟨_, .head (.refl _), ?_⟩
    rw [step_end hpc hat]
    exact ⟨rfl, rfl⟩
  | cons it items ih =>
    rw [List.flatMap_cons] at hat
    have hap' : s.ap = it.arg ++ (args items ++ ap) := by
      rw [hap, args, List.flatMap_cons, List.append_assoc]; rfl
    obtain ⟨s₁, hrun, hpc₁, hat₁, hap₁, hout₁⟩ := run_item putch printDouble digs it hpc hat hap'
    obtain ⟨s', hrun', hret, hout⟩ := ih hpc₁ hat₁ hap₁
    refine ⟨s', hrun.trans hrun', hret, ?_⟩
    rw [hout, hout₁, List.flatMap_cons, wide_append, puts_append]

end Vprintfmt

theorem setWidth_setWidth_8 (b : BitVec 8) : (b.setWidth 32).setWidth 8 = b := by
  have hb := b.isLt
  apply BitVec.eq_of_toNat_eq
  rw [BitVec.toNat_setWidth, BitVec.toNat_setWidth]
  omega

theorem puts_sprintfPutch (bs : List (BitVec 8)) (mem : BitVec 32 → BitVec 8) (str : BitVec 32) :
    puts sprintfPutch (wide bs) ⟨mem, str⟩ = ⟨store mem str bs, str + BitVec.ofNat 32 bs.length⟩ := by
  induction bs generalizing mem str with
  | nil => rw [List.length_nil, add_ofNat_zero]; rfl
  | cons b bs ih =>
    show puts sprintfPutch (wide bs) ⟨Function.update mem str ((b.setWidth 32).setWidth 8), str + 1⟩ = _
    rw [ih, setWidth_setWidth_8, List.length_cons, add_ofNat_succ]
    rfl

section
variable (printDouble : BitVec 64 → BitVec 32 → BitVec 32 → Buffer → Buffer) (digs : Nat → BitVec 32)

/-- What `sprintf` stores and returns. -/
theorem sprintf_eq (items : List Item) (rest : List Arg) (mem : BitVec 32 → BitVec 8) (str : BitVec 32) :
    ∃ n, ∀ fuel, n ≤ fuel → sprintf printDouble digs fuel mem str (format items) (args items ++ rest) =
      some (store mem str (items.flatMap Item.put ++ [0]), BitVec.ofNat 32 (items.flatMap Item.put).length) := by
  have hat : Vprintfmt.At (format items) (Vprintfmt.start (args items ++ rest) (⟨mem, str⟩ : Buffer))
      (items.flatMap Item.text) := ⟨Nat.zero_le _, rfl⟩
  obtain ⟨s', hrun, hret, hout⟩ :=
    Vprintfmt.run_items sprintfPutch printDouble digs items rfl hat rfl
  obtain ⟨n, hn⟩ := hrun.stays (Vprintfmt.step_ret hret)
  refine ⟨n, ?_⟩
  intro fuel hfuel
  have hout' : s'.out = _ := hout.trans (puts_sprintfPutch _ _ _)
  rw [sprintf, hn fuel hfuel, if_pos hret, hout', store_append, BitVec.add_comm str, BitVec.add_sub_cancel,
    BitVec.add_comm]
  rfl

end

/-! ### When it is what is prescribed -/

theorem toInt_ofNat_sub (a b : Nat) : (BitVec.ofNat 32 a - BitVec.ofNat 32 b).toInt = ((a : Int) - b).bmod (2 ^ 32) := by
  rw [BitVec.toInt_sub, BitVec.toInt_ofNat', BitVec.toInt_ofNat', Int.sub_bmod_bmod, Int.bmod_sub_bmod]

theorem bmod_eq {x : Int} (h : -2 ^ 31 ≤ x) (h' : x < 2 ^ 31) : x.bmod (2 ^ 32) = x :=
  Int.bmod_eq_of_le (by omega) (by omega)

theorem toInt_ofNat {n : Nat} (h : n < 2 ^ 31) : (BitVec.ofNat 32 n).toInt = n := by
  rw [BitVec.toInt_ofNat']; exact bmod_eq (by omega) (by omega)

/-- What is put is not shorter than what is prescribed, at most three times as long, and the same under
a condition. -/
structure Fits (put field : List (BitVec 8)) (good : Prop) : Prop where
  le : field.length ≤ put.length
  le_three : put.length ≤ 3 * field.length
  eq_iff : put = field ↔ good

namespace Fits
variable {put put' field field' : List (BitVec 8)} {good good' : Prop}

theorem congr (h : Fits put field good) (hg : good ↔ good') : Fits put field good' :=
  ⟨h.le, h.le_three, h.eq_iff.trans hg⟩

theorem refl (field : List (BitVec 8)) (hg : good) : Fits field field good :=
  ⟨Nat.le_refl _, by omega, iff_of_true rfl hg⟩

/-- Both parts have their length when the whole has. -/
theorem append (h : Fits put field good) (h' : Fits put' field' good') :
    Fits (put ++ put') (field ++ field') (good ∧ good') := by
  have hle := h.le
  have hle' := h'.le
  have hthree := h.le_three
  have hthree' := h'.le_three
  refine ⟨by rw [List.length_append, List.length_append]; omega,
    by rw [List.length_append, List.length_append]; omega, ?_⟩
  rw [← h.eq_iff, ← h'.eq_iff]
  constructor
  · intro heq
    have hlen := congrArg List.length heq
    rw [List.length_append, List.length_append] at hlen
    exact List.append_inj heq (by omega)
  · rintro ⟨rfl, rfl⟩
    rfl

end Fits

namespace Flags
variable {k : Flags}

theorem length_field (k : Flags) (sign body : List (BitVec 8)) :
    (k.field sign body).length = max k.width (sign.length + body.length) := by
  rw [field]
  split_ifs <;> simp only [List.length_append, List.length_replicate] <;> omega

theorem toInt_fieldWidth (h : k.width < 2 ^ 31) : k.fieldWidth.toInt = if k.width = 0 then -1 else (k.width : Int) := by
  rw [fieldWidth]
  split_ifs
  · rfl
  · exact toInt_ofNat h

theorem numberPut_eq (h : k.width < 2 ^ 31) (body : List (BitVec 8)) :
    k.numberPut body = List.replicate (k.width - body.length) k.padc ++ body := by
  have hpad : (k.fieldWidth.toInt - body.length).toNat = k.width - body.length := by
    rw [toInt_fieldWidth h]
    split_ifs <;> omega
  rw [numberPut, hpad]

theorem field_of_le {sign body : List (BitVec 8)} (h : k.width ≤ sign.length + body.length) :
    k.field sign body = sign ++ body := by
  rw [field, Nat.sub_eq_zero_of_le h]
  split_ifs <;> simp

theorem toInt_fieldWidth_sub (h : k.width < 2 ^ 31) {n : Nat} (hn : n < 2 ^ 31) :
    (k.fieldWidth - BitVec.ofNat 32 n).toInt.toNat = k.width - n := by
  rw [fieldWidth]
  split_ifs with h0
  · have hneg : (-1 : BitVec 32) - BitVec.ofNat 32 n = BitVec.ofNat 32 0 - BitVec.ofNat 32 (n + 1) := by
      rw [ofNat_succ, ← BitVec.sub_sub]; rfl
    rw [hneg, toInt_ofNat_sub, bmod_eq (by omega) (by omega)]
    omega
  · rw [toInt_ofNat_sub, bmod_eq (by omega) (by omega)]
    omega

/-- A width of 0 and the flag `-` alone leave the first loop out. -/
theorem padded_iff (h : k.width < 2 ^ 31) : 0 < k.fieldWidth.toInt ∧ k.padc ≠ 0x2d ↔
    0 < k.width ∧ (k.minus = false ∨ 0 < k.zeros) := by
  have hwidth : 0 < k.fieldWidth.toInt ↔ 0 < k.width := by
    rw [toInt_fieldWidth h]
    split_ifs <;> omega
  have hpadc : k.padc ≠ 0x2d ↔ k.minus = false ∨ 0 < k.zeros := by
    rw [padc]
    split_ifs with hz hm
    · simp [hz]
    · simp [hz, hm]
    · simp [hm]
  rw [hwidth, hpadc]

variable {p : CString}

theorem stringPut_unpadded (h : k.width < 2 ^ 31) (hp : p.chars.length < 2 ^ 31)
    (hpad : ¬ (0 < k.width ∧ (k.minus = false ∨ 0 < k.zeros))) :
    k.stringPut p = p.chars ++ List.replicate (k.width - p.chars.length) 0x20 := by
  rw [← padded_iff h] at hpad
  rw [stringPut, if_neg hpad, if_neg hpad, toInt_fieldWidth_sub h hp]
  rfl

theorem stringPut_padded (h : k.width < 2 ^ 31) (hp : p.chars.length < 2 ^ 31)
    (hpad : 0 < k.width ∧ (k.minus = false ∨ 0 < k.zeros)) (hlt : p.chars.length < k.width) :
    k.stringPut p = List.replicate (k.width - p.chars.length) k.padc ++ p.chars := by
  rw [← padded_iff h] at hpad
  have hleft := toInt_fieldWidth_sub h hp
  have hpos : 0 < (k.fieldWidth - BitVec.ofNat 32 p.chars.length).toInt := by omega
  have hright : ((0 : BitVec 32) - BitVec.ofNat 32 p.chars.length).toInt.toNat = 0 := by
    have hzero : (0 : BitVec 32) = BitVec.ofNat 32 0 := rfl
    rw [hzero, toInt_ofNat_sub, bmod_eq (by omega) (by omega)]
    omega
  rw [stringPut, strnlen_eq p (by omega), if_pos hpad, if_pos hpad, if_pos hpos, hleft, hright,
    List.replicate_zero, List.append_nil]

/-- The characters of a long string are taken from `width` twice, and past the least `int` it is positive. -/
theorem stringPut_long (h : k.width < 2 ^ 31) (hp : p.chars.length < 2 ^ 31)
    (hpad : 0 < k.width ∧ (k.minus = false ∨ 0 < k.zeros)) (hle : k.width ≤ p.chars.length) :
    k.stringPut p = p.chars ++ List.replicate
      (if 2 * p.chars.length ≤ 2 ^ 31 + k.width then 0 else 2 ^ 32 + k.width - 2 * p.chars.length) 0x20 := by
  have h0 : k.width ≠ 0 := by omega
  rw [← padded_iff h] at hpad
  have hleft := toInt_fieldWidth_sub h hp
  have hpos : ¬ 0 < (k.fieldWidth - BitVec.ofNat 32 p.chars.length).toInt := by omega
  have htwice : k.fieldWidth - BitVec.ofNat 32 p.chars.length - BitVec.ofNat 32 p.chars.length =
      BitVec.ofNat 32 k.width - BitVec.ofNat 32 (2 * p.chars.length) := by
    rw [fieldWidth, if_neg h0, BitVec.sub_sub, ← BitVec.ofNat_add, Nat.two_mul]
  have hright : (k.fieldWidth - BitVec.ofNat 32 p.chars.length - BitVec.ofNat 32 p.chars.length).toInt.toNat =
      if 2 * p.chars.length ≤ 2 ^ 31 + k.width then 0 else 2 ^ 32 + k.width - 2 * p.chars.length := by
    rw [htwice, toInt_ofNat_sub]
    split_ifs with hlong
    · rw [bmod_eq (by omega) (by omega)]; omega
    · rw [← Int.add_bmod_right, bmod_eq (by omega) (by omega)]; omega
  have hzero : k.width - p.chars.length = 0 := by omega
  rw [stringPut, strnlen_eq p (by omega), if_pos hpad, if_pos hpad, if_neg hpos, hleft, hright, hzero,
    List.replicate_zero, List.nil_append]

theorem number_fits {sign body : List (BitVec 8)} (hs : sign.length ≤ 1) (hbody : body ≠ []) (hblank : 0x20 ∉ body)
    (h : (k.field sign body).length < 2 ^ 31) :
    Fits (sign ++ k.numberPut body) (k.field sign body)
      (k.width ≤ body.length ∨ k.minus = false ∧ sign = []) := by
  have hpos := List.length_pos_iff.2 hbody
  have hfield := k.length_field sign body
  have hput := numberPut_eq (k := k) (by omega) body
  have hlen : (sign ++ k.numberPut body).length = sign.length + max k.width body.length := by
    rw [hput, List.length_append, List.length_append, List.length_replicate]; omega
  refine ⟨by omega, by omega, ?_⟩
  by_cases hw : k.width ≤ body.length
  · refine iff_of_true ?_ (Or.inl hw)
    rw [field_of_le (by omega), hput, Nat.sub_eq_zero_of_le hw, List.replicate_zero, List.nil_append]
  · rw [or_iff_right hw]
    constructor
    · intro heq
      have hlen' := congrArg List.length heq
      obtain rfl : sign = [] := List.eq_nil_of_length_eq_zero (by omega)
      refine ⟨?_, rfl⟩
      rcases Bool.eq_false_or_eq_true k.minus with hm | hm
      · -- left-justified, the field ends with a blank, and the digits do not
        rw [hput, field, if_pos hm, List.nil_append, List.nil_append, List.length_nil, Nat.zero_add] at heq
        have hlast := congrArg List.getLast? heq
        rw [List.getLast?_append_of_ne_nil _ hbody, List.getLast?_append_of_ne_nil _ (by simp; omega),
          List.getLast?_replicate, if_neg (by omega)] at hlast
        exact absurd (List.mem_of_getLast? hlast) hblank
      · exact hm
    · rintro ⟨hm, rfl⟩
      rw [hput, field, padc, hm, List.length_nil, Nat.zero_add]
      split_ifs <;> simp_all

/-- When a string is padded as prescribed. -/
def StringGood (k : Flags) (p : CString) : Prop :=
  k.width = 0 ∨ (k.minus = true ∧ k.zeros = 0) ∨
    if p.chars.length < k.width then k.minus = false else 2 * p.chars.length ≤ 2 ^ 31 + k.width

theorem unpadded_fits (h : k.width < 2 ^ 31) (hp : p.chars.length < 2 ^ 31)
    (hpad : ¬ (0 < k.width ∧ (k.minus = false ∨ 0 < k.zeros))) :
    Fits (k.stringPut p) (k.field [] p.chars) (k.StringGood p) := by
  have heq : k.stringPut p = k.field [] p.chars := by
    rw [stringPut_unpadded h hp hpad]
    by_cases h0 : k.width = 0
    · rw [field_of_le (by omega), h0, Nat.zero_sub]; simp
    · have hm : k.minus = true := by
        by_contra hm
        exact hpad ⟨by omega, Or.inl (by simpa using hm)⟩
      rw [field, if_pos hm, List.length_nil, Nat.zero_add]; rfl
  refine ⟨by rw [heq], by rw [heq]; omega, iff_of_true heq ?_⟩
  by_cases h0 : k.width = 0
  · exact Or.inl h0
  · right; left
    rw [not_and_or, not_or] at hpad
    rcases hpad with hw | ⟨hm, hz⟩
    · omega
    · exact ⟨by simpa using hm, by omega⟩

theorem padded_fits (h : k.width < 2 ^ 31) (hp : p.chars.length < 2 ^ 31)
    (hpad : 0 < k.width ∧ (k.minus = false ∨ 0 < k.zeros)) (hlt : p.chars.length < k.width) :
    Fits (k.stringPut p) (k.field [] p.chars) (k.minus = false) := by
  have hput := stringPut_padded h hp hpad hlt
  have hfield := k.length_field [] p.chars
  rw [List.length_nil, Nat.zero_add] at hfield
  have hlen : (k.stringPut p).length = k.width := by
    rw [hput, List.length_append, List.length_replicate]; omega
  refine ⟨by omega, by omega, ?_⟩
  rw [hput, field, List.length_nil, Nat.zero_add]
  cases hm : k.minus with
  | false =>
    refine iff_of_true ?_ rfl
    rw [padc, hm]
    split_ifs <;> simp_all
  | true =>
    -- the zeros before the text have no counterpart in the field
    have hz : 0 < k.zeros := hpad.2.resolve_left (by rw [hm]; decide)
    refine iff_of_false ?_ (by decide)
    intro heq
    have hcount := congrArg (List.count 0x30) heq
    rw [if_pos rfl, padc, if_pos hz, List.nil_append, List.count_append, List.count_append,
      List.count_replicate_self, List.count_replicate, if_neg (by decide)] at hcount
    omega

theorem long_fits (h : k.width < 2 ^ 31) (hp : p.chars.length < 2 ^ 31)
    (hpad : 0 < k.width ∧ (k.minus = false ∨ 0 < k.zeros)) (hle : k.width ≤ p.chars.length) :
    Fits (k.stringPut p) (k.field [] p.chars) (2 * p.chars.length ≤ 2 ^ 31 + k.width) := by
  have hput := stringPut_long h hp hpad hle
  have hfield : k.field [] p.chars = p.chars := field_of_le (by rwa [List.length_nil, Nat.zero_add])
  rw [hfield, hput]
  split_ifs with hlong
  · rw [List.replicate_zero, List.append_nil]
    exact ⟨Nat.le_refl _, by omega, iff_of_true rfl hlong⟩
  · have hlen : (p.chars ++ List.replicate (2 ^ 32 + k.width - 2 * p.chars.length) (0x20 : BitVec 8)).length =
        2 ^ 32 + k.width - p.chars.length := by
      rw [List.length_append, List.length_replicate]; omega
    refine ⟨by omega, by omega, iff_of_false ?_ hlong⟩
    intro heq
    have hlen' := congrArg List.length heq
    omega

theorem string_fits (h : (k.field [] p.chars).length < 2 ^ 31) :
    Fits (k.stringPut p) (k.field [] p.chars) (k.StringGood p) := by
  rw [length_field, List.length_nil, Nat.zero_add] at h
  have hw : k.width < 2 ^ 31 := by omega
  have hp : p.chars.length < 2 ^ 31 := by omega
  by_cases hpad : 0 < k.width ∧ (k.minus = false ∨ 0 < k.zeros)
  · have hnot : ¬ (k.minus = true ∧ k.zeros = 0) := by
      rintro ⟨hm, hz⟩
      rcases hpad.2 with hm' | hz'
      · rw [hm] at hm'; exact absurd hm' (by decide)
      · omega
    rw [StringGood, or_iff_right (Nat.ne_of_gt hpad.1), or_iff_right hnot]
    split_ifs with hlt
    · exact padded_fits hw hp hpad hlt
    · exact long_fits hw hp hpad (Nat.le_of_not_lt hlt)
  · exact unpadded_fits hw hp hpad

end Flags

theorem digits8_ne_nil (b n : Nat) : digits8 b n ≠ [] := by
  rw [← List.length_pos_iff, length_digits8]
  exact length_numeral_pos b n

theorem digit8_ne_blank : ∀ d, d < 16 → digit8 d ≠ 0x20 := by decide

theorem blank_not_mem_digits8 {b : Nat} (hb : 2 ≤ b) (hb' : b ≤ 16) (n : Nat) : 0x20 ∉ digits8 b n := by
  intro h
  obtain ⟨d, hd, hblank⟩ := List.mem_map.1 h
  exact digit8_ne_blank d (Nat.lt_of_lt_of_le (digit_lt hb hd) hb') hblank

/-- When a conversion is printed as prescribed: a number that fills its width, or that is not negative
and not left-justified; and a string as in `StringGood`. -/
def Conversion.Good (k : Flags) : Conversion → Prop
  | .d n => k.width ≤ (digits8 10 n.toInt.natAbs).length ∨ k.minus = false ∧ 0 ≤ n.toInt
  | .u n => k.width ≤ (digits8 10 n.toNat).length ∨ k.minus = false
  | .o n => k.width ≤ (digits8 8 n.toNat).length ∨ k.minus = false
  | .x n => k.width ≤ (digits8 16 n.toNat).length ∨ k.minus = false
  | .s p => k.StringGood p
  | .percent => True

theorem unsigned_fits {k : Flags} {b n : Nat} (hb : 2 ≤ b) (hb' : b ≤ 16)
    (h : (k.field [] (digits8 b n)).length < 2 ^ 31) :
    Fits (k.numberPut (digits8 b n)) (k.field [] (digits8 b n))
      (k.width ≤ (digits8 b n).length ∨ k.minus = false) := by
  have hs : ([] : List (BitVec 8)).length ≤ 1 := Nat.zero_le 1
  have hfits := Flags.number_fits hs (digits8_ne_nil b n) (blank_not_mem_digits8 hb hb' n) h
  rw [List.nil_append] at hfits
  exact hfits.congr (by simp)

theorem Conversion.fits {k : Flags} {c : Conversion} (h : (c.prescribed k).length < 2 ^ 31) :
    Fits (c.put k) (c.prescribed k) (c.Good k) := by
  cases c with
  | d n =>
    have hs : (if n.toInt < 0 then [0x2d] else [] : List (BitVec 8)).length ≤ 1 := by split_ifs <;> simp
    refine (Flags.number_fits hs (digits8_ne_nil _ _) (blank_not_mem_digits8 (by decide) (by decide) _) h).congr ?_
    rw [Conversion.Good]
    split_ifs with hneg
    · simp [hneg]
    · simp [Int.not_lt.1 hneg]
  | u n => exact unsigned_fits (by decide) (by decide) h
  | o n => exact unsigned_fits (by decide) (by decide) h
  | x n => exact unsigned_fits (by decide) (by decide) h
  | s p => exact Flags.string_fits h
  | percent => exact .refl _ trivial

def Item.Good : Item → Prop
  | .literal .. => True
  | .conv k c => c.Good k

theorem Item.fits {it : Item} (h : it.prescribed.length < 2 ^ 31) : Fits it.put it.prescribed it.Good := by
  cases it with
  | literal c h0 hc => exact .refl _ trivial
  | conv k c => exact Conversion.fits h

theorem items_fit {items : List Item} (h : (prescribed items).length < 2 ^ 31) :
    Fits (items.flatMap Item.put) (prescribed items) (∀ it ∈ items, it.Good) := by
  induction items with
  | nil => exact .refl _ (fun _ hit => absurd hit List.not_mem_nil)
  | cons it items ih =>
    rw [prescribed, List.flatMap_cons, List.length_append, ← prescribed] at h
    rw [prescribed, List.flatMap_cons, List.flatMap_cons, ← prescribed]
    exact ((Item.fits (by omega)).append (ih (by omega))).congr List.forall_mem_cons.symm

/-- What `sprintf` stores is what the C standard prescribes, and it returns its length, exactly when the
text has less than `2 ^ 31` characters and every conversion is good. -/
theorem sprintf_prescribed_iff (printDouble : BitVec 64 → BitVec 32 → BitVec 32 → Buffer → Buffer)
    (digs : Nat → BitVec 32) (items : List Item) (rest : List Arg) (mem : BitVec 32 → BitVec 8) (str : BitVec 32) :
    ∃ n mem' ret,
      (∀ fuel, n ≤ fuel →
        sprintf printDouble digs fuel mem str (format items) (args items ++ rest) = some (mem', ret)) ∧
      (Holds mem' str (prescribed items ++ [0]) ∧ ret.toInt = (prescribed items).length ↔
        (prescribed items).length < 2 ^ 31 ∧ ∀ it ∈ items, it.Good) := by
  obtain ⟨n, hrun⟩ := sprintf_eq printDouble digs items rest mem str
  refine ⟨n, _, _, hrun, ?_⟩
  constructor
  · rintro ⟨hmem, hret⟩
    have hlt : (prescribed items).length < 2 ^ 31 := by
      have := BitVec.toInt_lt (x := BitVec.ofNat 32 (items.flatMap Item.put).length)
      omega
    have hfits := items_fit hlt
    have hle := hfits.le
    have hthree := hfits.le_three
    -- the result is the length of the text modulo `2 ^ 32`, and the text is not longer by so much
    have hlen : (items.flatMap Item.put).length = (prescribed items).length := by
      rw [BitVec.toInt_ofNat', Int.bmod_def] at hret
      split_ifs at hret <;> omega
    refine ⟨hlt, hfits.eq_iff.1 ?_⟩
    have hstored : Holds (store mem str (items.flatMap Item.put ++ [0])) str (items.flatMap Item.put ++ [0]) :=
      holds_store (by rw [List.length_append, List.length_singleton]; omega)
    exact hstored.append.eq_of_length hmem.append hlen
  · rintro ⟨hlt, hgood⟩
    rw [(items_fit hlt).eq_iff.2 hgood]
    refine ⟨holds_store (by rw [List.length_append, List.length_singleton]; omega), ?_⟩
    exact toInt_ofNat hlt

/-- `%5d` of -42: the sign comes before the padding and is not counted. -/
theorem sprintf_sign :
    (sprintf (fun _ _ _ b => b) (fun _ => 0) 10 (fun _ => 0) 0x1000 (format [.conv ⟨false, 0, 5⟩ (.d (-42))])
        [.int (-42)]).map (fun r => ((List.range 7).map fun i => r.1 (0x1000 + BitVec.ofNat 32 i), r.2)) =
      some ([0x2d, 0x20, 0x20, 0x20, 0x34, 0x32, 0], 6) ∧
    prescribed [.conv ⟨false, 0, 5⟩ (.d (-42))] = [0x20, 0x20, 0x2d, 0x34, 0x32] := by
  decide +kernel

end Picorv32Soc.Mylib
