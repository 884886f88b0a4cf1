import Picorv32Soc.Bits
import Picorv32Soc.HexText

/-!
# `makehex.py`

The script that cuts the firmware into the initial contents of the block RAMs: one text file for each
byte lane of each block of `blockramsize` words, with zeros behind the end of the firmware. Four files
are open at a time, `f0` .. `f3` for the four lanes; at the end of a block they are closed and, unless
all `ramnum` files have been used, the next four are opened. `makehex_spec` says which bytes every file
has in the end, and `makehex_complete_iff` when the files have the whole firmware.
-/

namespace Picorv32Soc
open Bits HexText

/-- Paths and texts of files. -/
abbrev Files := List Char → Option (List Char)

def lanes : List (BitVec 2) := [0, 1, 2, 3]

/-- The variables of the script: `f l` is the path of the open file, `none` when it is closed. -/
structure Makehex where
  files : Files
  f : BitVec 2 → Option (List Char)
  ramidx : Nat

namespace Makehex

/-- `'hex/'+binfile[0:-1-3]+'ram%02d'%(ramidx)+'.hex'`, in the working directory `cwd`. -/
def ramPath (cwd binfile : List Char) (ramidx : Nat) : List Char :=
  cwd ++ "hex/".toList ++ binfile.take (binfile.length - 4) ++ "ram".toList ++ decimal 2 ramidx ++ ".hex".toList

def zeroPath (cwd : List Char) : List Char := cwd ++ "hex/firmwarezero.hex".toList

section
variable (path : Nat → List Char)

def openRam (s : Makehex) (l : BitVec 2) : Makehex where
  files := Function.update s.files (path s.ramidx) (some [])
  f := Function.update s.f l (some (path s.ramidx))
  ramidx := s.ramidx + 1

def openAll (s : Makehex) : Makehex := lanes.foldl (openRam path) s

def write (s : Makehex) (l : BitVec 2) (text : List Char) : Option Makehex := do
  let p ← s.f l
  let t ← s.files p
  return { s with files := Function.update s.files p (some (t ++ text)) }

def closeAll (s : Makehex) : Makehex := { s with f := fun _ => none }

/-- The four lines of word `i`. -/
def writeWord (bindata : List (BitVec 8)) (s : Makehex) (i : Nat) : Option Makehex :=
  if i < bindata.length / 4 then
    let w := (bindata.drop (4 * i)).take 4
    lanes.foldlM (fun s l => do s.write l (line (← w[l.toNat]?))) s
  else lanes.foldlM (fun s l => s.write l "00\n".toList) s

/-- The body of the loop. -/
def body (ramnum blockramsize : Nat) (bindata : List (BitVec 8)) (s : Makehex) (i : Nat) : Option Makehex := do
  let s ← s.writeWord bindata i
  if i &&& (blockramsize - 1) = blockramsize - 1 then
    if s.closeAll.ramidx ≠ ramnum then return s.closeAll.openAll path else return s.closeAll
  else return s

end

def start : Makehex := ⟨fun _ => none, fun _ => none, 0⟩

/-- The integer next to `a / b`, of two the even one. -/
def roundDiv (a b : Nat) : Nat :=
  if b < 2 * (a % b) ∨ 2 * (a % b) = b ∧ a / b % 2 = 1 then a / b + 1 else a / b

/-- `int(a/b)`: the quotient is rounded to the 53 bits of a floating-point number before its fraction is cut
off. There is none for `b = 0` and when it is too large for such a number. -/
def intTrueDiv (a b : Nat) : Option Nat :=
  let q := a / b
  if b = 0 then none
  else if q < 2 ^ 53 then
    let s := if q = 0 then 53 else 52 - q.log2
    some (roundDiv (a * 2 ^ s) b / 2 ^ s)
  else
    let e := q.log2 - 52
    let r := roundDiv a (b * 2 ^ e) * 2 ^ e
    if r < 2 ^ 1024 then some r else none

/-- A quotient without a remainder that has 53 bits is not rounded. -/
theorem intTrueDiv_mul {n b : Nat} (hb : 0 < b) (hn : n < 2 ^ 53) : intTrueDiv (n * b) b = some n := by
  have hq : n * b / b = n := Nat.mul_div_cancel n hb
  have hround : ∀ s, roundDiv (n * b * 2 ^ s) b = n * 2 ^ s := by
    intro s
    rw [Nat.mul_right_comm, roundDiv, Nat.mul_mod_left, Nat.mul_div_cancel _ hb, if_neg (by omega)]
  simp only [intTrueDiv, hq, hround]
  rw [if_neg (by omega), if_pos hn, Nat.mul_div_cancel _ (Nat.two_pow_pos _)]

/-- The script, and the files there are when it is done; `none` when an assertion fails or a closed file
is written. -/
def makehex (cwd binfile : List Char) (ramsize blockramsize : Nat) (bindata : List (BitVec 8)) : Option Files := do
  let ramnum ← intTrueDiv ramsize blockramsize
  if bindata.length < 4 * ramsize ∧ bindata.length % 4 = 0 then
    let s ← (List.range (ramsize >>> 2)).foldlM (body (ramPath cwd binfile) ramnum blockramsize bindata)
      (start.openAll (ramPath cwd binfile))
    return Function.update s.files (zeroPath cwd) (some (List.replicate 4096 "00\n".toList).flatten)
  else none

/-! ### The four files that are open -/

section
variable {path : Nat → List Char}

theorem f_openAll (s : Makehex) (l : BitVec 2) :
    (s.openAll path).f l = some (path (s.ramidx + l.toNat)) := by
  rcases lane_cases l with rfl | rfl | rfl | rfl <;> rfl

theorem files_openAll (hp : Function.Injective path) (s : Makehex) (l : BitVec 2) :
    (s.openAll path).files (path (s.ramidx + l.toNat)) = some [] := by
  rcases lane_cases l with rfl | rfl | rfl | rfl <;>
    simp [openAll, lanes, openRam, Function.update_apply, hp.eq_iff]

theorem files_openAll_of_ne {s : Makehex} {p : List Char} (h : ∀ l : BitVec 2, p ≠ path (s.ramidx + l.toNat)) :
    (s.openAll path).files p = s.files p := by
  have h0 := h 0
  have h1 := h 1
  have h2 := h 2
  have h3 := h 3
  simp_all [openAll, lanes, openRam]

/-- Writing one line to each of several open files. -/
theorem foldlM_write {q x t : BitVec 2 → List Char} (hq : Function.Injective q) {ls : List (BitVec 2)}
    (hnd : ls.Nodup) {s : Makehex} (hf : ∀ l ∈ ls, s.f l = some (q l))
    (hx : ∀ l ∈ ls, s.files (q l) = some (x l)) :
    ∃ files, ls.foldlM (fun s l => s.write l (t l)) s = some { s with files := files } ∧
      (∀ l ∈ ls, files (q l) = some (x l ++ t l)) ∧ ∀ p, (∀ l ∈ ls, p ≠ q l) → files p = s.files p := by
  induction ls generalizing s with
  | nil => exact ⟨s.files, rfl, fun _ hl => absurd hl List.not_mem_nil, fun _ _ => rfl⟩
  | cons l ls ih =>
    obtain ⟨hl, hnd⟩ := List.nodup_cons.1 hnd
    have hw : s.write l (t l) = some { s with files := Function.update s.files (q l) (some (x l ++ t l)) } := by
      rw [write, hf l List.mem_cons_self]
      show (s.files (q l)).bind _ = _
      rw [hx l List.mem_cons_self]; rfl
    have hne : ∀ m ∈ ls, q m ≠ q l := fun m hm e => hl (hq e ▸ hm)
    obtain ⟨files, hrun, hin, hout⟩ :=
      ih hnd (s := { s with files := Function.update s.files (q l) (some (x l ++ t l)) })
        (fun m hm => hf m (List.mem_cons_of_mem _ hm))
        (fun m hm => by
          show Function.update _ _ _ _ = _
          rw [Function.update_of_ne (hne m hm)]; exact hx m (List.mem_cons_of_mem _ hm))
    refine ⟨files, ?_, ?_, ?_⟩
    · rw [List.foldlM_cons, hw]; exact hrun
    · intro m hm
      rcases List.mem_cons.1 hm with rfl | hm
      · -- the later lines go to other files
        rw [hout (q m) (fun m' hm' e => hne m' hm' e.symm)]
        exact Function.update_self _ _ _
      · exact hin m hm
    · intro p hp
      rw [hout p (fun m hm => hp m (List.mem_cons_of_mem _ hm))]
      exact Function.update_of_ne (hp l List.mem_cons_self) _ _

end

/-! ### The loop -/

section
variable (b : Nat) (bindata : List (BitVec 8))

/-- Lane `l` of word `i`, with zeros behind the end of the firmware. -/
def byteAt (i : Nat) (l : BitVec 2) : BitVec 8 := bindata.getD (4 * i + l.toNat) 0

/-- What the first `i` rounds write for lane `l` of block `j`. -/
def written (i j : Nat) (l : BitVec 2) : List (BitVec 8) :=
  ((List.range i).filter (· / b = j)).map (byteAt bindata · l)

theorem written_succ (i j : Nat) (l : BitVec 2) :
    written b bindata (i + 1) j l =
      written b bindata i j l ++ if i / b = j then [byteAt bindata i l] else [] := by
  rw [written, List.range_succ, List.filter_append, List.map_append, ← written]
  by_cases h : i / b = j
  · simp [h]
  · simp [h]

theorem filter_before {i j : Nat} (h : i ≤ j * b) : (List.range i).filter (· / b = j) = [] := by
  rw [List.filter_eq_nil_iff]
  intro w hw
  have hlt : w < j * b := Nat.lt_of_lt_of_le (List.mem_range.1 hw) h
  have hdiv : w / b < j := Nat.div_lt_of_lt_mul (by rwa [Nat.mul_comm] at hlt)
  simpa using Nat.ne_of_lt hdiv

/-- In the end a file has the bytes of its block. -/
theorem written_all {g j : Nat} (hb : 0 < b) (hj : j < g) (l : BitVec 2) :
    written b bindata (g * b) j l = (List.range' (j * b) b).map (byteAt bindata · l) := by
  have hg : g * b = j * b + (b + (g - (j + 1)) * b) := by
    have h : g = j + (1 + (g - (j + 1))) := by omega
    calc g * b = (j + (1 + (g - (j + 1)))) * b := by rw [← h]
      _ = _ := by rw [Nat.add_mul, Nat.add_mul, Nat.one_mul]
  have hblock : (List.range' (j * b) b).filter (· / b = j) = List.range' (j * b) b := by
    rw [List.filter_eq_self]
    intro w hw
    rw [List.mem_range'_1] at hw
    have : w / b = j := Nat.div_eq_of_lt_le hw.1 (by rw [Nat.succ_mul]; exact hw.2)
    simpa using this
  have hafter : (List.range' (j * b + b) ((g - (j + 1)) * b)).filter (· / b = j) = [] := by
    rw [List.filter_eq_nil_iff]
    intro w hw
    rw [List.mem_range'_1] at hw
    have : j + 1 ≤ w / b := (Nat.le_div_iff_mul_le hb).2 (by rw [Nat.succ_mul]; exact hw.1)
    have hne : w / b ≠ j := by omega
    simpa using hne
  rw [written, List.range_eq_range', hg, ← List.range'_append_1, ← List.range'_append_1, Nat.zero_add,
    ← List.range_eq_range', List.filter_append, List.filter_append, filter_before b (Nat.le_refl _), hblock,
    hafter, List.nil_append, List.append_nil]

theorem writeWord_eq {bindata : List (BitVec 8)} (h4 : bindata.length % 4 = 0) (s : Makehex) (i : Nat) :
    s.writeWord bindata i = lanes.foldlM (fun s l => s.write l (line (byteAt bindata i l))) s := by
  rw [writeWord]
  by_cases hi : i < bindata.length / 4
  · have hw : ∀ l : BitVec 2, ((bindata.drop (4 * i)).take 4)[l.toNat]? = some (byteAt bindata i l) := by
      intro l
      have hl : l.toNat < 4 := l.isLt
      have hlt : 4 * i + l.toNat < bindata.length := by omega
      rw [List.getElem?_take_of_lt hl, List.getElem?_drop, byteAt, List.getD_eq_getElem?_getD,
        List.getElem?_eq_getElem hlt, Option.getD_some]
    rw [if_pos hi]
    show lanes.foldlM (fun s l => (_[l.toNat]?).bind fun x => write s l (line x)) s = _
    simp only [hw, Option.bind_some]
  · have hw : ∀ l : BitVec 2, byteAt bindata i l = 0 := by
      intro l
      rw [byteAt, List.getD_eq_getElem?_getD, List.getElem?_eq_none (by omega), Option.getD_none]
    have hline : line 0 = "00\n".toList := by decide
    rw [if_neg hi]
    simp only [hw, hline]

variable (path : Nat → List Char) (g : Nat)

/-- Before round `i` of the loop, with `g` blocks of `b` words to write. -/
structure Inv (i : Nat) (s : Makehex) : Prop where
  f : i < g * b → ∀ l, s.f l = some (path (4 * (i / b) + l.toNat))
  ramidx : i < g * b → s.ramidx = 4 * (i / b) + 4
  text : ∀ j l, j ≤ i / b → j < g →
    s.files (path (4 * j + l.toNat)) = some (lines (written b bindata i j l))

variable {b bindata path g} {i : Nat} {s : Makehex}

theorem Inv.start (hp : Function.Injective path) : Inv b bindata path g 0 (start.openAll path) where
  f _ l := by rw [f_openAll, Nat.zero_div]; rfl
  ramidx _ := by rw [Nat.zero_div]; rfl
  text j l hj _ := by
    obtain rfl : j = 0 := by rwa [Nat.zero_div, Nat.le_zero] at hj
    exact files_openAll hp Makehex.start l

theorem blocks_inj {m n : Nat} {k l : BitVec 2} (h : 4 * m + k.toNat = 4 * n + l.toNat) : m = n ∧ k = l := by
  have hk : k.toNat < 4 := k.isLt
  have hl : l.toNat < 4 := l.isLt
  exact ⟨by omega, BitVec.eq_of_toNat_eq (by omega)⟩

/-- The four lines of a round are added to the files of its block. -/
theorem Inv.writeWord (hp : Function.Injective path) (h4 : bindata.length % 4 = 0)
    (h : Inv b bindata path g i s) (hi : i < g * b) :
    ∃ files, s.writeWord bindata i = some { s with files := files } ∧ ∀ j l, j ≤ i / b → j < g →
      files (path (4 * j + l.toNat)) = some (lines (written b bindata (i + 1) j l)) := by
  have hq : Function.Injective fun l : BitVec 2 => path (4 * (i / b) + l.toNat) :=
    fun k l e => (blocks_inj (hp e)).2
  have hblock : i / b < g := Nat.div_lt_of_lt_mul (by rwa [Nat.mul_comm] at hi)
  obtain ⟨files, hrun, hin, hout⟩ := foldlM_write
    (t := fun l => line (byteAt bindata i l)) hq (by decide : lanes.Nodup) (fun l _ => h.f hi l)
    (fun l _ => h.text (i / b) l (Nat.le_refl _) hblock)
  refine ⟨files, by rw [writeWord_eq h4, hrun], ?_⟩
  intro j l hj hg
  have hmem : l ∈ lanes := by revert l; decide
  rw [written_succ]
  by_cases hji : i / b = j
  · subst hji
    rw [if_pos rfl, lines_concat]; exact hin l hmem
  · rw [if_neg hji, List.append_nil, hout _ (fun k _ e => hji (blocks_inj (hp e)).1.symm)]
    exact h.text j l hj hg

theorem succ_div_block (hb : 0 < b) : (i + 1) / b = i / b + if i % b = b - 1 then 1 else 0 := by
  have hdiv : i / b * b + i % b = i := Nat.div_add_mod' i b
  have hmod := Nat.mod_lt i hb
  have hsucc : (i / b + 1) * b = i / b * b + b := Nat.succ_mul _ _
  split_ifs with h
  · exact Nat.div_eq_of_eq_mul_left hb (by omega)
  · exact Nat.div_eq_of_lt_le (k := i / b) (by omega) (by omega)

/-- The files of the next block, opened when block `q` is complete. -/
theorem Inv.opened {q : Nat} (hp : Function.Injective path) (hb : 0 < b) (hi : i = (q + 1) * b)
    (hidx : s.ramidx = 4 * (q + 1)) (htext : ∀ j l, j ≤ q → j < g →
      s.files (path (4 * j + l.toNat)) = some (lines (written b bindata i j l))) :
    Inv b bindata path g i (s.closeAll.openAll path) := by
  have hdiv : i / b = q + 1 := by rw [hi, Nat.mul_div_cancel _ hb]
  have hidx' : s.closeAll.ramidx = 4 * (q + 1) := hidx
  refine ⟨?_, ?_, ?_⟩
  · intro _ l
    rw [f_openAll, hdiv, hidx']
  · intro _
    show s.ramidx + 4 = _
    rw [hdiv, hidx]
  · intro j l hj hg
    rw [hdiv] at hj
    rcases Nat.le_succ_iff.1 hj with hold | rfl
    · rw [files_openAll_of_ne]
      · exact htext j l hold hg
      · intro m e
        have := (blocks_inj ((hp e).trans (by rw [hidx']))).1
        omega
    · rw [written, filter_before _ (Nat.le_of_eq hi), ← hidx']
      exact files_openAll hp _ l

/-- One round: the lines of a word are written, and the files change at the end of a block. -/
theorem Inv.body {k : Nat} (hp : Function.Injective path) (h4 : bindata.length % 4 = 0)
    (h : Inv (2 ^ k) bindata path g i s) (hi : i < g * 2 ^ k) :
    ∃ s', body path (4 * g) (2 ^ k) bindata s i = some s' ∧ Inv (2 ^ k) bindata path g (i + 1) s' := by
  obtain ⟨files, hrun, htext⟩ := h.writeWord hp h4 hi
  have hidx := h.ramidx hi
  have hf := h.f hi
  have hdiv := succ_div_block (i := i) (Nat.two_pow_pos k)
  have hblock : i / 2 ^ k < g := Nat.div_lt_of_lt_mul (by rwa [Nat.mul_comm] at hi)
  rw [Makehex.body, hrun, Nat.and_two_pow_sub_one_eq_mod]
  by_cases hlast : i % 2 ^ k = 2 ^ k - 1
  · rw [if_pos hlast] at hdiv
    have hend : (i / 2 ^ k + 1) * 2 ^ k = i + 1 := by
      have hi : i / 2 ^ k * 2 ^ k + i % 2 ^ k = i := Nat.div_add_mod' i _
      have hpos := Nat.two_pow_pos k
      rw [Nat.succ_mul]; omega
    by_cases hall : i / 2 ^ k + 1 = g
    · -- that was the last block; nothing is open any more, and nothing is left to write
      have hidx' : ¬ s.ramidx ≠ 4 * g := by omega
      have hover : ¬ i + 1 < g * 2 ^ k := by rw [← hall, hend]; omega
      refine ⟨closeAll { s with files := files }, ?_, ?_, ?_, ?_⟩
      · exact (if_pos hlast).trans (if_neg hidx')
      · exact fun hlt => absurd hlt hover
      · exact fun hlt => absurd hlt hover
      · intro j l _ hg
        exact htext j l (by omega) hg
    · have hmore : s.ramidx ≠ 4 * g := by omega
      exact ⟨(closeAll { s with files := files }).openAll path, (if_pos hlast).trans (if_pos hmore),
        .opened hp (Nat.two_pow_pos k) hend.symm (hidx.trans (Nat.mul_succ ..).symm) htext⟩
  · rw [if_neg hlast, Nat.add_zero] at hdiv
    refine ⟨{ s with files := files }, if_neg hlast, ?_, ?_, ?_⟩
    · intro _ l
      rw [hdiv]; exact hf l
    · intro _
      rw [hdiv]; exact hidx
    · intro j l hj hg
      exact htext j l (by rwa [hdiv] at hj) hg

theorem Inv.loop {k : Nat} (hp : Function.Injective path) (h4 : bindata.length % 4 = 0) :
    ∀ n, n ≤ g * 2 ^ k → ∃ s, (List.range n).foldlM (Makehex.body path (4 * g) (2 ^ k) bindata)
      (Makehex.start.openAll path) = some s ∧ Inv (2 ^ k) bindata path g n s := by
  intro n
  induction n with
  | zero => exact fun _ => ⟨_, rfl, Inv.start hp⟩
  | succ n ih =>
    intro hn
    obtain ⟨s, hrun, h⟩ := ih (Nat.le_of_succ_le hn)
    obtain ⟨s', hbody, h'⟩ := h.body hp h4 hn
    refine ⟨s', ?_, h'⟩
    rw [List.range_succ, List.foldlM_append, hrun]
    exact (bind_pure _).trans hbody

end

/-! ### The files -/

theorem ramPath_injective (cwd binfile : List Char) : Function.Injective (ramPath cwd binfile) := by
  intro m n h
  exact decimal_inj (List.append_cancel_left (List.append_cancel_right h))

def firmwareBin : List Char := "firmware.bin".toList

theorem ramPath_ne_zeroPath (cwd binfile : List Char) (n : Nat) : ramPath cwd binfile n ≠ zeroPath cwd := by
  intro h
  have hzero : zeroPath cwd = (cwd ++ "hex/firmwarezer".toList ++ ['o']) ++ ".hex".toList := by
    rw [zeroPath, List.append_assoc, List.append_assoc]
    exact congrArg (cwd ++ ·) (by decide)
  -- before the suffix one name ends with a digit and the other does not
  have hlast := congrArg List.getLast? (List.append_cancel_right (h.trans hzero))
  rw [List.getLast?_append_of_ne_nil _ (decimal_ne_nil 2 n), List.getLast?_concat] at hlast
  exact absurd (isDigit_of_mem_decimal (List.mem_of_getLast? hlast)) (by decide)

theorem makehex_eq {g k : Nat} (cwd binfile : List Char) (hg : 4 * g < 2 ^ 53) (bindata : List (BitVec 8)) :
    makehex cwd binfile (4 * (g * 2 ^ k)) (2 ^ k) bindata =
      if bindata.length < 4 * (4 * (g * 2 ^ k)) ∧ bindata.length % 4 = 0 then
        ((List.range (g * 2 ^ k)).foldlM (body (ramPath cwd binfile) (4 * g) (2 ^ k) bindata)
          (start.openAll (ramPath cwd binfile))).map
            fun s => Function.update s.files (zeroPath cwd) (some (List.replicate 4096 "00\n".toList).flatten)
      else none := by
  have hnum : intTrueDiv (4 * (g * 2 ^ k)) (2 ^ k) = some (4 * g) := by
    rw [← Nat.mul_assoc]
    exact intTrueDiv_mul (Nat.two_pow_pos k) hg
  have hwords : (4 * (g * 2 ^ k)) >>> 2 = g * 2 ^ k := by
    rw [Nat.shiftRight_eq_div_pow]; omega
  rw [makehex, hnum, hwords]
  exact if_congr Iff.rfl Option.map_eq_bind.symm rfl

/-- Every file of the firmware is its lane of its block. -/
theorem makehex_spec {g k : Nat} {bindata : List (BitVec 8)} (cwd binfile : List Char) (hg : 4 * g < 2 ^ 53)
    (hlen : bindata.length < 4 * (4 * (g * 2 ^ k))) (h4 : bindata.length % 4 = 0) :
    ∃ files, makehex cwd binfile (4 * (g * 2 ^ k)) (2 ^ k) bindata = some files ∧
      ∀ (j : Nat) (l : BitVec 2), j < g → files (ramPath cwd binfile (4 * j + l.toNat)) =
        some (lines ((List.range' (j * 2 ^ k) (2 ^ k)).map (byteAt bindata · l))) := by
  obtain ⟨s, hrun, h⟩ := Inv.loop (ramPath_injective cwd binfile) h4 _ (Nat.le_refl (g * 2 ^ k))
  refine ⟨Function.update s.files (zeroPath cwd) (some (List.replicate 4096 "00\n".toList).flatten), ?_, ?_⟩
  · rw [makehex_eq cwd binfile hg, if_pos ⟨hlen, h4⟩, hrun]
    rfl
  · intro j l hj
    have hdone : g * 2 ^ k / 2 ^ k = g := Nat.mul_div_cancel _ (Nat.two_pow_pos k)
    rw [Function.update_of_ne (ramPath_ne_zeroPath cwd binfile _), h.text j l (by omega) hj,
      written_all _ _ (Nat.two_pow_pos k) hj]

/-! ### The files that are never opened -/

theorem foldlM_keeps {σ α : Type} {f : σ → α → Option σ} {P : σ → Prop}
    (hstep : ∀ {s a s'}, P s → f s a = some s' → P s') {l : List α} :
    ∀ {s s'}, P s → l.foldlM f s = some s' → P s' := by
  induction l with
  | nil => intro s s' hs h; rwa [← Option.some.inj h]
  | cons a l ih =>
    intro s s' hs h
    obtain ⟨t, ht, h⟩ := Option.bind_eq_some_iff.1 h
    exact ih (hstep hs ht) h

/-- Only files with a number below `ramidx` have been opened, and there are at most `4 * g` of them. -/
structure Unopened (path : Nat → List Char) (g : Nat) (s : Makehex) : Prop where
  f : ∀ l p, s.f l = some p → ∃ n, n < s.ramidx ∧ p = path n
  files : ∀ n, s.ramidx ≤ n → s.files (path n) = none
  ramidx : ∃ q, q ≤ g ∧ s.ramidx = 4 * q

namespace Unopened
variable {path : Nat → List Char} {g : Nat} {s s' : Makehex}

theorem write {l : BitVec 2} {t : List Char} (hp : Function.Injective path) (h : Unopened path g s)
    (hw : s.write l t = some s') : Unopened path g s' := by
  obtain ⟨p, hf, hw⟩ := Option.bind_eq_some_iff.1 hw
  obtain ⟨x, -, hw⟩ := Option.bind_eq_some_iff.1 hw
  obtain rfl := Option.some.inj hw
  obtain ⟨m, hm, rfl⟩ := h.f l p hf
  refine ⟨h.f, ?_, h.ramidx⟩
  intro n hn
  have hne : path n ≠ path m := fun e => by
    have hnm := hp e
    have hn' : s.ramidx ≤ n := hn
    omega
  exact (Function.update_of_ne hne _ _).trans (h.files n hn)

theorem writeWord {bindata : List (BitVec 8)} {i : Nat} (hp : Function.Injective path)
    (h : Unopened path g s) (hw : s.writeWord bindata i = some s') : Unopened path g s' := by
  rw [Makehex.writeWord] at hw
  split_ifs at hw with hi
  · refine foldlM_keeps ?_ h hw
    intro s l s' h hw
    obtain ⟨x, -, hw⟩ := Option.bind_eq_some_iff.1 hw
    exact h.write hp hw
  · exact foldlM_keeps (fun h hw => h.write hp hw) h hw

theorem openAll {q : Nat} (hp : Function.Injective path) (hidx : s.ramidx = 4 * q) (hq : q < g)
    (h : ∀ n, s.ramidx ≤ n → s.files (path n) = none) : Unopened path g (s.openAll path) := by
  have hidx' : (s.openAll path).ramidx = s.ramidx + 4 := rfl
  refine ⟨?_, ?_, q + 1, hq, by rw [hidx', hidx]; rfl⟩
  · intro l p hf
    rw [f_openAll] at hf
    have hl : l.toNat < 4 := l.isLt
    exact ⟨s.ramidx + l.toNat, by omega, (Option.some.inj hf).symm⟩
  · intro n hn
    rw [files_openAll_of_ne]
    · exact h n (by omega)
    · intro l e
      have hl : l.toNat < 4 := l.isLt
      have := hp e
      omega

theorem body {b i : Nat} {bindata : List (BitVec 8)} (hp : Function.Injective path) (h : Unopened path g s)
    (hb : Makehex.body path (4 * g) b bindata s i = some s') : Unopened path g s' := by
  obtain ⟨t, ht, hb⟩ := Option.bind_eq_some_iff.1 hb
  have h := h.writeWord hp ht
  obtain ⟨q, hq, hidx⟩ := h.ramidx
  split_ifs at hb with hlast hmore
  · -- the next four files: not all are used, and they are used four at a time
    obtain rfl := Option.some.inj hb
    have hidx' : t.closeAll.ramidx = 4 * q := hidx
    exact openAll hp hidx' (by omega) h.files
  · obtain rfl := Option.some.inj hb
    exact ⟨fun _ _ hf => (nomatch hf), h.files, h.ramidx⟩
  · obtain rfl := Option.some.inj hb
    exact h

end Unopened

theorem files_eq_none {cwd binfile : List Char} {g k n : Nat} {bindata : List (BitVec 8)} {files : Files}
    (hg53 : 4 * g < 2 ^ 53) (h : makehex cwd binfile (4 * (g * 2 ^ k)) (2 ^ k) bindata = some files) (hn : 4 * g ≤ n) :
    files (ramPath cwd binfile n) = none := by
  rw [makehex_eq cwd binfile hg53] at h
  split_ifs at h with hlen
  have hg : 0 < g := by
    rcases Nat.eq_zero_or_pos g with rfl | hg
    · rw [Nat.zero_mul] at hlen; exact absurd hlen.1 (Nat.not_lt_zero _)
    · exact hg
  obtain ⟨s, hs, rfl⟩ := Option.map_eq_some_iff.1 h
  have hp := ramPath_injective cwd binfile
  have hun : Unopened (ramPath cwd binfile) g s :=
    foldlM_keeps (fun h hb => h.body hp hb) (.openAll hp rfl hg fun _ _ => rfl) hs
  obtain ⟨q, hq, hidx⟩ := hun.ramidx
  rw [Function.update_of_ne (ramPath_ne_zeroPath cwd binfile n)]
  exact hun.files n (by omega)

/-! ### What the assertions let through -/

/-- Byte `a` of the firmware stands in the file of its block and lane, in the line of its word. -/
def Placed (path : Nat → List Char) (blockramsize : Nat) (files : Files) (a : Nat) (x : BitVec 8) : Prop :=
  ∃ text ns, files (path (4 * (a / 4 / blockramsize) + a % 4)) = some text ∧ numbers none text = some ns ∧
    ns[a / 4 % blockramsize]? = some x.toNat

theorem placed_of_lines {path : Nat → List Char} {b a : Nat} {x : BitVec 8} {bindata : List (BitVec 8)}
    {files : Files} (hb : 0 < b) (hx : bindata[a]? = some x) (hfile : ∀ l : BitVec 2,
      files (path (4 * (a / 4 / b) + l.toNat)) =
        some (lines ((List.range' (a / 4 / b * b) b).map (byteAt bindata · l)))) :
    Placed path b files a x := by
  have hl : (BitVec.ofNat 2 (a % 4)).toNat = a % 4 := by
    rw [BitVec.toNat_ofNat]; exact Nat.mod_eq_of_lt (Nat.mod_lt a (by decide))
  have hfile := hfile (BitVec.ofNat 2 (a % 4))
  rw [hl] at hfile
  refine ⟨_, _, hfile, numbers_lines _, ?_⟩
  have hword : a / 4 / b * b + 1 * (a / 4 % b) = a / 4 := by
    rw [Nat.one_mul]; exact Nat.div_add_mod' (a / 4) b
  have hbyte : byteAt bindata (a / 4) (BitVec.ofNat 2 (a % 4)) = x := by
    rw [byteAt, hl, Nat.div_add_mod, List.getD_eq_getElem?_getD, hx, Option.getD_some]
  rw [List.getElem?_map, List.getElem?_map, List.getElem?_range' (Nat.mod_lt _ hb), hword]
  exact congrArg (fun y : BitVec 8 => some y.toNat) hbyte

/-- The size of the firmware is compared with four times the bytes there are: what is too long for the
RAM and shorter than that is cut off without a word. -/
theorem makehex_complete_iff (cwd binfile : List Char) {g : Nat} (hg : 4 * g < 2 ^ 53) (k : Nat)
    (bindata : List (BitVec 8)) :
    (¬ (bindata.length < 4 * (4 * (g * 2 ^ k)) ∧ bindata.length % 4 = 0) ∧
        makehex cwd binfile (4 * (g * 2 ^ k)) (2 ^ k) bindata = none ∨
      ∃ files, makehex cwd binfile (4 * (g * 2 ^ k)) (2 ^ k) bindata = some files ∧
        ∀ a x, bindata[a]? = some x → Placed (ramPath cwd binfile) (2 ^ k) files a x) ↔
    bindata.length ≤ 4 * (g * 2 ^ k) ∨ 4 * (4 * (g * 2 ^ k)) ≤ bindata.length ∨ bindata.length % 4 ≠ 0 := by
  by_cases hass : bindata.length < 4 * (4 * (g * 2 ^ k)) ∧ bindata.length % 4 = 0
  · obtain ⟨files, hrun, hfiles⟩ := makehex_spec (k := k) cwd binfile hg hass.1 hass.2
    have hpos := Nat.two_pow_pos k
    constructor
    · rintro (⟨hno, -⟩ | ⟨files', hrun', hall⟩)
      · exact absurd hass hno
      · obtain rfl := Option.some.inj (hrun.symm.trans hrun')
        left
        by_contra hlong
        -- the first byte behind the RAM belongs to a file that is never opened
        have hlt : 4 * (g * 2 ^ k) < bindata.length := by omega
        obtain ⟨text, ns, hfile, -⟩ := hall _ _ (List.getElem?_eq_getElem hlt)
        rw [Nat.mul_div_cancel_left _ (by decide), Nat.mul_div_cancel _ hpos,
          files_eq_none hg hrun (Nat.le_add_right _ _)] at hfile
        exact absurd hfile (by simp)
    · intro hcond
      have hle : bindata.length ≤ 4 * (g * 2 ^ k) := by omega
      refine Or.inr ⟨files, hrun, ?_⟩
      intro a x hx
      have ha : a < bindata.length := (List.getElem?_eq_some_iff.1 hx).1
      have hblock : a / 4 / 2 ^ k < g := by
        apply Nat.div_lt_of_lt_mul
        rw [Nat.mul_comm]; omega
      exact placed_of_lines hpos hx fun l => hfiles _ l hblock
  · refine iff_of_true (Or.inl ⟨hass, by rw [makehex_eq cwd binfile hg, if_neg hass]⟩) ?_
    omega

/-- The call of the `Makefile`, with an image of two words. -/
theorem makehex_complete_iff_twoWords : ∃ files,
    makehex "firmware/".toList firmwareBin (4 * (8 * 2 ^ 12)) (2 ^ 12) (List.replicate 8 0xff) = some files ∧
      ∀ a x, (List.replicate 8 (0xff : BitVec 8))[a]? = some x →
        Placed (ramPath "firmware/".toList firmwareBin) (2 ^ 12) files a x :=
  ((makehex_complete_iff "firmware/".toList firmwareBin (g := 8) (by decide) 12 (List.replicate 8 0xff)).2
    (.inl (by decide))).resolve_left fun h => h.1 (by decide)

/-- The call of the `Makefile`, with one word more than the two memories have. -/
theorem makehex_truncates : ∃ files,
    makehex "firmware/".toList firmwareBin 131072 4096 (List.replicate 131076 0xff) = some files ∧
      (List.replicate 131076 (0xff : BitVec 8))[131072]? = some 0xff ∧
      ¬ Placed (ramPath "firmware/".toList firmwareBin) 4096 files 131072 0xff := by
  have hlen : (List.replicate 131076 (0xff : BitVec 8)).length = 131076 := List.length_replicate
  have hlt : (List.replicate 131076 (0xff : BitVec 8)).length < 4 * (4 * (8 * 2 ^ 12)) := by rw [hlen]; decide
  obtain ⟨files, hrun, -⟩ := makehex_spec (g := 8) (k := 12) "firmware/".toList firmwareBin (by decide) hlt
    (by rw [hlen])
  refine ⟨files, hrun, ?_, ?_⟩
  · rw [List.getElem?_replicate, if_pos (by decide)]
  · rintro ⟨text, ns, hfile, -⟩
    rw [files_eq_none (g := 8) (k := 12) (by decide) hrun (by decide)] at hfile
    exact absurd hfile (by simp)

end Makehex

end Picorv32Soc
