import Picorv32Soc.Strings

/-!
# `strcpy`

Like `strcmp`, `strcpy` goes byte by byte until its two pointers are aligned and then word by word; the
word with the NUL is stored byte by byte up to it. `strcpy_copies` says that the string and its NUL are
written and nothing else.
-/

namespace Picorv32Soc.Mylib
open Bits Cells

/-- The bytes of a word stored one by one, up to a zero or `n` of them. -/
def strcpyBytes : Nat → Mem → BitVec 32 → BitVec 32 → Option Mem
  | 0, m, _, _ => some m
  | n + 1, m, dst, v => do
    let m ← m.store8 dst (v.setWidth 8)
    if v.setWidth 8 = 0 then return m else strcpyBytes n m (dst + 1) (v >>> 8)

/-- The second loop of `strcpy`. -/
def strcpyWords : Nat → Mem → BitVec 32 → BitVec 32 → Option Mem
  | 0, _, _, _ => none
  | fuel + 1, m, dst, src => do
    let v ← m.load32 src
    if zeroTest v ≠ 0 then strcpyBytes 4 m dst v
    else strcpyWords fuel (← m.store32 dst v) (dst + 4) (src + 4)

/-- The first loop of `strcpy`. -/
def strcpyLoop : Nat → Mem → BitVec 32 → BitVec 32 → Option Mem
  | 0, _, _, _ => none
  | fuel + 1, m, dst, src =>
    if (dst ||| src) &&& 3 ≠ 0 then do
      let c ← m.load8 src
      let m ← m.store8 dst c
      if c = 0 then return m else strcpyLoop fuel m (dst + 1) (src + 1)
    else strcpyWords fuel m dst src

/-- `strcpy(dst, src)`: the memory and the result. -/
def strcpy (fuel : Nat) (m : Mem) (dst src : BitVec 32) : Option (Mem × BitVec 32) := do
  return (← strcpyLoop fuel m dst src, dst)

/-! ### What is written -/

/-- The `n + 1` bytes from `dst` on are not among those from `src` on. -/
def Apart (dst src : BitVec 32) (n : Nat) : Prop :=
  ∀ i j, i ≤ n → j ≤ n → src + BitVec.ofNat 32 i ≠ dst + BitVec.ofNat 32 j

/-- The memory with a list written to it. -/
def Mem.write (m : Mem) (a : BitVec 32) (bs : List (BitVec 8)) : Mem := { m with byte := store m.byte a bs }

section
variable {m : Mem} {a dst src : BitVec 32} {p bs : List (BitVec 8)} {n k : Nat}

theorem Apart.skip (h : Apart dst src (k + n)) :
    Apart (dst + BitVec.ofNat 32 k) (src + BitVec.ofNat 32 k) n := by
  intro i j hi hj
  rw [← add_ofNat_add, ← add_ofNat_add]
  exact h _ _ (Nat.add_le_add_left hi k) (Nat.add_le_add_left hj k)

theorem write_append (m : Mem) (a : BitVec 32) (bs cs : List (BitVec 8)) :
    (m.write a bs).write (a + BitVec.ofNat 32 bs.length) cs = m.write a (bs ++ cs) := by
  rw [Mem.write, Mem.write, Mem.write, store_append]

/-- What is written elsewhere does not change a string. -/
theorem StringAt.write (h : StringAt m a p)
    (hap : ∀ i j, i ≤ p.length → j < bs.length → a + BitVec.ofNat 32 i ≠ dst + BitVec.ofNat 32 j) :
    StringAt (m.write dst bs) a p := by
  refine ⟨h.nonzero, ?_, h.mapped⟩
  intro i b hb
  have hi : i < (p ++ [0]).length := (List.getElem?_eq_some_iff.1 hb).1
  rw [List.length_append, List.length_singleton] at hi
  exact (store_of_ne fun j hj => hap i j (by omega) hj).trans (h.bytes i b hb)

/-- The rest of the source, after its first `k` bytes have been written. -/
theorem StringAt.write_skip (h : StringAt m (src + BitVec.ofNat 32 k) p) (hap : Apart dst src (k + p.length))
    (hbs : bs.length = k) : StringAt (m.write dst bs) (src + BitVec.ofNat 32 k) p := by
  refine h.write ?_
  intro i j hi hj
  rw [← add_ofNat_add]
  exact hap _ _ (Nat.add_le_add_left hi k) (by omega)

theorem Mem.store8_eq (h : m.mapped (Mem.wordOf a)) (b : BitVec 8) : m.store8 a b = some (m.write a [b]) := by
  rw [Mem.store8, if_pos h]; rfl

theorem Mem.store32_eq (ha : a &&& 3 = 0) (h : m.mapped (Mem.wordOf a)) (v : BitVec 32) :
    m.store32 a v = some (m.write a ((List.range 4).map (lane v))) := by
  rw [Mem.store32, if_pos ⟨ha, h⟩, byteLane_eq_lane, byteLane_eq_lane, byteLane_eq_lane, byteLane_eq_lane]
  rfl

/-- The bytes of the last word, up to the NUL. The word was read before anything is written. -/
theorem strcpyBytes_eq {m₀ : Mem} {v : BitVec 32} (h : StringAt m₀ src p) (hv : Bytes m₀ src n v) (hn : p.length < n)
    (hw : Mapped m dst p.length) : strcpyBytes n m dst v = some (m.write dst (p ++ [0])) := by
  induction n generalizing m dst src p v with
  | zero => exact absurd hn (Nat.not_lt_zero _)
  | succ n ih =>
    have hc : v.setWidth 8 = p.headD 0 := hv.head.trans h.byte
    rw [strcpyBytes, Mem.store8_eq hw.head, hc]
    cases p with
    | nil => rfl
    | cons c p =>
      rw [List.length_cons, Nat.add_comm] at hw hn
      have hw' : Mapped (m.write dst [c]) (dst + 1) p.length := hw.skip
      show (if c = 0 then some _ else strcpyBytes n (m.write dst [c]) (dst + 1) (v >>> 8)) = _
      rw [if_neg h.head_ne, ih h.tail hv.tail (by omega) hw']
      exact congrArg some (write_append m dst [c] _)

theorem strcpyWords_eq {fuel : Nat} (h : StringAt m src p) (hw : Mapped m dst p.length) (hap : Apart dst src p.length)
    (hd : dst &&& 3 = 0) (hs : src &&& 3 = 0) (hf : p.length < fuel) :
    strcpyWords fuel m dst src = some (m.write dst (p ++ [0])) := by
  induction fuel generalizing m dst src p with
  | zero => exact absurd hf (Nat.not_lt_zero _)
  | succ fuel ih =>
    obtain ⟨v, hv, hbytes⟩ := h.load32 hs
    rw [strcpyWords, hv]
    show (if zeroTest v ≠ 0 then strcpyBytes 4 m dst v
      else (m.store32 dst v).bind fun m => strcpyWords fuel m (dst + 4) (src + 4)) = _
    split_ifs with hz
    · obtain ⟨i, hi, h0⟩ := (zeroTest_iff v).1 hz
      have hle := h.length_le ((hbytes i hi).symm.trans h0)
      exact strcpyBytes_eq h hbytes (by omega) hw
    · have hfull : ∀ i, i < 4 → lane v i ≠ 0 := fun i hi h0 => hz ((zeroTest_iff v).2 ⟨i, hi, h0⟩)
      rw [Mem.store32_eq hd hw.head]
      obtain ⟨p', hp, hp'⟩ := h.skip 4 fun i hi => hbytes i hi ▸ hfull i hi
      rw [← hbytes.map_range] at hp
      have hlen : p.length = 4 + p'.length := by rw [hp, List.length_append]; rfl
      rw [hlen] at hw hap hf
      have hp'' : StringAt (m.write dst ((List.range 4).map (lane v))) (src + BitVec.ofNat 32 4) p' :=
        hp'.write_skip hap rfl
      have hrun := ih hp'' hw.skip hap.skip (aligned_add_four hd) (aligned_add_four hs) (by omega)
      refine hrun.trans ?_
      rw [hp, List.append_assoc]
      exact congrArg some (write_append m dst ((List.range 4).map (lane v)) _)

theorem strcpyLoop_eq {fuel : Nat} (h : StringAt m src p) (hw : Mapped m dst p.length) (hap : Apart dst src p.length)
    (hf : p.length + 1 < fuel) : strcpyLoop fuel m dst src = some (m.write dst (p ++ [0])) := by
  induction fuel generalizing m dst src p with
  | zero => exact absurd hf (Nat.not_lt_zero _)
  | succ fuel ih =>
    rw [strcpyLoop]
    split_ifs with hal
    · rw [h.load8]
      show ((m.store8 dst (p.headD 0)).bind fun m =>
        if p.headD 0 = 0 then some m else strcpyLoop fuel m (dst + 1) (src + 1)) = _
      rw [Mem.store8_eq hw.head, Option.bind_some]
      cases p with
      | nil => rfl
      | cons c p =>
        rw [List.length_cons, Nat.add_comm] at hw hap hf
        have h' : StringAt (m.write dst [c]) (src + BitVec.ofNat 32 1) p := h.tail.write_skip hap rfl
        have hrun := ih h' hw.skip hap.skip (by omega)
        rw [List.headD_cons, if_neg h.head_ne]
        exact hrun.trans (congrArg some (write_append m dst [c] _))
    · obtain ⟨hd, hs⟩ := aligned_of_or (not_not.1 hal)
      exact strcpyWords_eq h hw hap hd hs (by omega)

/-- `strcpy` writes the string and its NUL at `dst` and nothing else, and returns `dst`, at any two
addresses. -/
theorem strcpy_copies (h : StringAt m src p) (hw : Mapped m dst p.length) (hap : Apart dst src p.length) :
    ∃ n m', (∀ fuel, n ≤ fuel → strcpy fuel m dst src = some (m', dst)) ∧ Holds m'.byte dst (p ++ [0]) ∧
      ∀ x, (∀ i, i ≤ p.length → x ≠ dst + BitVec.ofNat 32 i) → m'.byte x = m.byte x := by
  have hlen : (p ++ [0]).length = p.length + 1 := by rw [List.length_append, List.length_singleton]
  refine ⟨p.length + 2, m.write dst (p ++ [0]), ?_, ?_, ?_⟩
  · intro fuel hf
    rw [strcpy, strcpyLoop_eq h hw hap hf]
    rfl
  · -- the destination is not in the source, so the string does not go round the whole memory
    have hlt : p.length < (dst - src).toNat := by
      by_contra hle
      have hne := hap (dst - src).toNat 0 (by omega) (Nat.zero_le _)
      rw [add_offset, add_ofNat_zero] at hne
      exact hne rfl
    have hmax := (dst - src).isLt
    exact holds_store (by omega)
  · intro x hx
    exact store_of_ne fun i hi => hx i (by omega)

end

theorem strcpy_copies_aab : ∃ n m',
    (∀ fuel, n ≤ fuel → strcpy fuel (memWith 0x1001 [0x61, 0x61, 0x62]) 0x2000 0x1001 = some (m', 0x2000)) ∧
      Holds m'.byte 0x2000 ([0x61, 0x61, 0x62] ++ [0]) ∧
      ∀ x, (∀ i, i ≤ 3 → x ≠ 0x2000 + BitVec.ofNat 32 i) →
        m'.byte x = (memWith 0x1001 [0x61, 0x61, 0x62]).byte x := by
  refine strcpy_copies (stringAt_memWith (by decide) (by decide)) (fun _ _ => rfl) ?_
  intro i j hi hj
  have hi' : i ≤ 3 := hi
  have hj' : j ≤ 3 := hj
  interval_cases i <;> interval_cases j <;> decide

end Picorv32Soc.Mylib
